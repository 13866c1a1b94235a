import OpenRar.Compress.CodecRoundTrip

/-!
# Runs of a streamed session

A streamed session gets its input in pieces.  Every piece is put behind the buffer and
the loop goes as far as the look-ahead allows; at the end the rest is coded with what
is there.  The filter of the session is decided while nothing has been coded yet, so
up to that point the member is open: its bytes are known, its filtered form is not.

Every state in which the loop starts a turn keeps the invariant of the encoder, and a
session ends with all bytes covered.  There is one exception: a session that carries on
a window behind which nothing was coded keeps the mark of the end of the last one, and
refuses to wait for a filter region.
-/

namespace OpenRar.Compress

open OpenRar.Core BlockWriter List

namespace Compressor50

variable {m : Member} {win : Reach} {shift : Nat} {start st : LzState} {c c' : Compressor50}

/-! ## The loop over what was fed -/

/-- What the turns of the loop keep. -/
structure Kept (c c' : Compressor50) : Prop where
  frame : c'.passFrame = c.passFrame
  loaded : c'.srcLoaded = c.srcLoaded
  data : c.activeFilter = .none → c'.data = c.data
  cur_le : c.cur ≤ c'.cur

theorem Kept.refl (c : Compressor50) : Kept c c := ⟨rfl, rfl, fun _ => rfl, le_rfl⟩

theorem SameSource.kept (h : SameSource c c') (hcur : c.cur ≤ c'.cur) : Kept c c' :=
  ⟨h.frame, h.loaded, fun hnone => h.data (Or.inl hnone), hcur⟩

theorem Kept.trans {c'' : Compressor50} (h : Kept c c') (h' : Kept c' c'') : Kept c c'' := by
  have hfilter : c'.activeFilter = c.activeFilter := (congrArg activeFilter h.frame :)
  refine ⟨h'.frame.trans h.frame, h'.loaded.trans h.loaded, fun hnone => ?_,
    h.cur_le.trans h'.cur_le⟩
  rw [h'.data (hfilter.trans hnone), h.data hnone]

/-- The loop cannot wait: a filter region is due and an end of the input is on record. -/
structure Stale (c : Compressor50) : Prop where
  active : c.activeFilter ≠ .none
  eof : c.srcEof = true

theorem pass_streaming (hstreaming : c.streaming = true) (hfed : c.srcSize = c.srcLoaded)
    (final : Bool) :
    c.pass final = if c.cur ≥ c.srcLoaded then .stop c else c.passBody final := by
  unfold Compressor50.pass
  rw [loadData_streaming hstreaming]
  rw [if_neg (by rw [hfed]; omega)]

/-- How the loop over fed input ends. -/
structure Drained (m : Member) (win : Reach) (shift : Nat) (start : LzState) (final : Bool)
    (c c' : Compressor50) : Prop where
  running : Running m win shift start c'
  input : PassInput m win shift final c'
  kept : Kept c c'
  short : c'.srcLoaded < c'.cur + 0x100000
  plain : c.activeFilter = .none → c'.srcLoaded < c'.cur + streamLookahead
  done : final = true → c'.cur = c'.srcLoaded

/-- **The loop over fed input keeps the invariant**, in every turn and at its end. -/
theorem Running.passes_streaming {final : Bool} (h : Running m win shift start c)
    (hinput : PassInput m win shift final c) (hstreaming : c.streaming = true) (fuel : Nat)
    (hfuel : c.srcLoaded + 1 - c.cur ≤ fuel) :
    (∀ s ∈ passStates final fuel c, Running m win shift start s) ∧
      ((passes final fuel c = none ∧ final = false ∧ Stale c) ∨
        ∃ c', passes final fuel c = some c' ∧ Drained m win shift start final c c') := by
  -- Induction on the fuel: a turn that goes on has covered a byte.
  induction fuel generalizing c with
  | zero =>
    have := h.cur_le
    omega
  | succ fuel ih =>
    have hcur_le := h.cur_le
    unfold passes passStates
    rw [pass_streaming hstreaming (hinput.fed hstreaming)]
    by_cases hend : c.cur ≥ c.srcLoaded
    · rw [if_pos hend]
      refine ⟨by simpa using h, Or.inr ⟨c, rfl, h, hinput, Kept.refl c, by omega, ?_, ?_⟩⟩
      · intro _
        unfold streamLookahead
        omega
      · intro _
        omega
    · rw [if_neg hend]
      have hbody := h.passBody hinput (by omega)
      generalize c.passBody final = result at hbody ⊢
      cases hbody with
      | @stalled c1 hrun hsame hinput1 hcur _ hfinal hshort hplain =>
        have hloaded := hsame.loaded
        refine ⟨by simpa using h, Or.inr ⟨c1, rfl, hrun, hinput1, hsame.kept hcur.ge, ?_, ?_, ?_⟩⟩
        · omega
        · intro hnone
          have := hplain hnone
          omega
        · intro htrue
          rw [hfinal] at htrue
          cases htrue
      | refused _ hfinal hactive heof =>
        exact ⟨by simpa using h, Or.inl ⟨rfl, hfinal, hactive, heof⟩⟩
      | @covered c1 hrun hsame hinput1 hlt hle =>
        have hframe := hsame.frame
        have hfilter : c1.activeFilter = c.activeFilter := (congrArg activeFilter hframe :)
        have heof : c1.srcEof = c.srcEof := (congrArg srcEof hframe :)
        have hstreaming1 : c1.streaming = c.streaming := (congrArg Compressor50.streaming hframe :)
        have hloaded := hsame.loaded
        obtain ⟨hstates, hresult⟩ := ih hrun hinput1 (hstreaming1.trans hstreaming) (by omega)
        refine ⟨?_, ?_⟩
        · intro s hs
          rcases mem_cons.mp hs with rfl | hs
          · exact h
          · exact hstates s hs
        · rcases hresult with ⟨hnone, hfinal, hstale⟩ | ⟨c', hsome, hdrained⟩
          · exact Or.inl ⟨hnone, hfinal, hfilter ▸ hstale.active, heof ▸ hstale.eof⟩
          · refine Or.inr ⟨c', hsome, hdrained.running, hdrained.input,
              (hsame.kept hlt.le).trans hdrained.kept, hdrained.short, fun hnone => ?_,
              hdrained.done⟩
            exact hdrained.plain (hfilter.trans hnone)

/-! ## Feeding -/

/-- The buffer with a chunk of input behind it. -/
def appended (c : Compressor50) (chunk : List UInt8) : Compressor50 :=
  { c with data := c.data ++ chunk, srcSize := c.srcLoaded + chunk.length }

theorem appended_loaded (c : Compressor50) (chunk : List UInt8) :
    (c.appended chunk).srcLoaded = c.srcLoaded + chunk.length :=
  length_append

/-- The states in which the loop starts a turn during the loop of `feed`. -/
def feedStates : Nat → Compressor50 → List UInt8 → List Compressor50
  | 0, _, _ => []
  | fuel + 1, c, left =>
    if left = [] then []
    else
      let space := c.bufSize - (c.srcLoaded - c.posBase)
      if space = 0 then feedStates fuel c.slideWindow left
      else
        let c := c.appended (left.take (min space left.length))
        passStates false (c.srcLoaded + c.source.length + 1 - c.cur) c ++
          match c.processAvailable false with
          | some c => feedStates fuel c (left.drop (min space left.length))
          | none => []

/-- The invariant of a session between two pieces. -/
structure Feeding (m : Member) (win : Reach) (start : LzState) (c : Compressor50) : Prop where
  running : Running m win 0 start c
  input : PassInput m win 0 false c
  streaming : c.streaming = true
  finished : c.streamFinished = false
  external : c.externalBuf = false
  pretransformed : c.filterPretransformed = false
  buffer : c.bufSize = c.winSize + 0x400000 + readChunk
  short : c.srcLoaded < c.cur + 0x100000
  lengths : m.enc.length = m.orig.length
  plain : c.activeFilter = .none → m.enc = m.orig

/-- The part of the state that feeding does not change. -/
def feedFrame (c : Compressor50) : Compressor50 := { c.passFrame with srcSize := 0 }

theorem feedFrame_of_passFrame (h : c'.passFrame = c.passFrame) : c'.feedFrame = c.feedFrame :=
  congrArg (fun x : Compressor50 => { x with srcSize := 0 }) h

theorem Feeding.collecting (h : Feeding m win start c) : ∃ st, Collecting m win 0 st c := by
  obtain ⟨⟨st, _, hcollecting⟩, _⟩ := h.running
  exact ⟨st, hcollecting⟩

theorem Feeding.loaded_bounds (h : Feeding m win start c) :
    m.prior.length ≤ c.cur ∧ c.cur ≤ c.srcLoaded ∧
      c.srcLoaded ≤ m.prior.length + m.orig.length := by
  obtain ⟨st, hcollecting⟩ := h.collecting
  have hinside := hcollecting.inside
  rw [h.lengths] at hinside
  exact ⟨hcollecting.start, hcollecting.cur_le, hinside⟩

/-- What is final in a buffer that the session filters itself. -/
theorem settled_eq (hexternal : c.externalBuf = false) (hpre : c.filterPretransformed = false) :
    c.settled = if c.activeFilter = .none then c.srcLoaded else c.filterEmittedUntil := by
  unfold settled
  simp [hexternal, hpre]

/-- The next bytes of the member behind the buffer. -/
theorem append_getElem? {history orig data chunk rest : List UInt8}
    (hlow : history.length ≤ data.length)
    (hnext : orig.drop (data.length - history.length) = chunk ++ rest) {p : Nat}
    (hp : data.length ≤ p) (hlt : p < data.length + chunk.length) :
    (data ++ chunk)[p]? = orig[p - history.length]? := by
  have hdrop : (orig.drop (data.length - history.length))[p - data.length]?
      = orig[p - history.length]? := by
    rw [List.getElem?_drop]
    congr 1
    omega
  rw [List.getElem?_append_right hp, ← hdrop, hnext, List.getElem?_append_left (by omega)]

section

variable (h : Feeding m win start c)
include h

variable {chunk rest : List UInt8}

/-- The invariant survives more input. -/
theorem Feeding.append (hnext : m.orig.drop (c.srcLoaded - m.prior.length) = chunk ++ rest) :
    Running m win 0 start (c.appended chunk) ∧ PassInput m win 0 false (c.appended chunk) := by
  obtain ⟨⟨st, hblocks, hcollecting⟩, hcount⟩ := h.running
  obtain ⟨hlow, hcur, hhigh⟩ := h.loaded_bounds
  have hlen := congrArg List.length hnext
  rw [length_drop, length_append] at hlen
  have hloaded : (c.appended chunk).srcLoaded = c.srcLoaded + chunk.length :=
    c.appended_loaded chunk
  have hencLen := h.lengths
  have hsettled_le := hcollecting.settled_le
  -- Without a filter all of the buffer is final, with one the regions that are open.
  have hsettled : (c.appended chunk).settled =
      if c.activeFilter = .none then c.srcLoaded + chunk.length else c.filterEmittedUntil := by
    rw [settled_eq (c := c.appended chunk) h.external h.pretransformed, hloaded]
    rfl
  have hold := settled_eq h.external h.pretransformed
  have hkeep : ∀ p < c.srcLoaded, (c.appended chunk).data[p]? = c.data[p]? := by
    intro p hp
    exact List.getElem?_append_left hp
  have hnew : ∀ p, ¬ p < c.srcLoaded → p < c.srcLoaded + chunk.length →
      (c.appended chunk).data[p]? = m.orig[p - m.prior.length]? := by
    intro p hge hlt
    exact append_getElem? (le_trans hlow hcur) hnext (Nat.not_lt.mp hge) hlt
  constructor
  · refine ⟨⟨st, hblocks, { hcollecting with
      settled_le := ?_, inside := ?_, bytes := ?_, cur_le := ?_ }⟩, hcount⟩
    · rw [hsettled, hloaded]
      split
      · exact le_rfl
      · next hactive =>
        rw [hold, if_neg hactive] at hsettled_le
        omega
    · rw [hloaded]
      omega
    · intro p hp
      have hbytes := hcollecting.bytes p
      rw [hold] at hbytes
      rw [hsettled] at hp
      by_cases hnone : c.activeFilter = .none
      · rw [if_pos hnone] at hbytes hp
        by_cases hlt : p < c.srcLoaded
        · rw [hkeep p hlt]
          exact hbytes hlt
        · rw [hnew p hlt hp, h.plain hnone, Nat.add_zero, List.getElem?_append_right (by omega)]
      · rw [if_neg hnone] at hbytes hp
        rw [hold, if_neg hnone] at hsettled_le
        rw [hkeep p (by omega)]
        exact hbytes hp
    · rw [hloaded]
      exact le_trans hcur (Nat.le_add_right _ _)
  · refine ⟨hloaded.le, fun hactive => ⟨rfl, ?_⟩, fun _ => hloaded.symm, fun _ hfinal => ?_⟩
    · have hplan := (h.input.plan hactive).2
      refine { hplan with kind := ?_ }
      rcases hplan.kind with ⟨hpre, _⟩ | ⟨hpre, hstreaming, hexternal, hraw⟩
      · rw [h.pretransformed] at hpre
        cases hpre
      · refine Or.inr ⟨hpre, hstreaming, hexternal, fun p hp hlt => ?_⟩
        by_cases hbelow : p < c.srcLoaded
        · rw [hkeep p hbelow]
          exact hraw p hp hbelow
        · rw [hloaded] at hlt
          rw [hnew p hbelow hlt, hplan.prior, length_nil, Nat.sub_zero]
    · cases hfinal

/-- What feeding a piece leaves behind. -/
structure Fed (m : Member) (win : Reach) (start : LzState) (piece : List UInt8)
    (c c' : Compressor50) : Prop where
  feeding : Feeding m win start c'
  frame : c'.feedFrame = c.feedFrame
  loaded : c'.srcLoaded = c.srcLoaded + piece.length
  data : c.activeFilter = .none → c'.data = c.data ++ piece
  cur_le : c.cur ≤ c'.cur
  plain : piece ≠ [] → c.activeFilter = .none → c'.srcLoaded < c'.cur + streamLookahead

theorem Feeding.slideWindow : Feeding m win start c.slideWindow := by
  obtain ⟨⟨st, hblocks, hcollecting⟩, hcount⟩ := h.running
  exact { h with
    running := ⟨⟨st, hblocks, hcollecting.slideWindow⟩, hcount⟩
    input := { h.input with plan := fun hactive => ⟨rfl, { (h.input.plan hactive).2 with }⟩ } }

theorem Feeding.slideWindow_space :
    c.slideWindow.bufSize - (c.slideWindow.srcLoaded - c.slideWindow.posBase) ≠ 0 := by
  have hshort := h.short
  have hbuffer := h.buffer
  have hloaded : c.slideWindow.srcLoaded = c.srcLoaded := rfl
  have hbase : c.slideWindow.posBase = c.cur - min c.cur c.winSize := rfl
  have hsize : c.slideWindow.bufSize = c.bufSize := rfl
  omega

/-- One turn of `feed` with space: the chunk is appended and the loop runs. -/
theorem Feeding.turn (hnext : m.orig.drop (c.srcLoaded - m.prior.length) = chunk ++ rest) :
    (∀ s ∈ passStates false ((c.appended chunk).srcLoaded + (c.appended chunk).source.length + 1
        - (c.appended chunk).cur) (c.appended chunk), Running m win 0 start s) ∧
      (((c.appended chunk).processAvailable false = none ∧ Stale c) ∨
        ∃ c', (c.appended chunk).processAvailable false = some c' ∧
          Fed m win start chunk c c') := by
  obtain ⟨hrun, hinput⟩ := h.append hnext
  obtain ⟨hstates, hresult⟩ := hrun.passes_streaming hinput h.streaming
    ((c.appended chunk).srcLoaded + (c.appended chunk).source.length + 1 - (c.appended chunk).cur)
    (by omega)
  refine ⟨hstates, ?_⟩
  rcases hresult with ⟨hnone, -, hstale⟩ | ⟨c', hsome, hdrained⟩
  · exact Or.inl ⟨hnone, hstale.active, hstale.eof⟩
  · have hframe := hdrained.kept.frame
    have hfilter : c'.activeFilter = c.activeFilter := (congrArg activeFilter hframe :)
    have hbuffer : c'.bufSize = c.bufSize := (congrArg bufSize hframe :)
    have hwin : c'.winSize = c.winSize := (congrArg winSize hframe :)
    have hfeeding : Feeding m win start c' :=
      { running := hdrained.running
        input := hdrained.input
        streaming := (congrArg Compressor50.streaming hframe :).trans h.streaming
        finished := (congrArg streamFinished hframe :).trans h.finished
        external := (congrArg externalBuf hframe :).trans h.external
        pretransformed := (congrArg filterPretransformed hframe :).trans h.pretransformed
        buffer := by rw [hbuffer, hwin, h.buffer]
        short := hdrained.short
        lengths := h.lengths
        plain := fun hnone => h.plain (hfilter ▸ hnone) }
    refine Or.inr ⟨c', hsome, hfeeding, ?_, ?_, ?_, ?_, ?_⟩
    · exact (feedFrame_of_passFrame hframe).trans rfl
    · rw [hdrained.kept.loaded, appended_loaded]
    · intro hnone
      exact hdrained.kept.data hnone
    · exact hdrained.kept.cur_le
    · intro _ hnone
      exact hdrained.plain hnone

end

theorem Stale.of_frame (h : Stale c') (hframe : c'.feedFrame = c.feedFrame) : Stale c := by
  have hfilter : c'.activeFilter = c.activeFilter := (congrArg activeFilter hframe :)
  have heof : c'.srcEof = c.srcEof := (congrArg srcEof hframe :)
  exact ⟨hfilter ▸ h.active, heof ▸ h.eof⟩

theorem Fed.trans {c'' : Compressor50} {xs ys : List UInt8} (h : Fed m win start xs c c')
    (h' : Fed m win start ys c' c'') (hne : ys = [] → c'' = c') :
    Fed m win start (xs ++ ys) c c'' := by
  have hfilter : c'.activeFilter = c.activeFilter := (congrArg activeFilter h.frame :)
  refine ⟨h'.feeding, h'.frame.trans h.frame, ?_, fun hnone => ?_, h.cur_le.trans h'.cur_le, ?_⟩
  · rw [h'.loaded, h.loaded, length_append, Nat.add_assoc]
  · rw [h'.data (hfilter.trans hnone), h.data hnone, append_assoc]
  · intro hxs hnone
    by_cases hys : ys = []
    · subst hys
      rw [hne rfl]
      exact h.plain (by simpa using hxs) hnone
    · exact h'.plain hys (hfilter.trans hnone)

/-- **The loop of `feed` takes a whole piece.**  A turn that slides is followed by one
with space, and that one takes a byte at least. -/
theorem Feeding.feedLoop (h : Feeding m win start c) {left rest : List UInt8}
    (hnext : m.orig.drop (c.srcLoaded - m.prior.length) = left ++ rest) (fuel : Nat)
    (hfuel : 2 * left.length + 1 ≤ fuel ∨
      left ≠ [] ∧ 2 * left.length ≤ fuel ∧ c.bufSize - (c.srcLoaded - c.posBase) ≠ 0) :
    (∀ s ∈ feedStates fuel c left, Running m win 0 start s) ∧
      ((feedLoop fuel c left = none ∧ Stale c) ∨
        ∃ c', feedLoop fuel c left = some c' ∧ Fed m win start left c c' ∧ (left = [] → c' = c)) := by
  induction fuel generalizing c left with
  | zero =>
    rcases hfuel with hfuel | ⟨hne, hfuel, _⟩
    · omega
    · have := length_pos_iff.mpr hne
      omega
  | succ fuel ih =>
    unfold feedStates Compressor50.feedLoop
    by_cases hnil : left = []
    · subst hnil
      refine ⟨by simp, Or.inr ⟨c, rfl, ⟨h, rfl, by simp, by simp, le_rfl, by simp⟩, fun _ => rfl⟩⟩
    have hpos := length_pos_iff.mpr hnil
    simp only [if_neg hnil]
    by_cases hspace : c.bufSize - (c.srcLoaded - c.posBase) = 0
    · simp only [if_pos hspace]
      -- Sliding costs a turn, which the fuel of a state without space has.
      obtain ⟨hstates, hresult⟩ := ih h.slideWindow hnext
        (Or.inr ⟨hnil, by omega, h.slideWindow_space⟩)
      refine ⟨hstates, ?_⟩
      rcases hresult with ⟨hnone, hstale⟩ | ⟨c', hsome, hfed, hstill⟩
      · exact Or.inl ⟨hnone, hstale.active, hstale.eof⟩
      · exact Or.inr ⟨c', hsome, { hfed with frame := hfed.frame.trans rfl },
          fun habsurd => absurd habsurd hnil⟩
    · simp only [if_neg hspace]
      set n := min (c.bufSize - (c.srcLoaded - c.posBase)) left.length
      have hsplit : left.take n ++ left.drop n = left := take_append_drop n left
      have htaken : (left.take n).length = n := by
        rw [length_take]
        omega
      have hcut : m.orig.drop (c.srcLoaded - m.prior.length)
          = left.take n ++ (left.drop n ++ rest) := by
        rw [hnext, ← append_assoc, hsplit]
      obtain ⟨hturnStates, hturn⟩ := h.turn hcut
      have hsame : ({ c with
          data := c.data ++ left.take n
          srcSize := c.srcLoaded + (left.take n).length } : Compressor50)
            = c.appended (left.take n) := rfl
      rw [hsame]
      rcases hturn with ⟨hnone, hstale⟩ | ⟨c1, hsome, hfed1⟩
      · rw [hnone]
        refine ⟨?_, Or.inl ⟨rfl, hstale⟩⟩
        simpa using hturnStates
      · rw [hsome]
        obtain ⟨hstates, hresult⟩ := @ih c1 hfed1.feeding (left.drop n)
          (by
            obtain ⟨hlow, hcur, _⟩ := h.loaded_bounds
            rw [hfed1.loaded, htaken,
              show c.srcLoaded + n - m.prior.length = c.srcLoaded - m.prior.length + n by omega,
              ← drop_drop, hnext, drop_append_of_le_length (by omega)])
          (Or.inl (by rw [length_drop]; omega))
        refine ⟨?_, ?_⟩
        · intro s hs
          rcases mem_append.mp hs with hs | hs
          · exact hturnStates s hs
          · exact hstates s hs
        · simp only [Option.bind_eq_bind]
          rcases hresult with ⟨hnone, hstale⟩ | ⟨c', hsome', hfed, hstill⟩
          · exact Or.inl ⟨hnone, hstale.of_frame hfed1.frame⟩
          · refine Or.inr ⟨c', hsome', ?_, fun habsurd => absurd habsurd hnil⟩
            rw [← hsplit]
            exact hfed1.trans hfed hstill

/-! ## The start of a session -/

/-- A session that has emitted nothing.  What lies before the current position is
history, what lies behind it was fed. -/
structure Begun (win : Reach) (c : Compressor50) : Prop where
  method : 1 ≤ c.method ∧ c.method ≤ 5
  search : 2 ≤ c.minMatch ∧ 2 ≤ c.niceLen
  maxDist : c.maxDist ≤ win.dist ∧ c.maxDist ≤ 2 ^ 32
  window : 0x10000 ≤ c.winSize ∧ filterMaxChunk c.winSize < win.ring
  channels : max 32 c.filterConfig.deltaChannels ≤ win.channels
  buffer : c.bufSize = c.winSize + 0x400000 + readChunk
  flags : c.streaming = true ∧ c.streamFinished = false ∧ c.externalBuf = false
  unfiltered : c.activeFilter = .none ∧ c.filterPretransformed = false
  position : c.posBase ≤ c.cur ∧ c.cur ≤ c.srcLoaded ∧ c.filterEmittedUntil = c.cur ∧
    c.fileStartPos = c.cur
  size : c.srcSize = c.srcLoaded
  short : c.srcLoaded < c.cur + streamLookahead
  reps : c.oldDist.length = 4
  output : c.tokens = [] ∧ c.freq = initFreq ∧ c.memOut = [] ∧ c.inputSinceBlock = 0

/-- The member of a session, once its input and its filter are known. -/
def memberOf (c : Compressor50) (type : FilterType) (channels : Nat) (orig : List UInt8) :
    Member where
  prior := c.data.take c.cur
  enc := encodeChunks type channels (filterMaxChunk c.winSize) orig.length 0 orig
  orig := orig

/-- The state in which the tokens of a session start. -/
def startOf (c : Compressor50) : LzState := ⟨0, c.oldDist, c.lastLength, .plain⟩

/-- A filter was decided on. -/
def withFilter (c : Compressor50) (type : FilterType) (channels : Nat) : Compressor50 :=
  { c with activeFilter := type, filterChannels := channels }

/-- A filter that a session may decide on: none, or one at the start of the history. -/
def Choice (win : Reach) (c : Compressor50) (type : FilterType) (channels : Nat) : Prop :=
  type ≠ .none → c.cur = 0 ∧ 1 ≤ channels ∧ channels ≤ win.channels

section Session

variable {type : FilterType} {channels : Nat} {orig : List UInt8}

theorem Begun.prior_length (h : Begun win c) :
    (c.memberOf type channels orig).prior.length = c.cur := by
  have := h.position.2.1
  show (c.data.take c.cur).length = c.cur
  rw [length_take]
  unfold srcLoaded at this
  omega

theorem Begun.enc_length (h : Begun win c) :
    (c.memberOf type channels orig).enc.length = orig.length :=
  encodeChunks_length (filterMaxChunk_bounds h.window.1).1 _ _ _ le_rfl

theorem Begun.enc_plain (h : Begun win c) : (c.memberOf .none channels orig).enc = orig :=
  encodeChunks_none (filterMaxChunk_bounds h.window.1).1 _ _ _ le_rfl

theorem Begun.lzState (h : Begun win c) :
    (c.withFilter type channels).lzState (c.memberOf type channels orig) 0
      = { c.startOf with mode := (c.withFilter type channels).mode } := by
  unfold Compressor50.lzState
  rw [h.prior_length, show (c.withFilter type channels).cur = c.cur from rfl, Nat.add_zero,
    Nat.sub_self]
  rfl

variable {rest piece : List UInt8} {pieces : List (List UInt8)}

/-- **A session that decides on a filter starts with the invariant.** -/
theorem Begun.feeding (h : Begun win c) (hchoice : Choice win c type channels)
    (horig : orig = c.data.drop c.cur ++ rest) (hsize : orig.length < 2 ^ 63) :
    Feeding (c.memberOf type channels orig) win
      ((c.withFilter type channels).lzState (c.memberOf type channels orig) 0)
      (c.withFilter type channels) := by
  obtain ⟨hbase, hcur, huntil, hfile⟩ := h.position
  obtain ⟨hstreaming, hfinished, hexternal⟩ := h.flags
  have hprior : (c.memberOf type channels orig).prior.length = c.cur := h.prior_length
  have henc : (c.memberOf type channels orig).enc.length = orig.length := h.enc_length
  have hlen : orig.length = c.srcLoaded - c.cur + rest.length := by
    rw [horig, length_append, length_drop]
    rfl
  have hshort := h.short
  unfold streamLookahead at hshort
  have hsettled : (c.withFilter type channels).settled =
      if type = .none then c.srcLoaded else c.cur := by
    rw [settled_eq (c := c.withFilter type channels) hexternal h.unfiltered.2, ← huntil]
    rfl
  have hrunning : Running (c.memberOf type channels orig) win 0
      ((c.withFilter type channels).lzState (c.memberOf type channels orig) 0)
      (c.withFilter type channels) := by
    apply Running.initial
    · refine ⟨h.search.1, h.search.2, h.maxDist.1, h.maxDist.2, ?_, ?_, ?_⟩
      · rw [hsettled]
        split
        · exact le_rfl
        · exact hcur
      · rw [hprior, henc, hlen]
        show c.srcLoaded + 0 ≤ _
        omega
      · rw [hsettled]
        intro p hp
        show c.data[p]? = (c.data.take c.cur ++ (c.memberOf type channels orig).enc)[p + 0]?
        by_cases hnone : type = .none
        · subst hnone
          rw [h.enc_plain, horig, ← append_assoc, take_append_drop, Nat.add_zero,
            List.getElem?_append_left hp]
        · rw [if_neg hnone, (hchoice hnone).1] at hp
          exact absurd hp (Nat.not_lt_zero p)
    · exact h.reps
    · exact hbase
    · exact hcur
    · rw [hprior]
      exact Nat.le_add_right _ _
    · intro _
      exact huntil.ge
    · exact h.output.1
    · exact h.output.2.1
    · exact h.output.2.2.1
  refine ⟨hrunning, ⟨h.size.ge, fun hactive => ⟨rfl, ?_⟩, fun _ => h.size, fun _ hfinal => ?_⟩,
    hstreaming, hfinished, hexternal, h.unfiltered.2, h.buffer, ?_, henc, ?_⟩
  · obtain ⟨hzero, hchannels⟩ := hchoice hactive
    refine ⟨?_, h.window, hchannels, rfl, hsize, hfile.trans hzero,
      Or.inl ⟨0, (huntil.trans hzero).trans (Nat.zero_mul _).symm⟩,
      Or.inr ⟨h.unfiltered.2, hstreaming, hexternal, fun p _ hlt => ?_⟩⟩
    · show c.data.take c.cur = []
      rw [hzero, take_zero]
    · show c.data[p]? = orig[p]?
      have hinside : p < c.data.length := hlt
      rw [horig, hzero, drop_zero, List.getElem?_append_left hinside]
  · cases hfinal
  · show c.srcLoaded < c.cur + 0x100000
    omega
  · intro hnone
    have htype : type = .none := hnone
    subst htype
    exact h.enc_plain

/-! ## Pieces -/

/-- Feed the pieces of an input. -/
def feedAll : Compressor50 → List (List UInt8) → Option Compressor50
  | c, [] => some c
  | c, piece :: pieces => (c.feed piece).bind fun c => feedAll c pieces

/-- The states in which the loop starts a turn while the pieces are fed. -/
def feedAllStates : Compressor50 → List (List UInt8) → List Compressor50
  | _, [] => []
  | c, piece :: pieces =>
    feedStates (2 * piece.length + 1) (c.detectStep piece) piece ++
      match c.feed piece with
      | some c => feedAllStates c pieces
      | none => []

theorem Feeding.feed_eq (h : Feeding m win start c) (piece : List UInt8) :
    c.feed piece = Compressor50.feedLoop (2 * piece.length + 1) (c.detectStep piece) piece := by
  unfold feed
  rw [if_neg (by simp [h.streaming, h.finished])]

/-- With a filter, or behind the first token, nothing is detected any more. -/
theorem detectStep_decided (h : c.activeFilter ≠ .none ∨ c.cur ≠ 0) (piece : List UInt8) :
    c.detectStep piece = c := by
  unfold detectStep
  rw [if_neg]
  rintro ⟨hnone, _, hcur, _⟩
  rcases h with hactive | hmoved
  · exact hactive hnone
  · exact hmoved hcur

/-- How the pieces of an input are taken. -/
structure Takes (m : Member) (win : Reach) (start : LzState) (c from_ : Compressor50)
    (pieces : List (List UInt8)) : Prop where
  states : ∀ s ∈ feedAllStates c pieces, Running m win 0 start s
  result : (feedAll c pieces = none ∧ Stale from_) ∨
    ∃ c', feedAll c pieces = some c' ∧ Feeding m win start c' ∧
      c'.feedFrame = from_.feedFrame ∧ c'.srcLoaded = from_.srcLoaded + pieces.flatten.length

/-- A piece, behind whose detection the state is `from_`, and then the rest. -/
theorem Feeding.takes_cons {from_ : Compressor50} (h : Feeding m win start from_)
    (hfeed : c.feed piece = Compressor50.feedLoop (2 * piece.length + 1) from_ piece)
    (hdetect : c.detectStep piece = from_)
    (hnext : m.orig.drop (from_.srcLoaded - m.prior.length) = (piece :: pieces).flatten ++ rest)
    (hrest : ∀ c1, Fed m win start piece from_ c1 →
      m.orig.drop (c1.srcLoaded - m.prior.length) = pieces.flatten ++ rest →
      Takes m win start c1 c1 pieces) :
    Takes m win start c from_ (piece :: pieces) := by
  rw [flatten_cons, append_assoc] at hnext
  obtain ⟨hstates, hresult⟩ := h.feedLoop hnext (2 * piece.length + 1) (Or.inl le_rfl)
  rcases hresult with ⟨hnone, hstale⟩ | ⟨c1, hsome, hfed, -⟩
  · refine ⟨?_, Or.inl ⟨?_, hstale⟩⟩
    · unfold feedAllStates
      rw [hfeed, hdetect, hnone]
      simpa using hstates
    · unfold Compressor50.feedAll
      rw [hfeed, hnone, Option.bind_none]
  · obtain ⟨hlow, hcur, _⟩ := h.loaded_bounds
    have htakes := hrest c1 hfed (by
      rw [hfed.loaded, show from_.srcLoaded + piece.length - m.prior.length
        = from_.srcLoaded - m.prior.length + piece.length by omega, ← drop_drop, hnext,
        drop_append_of_le_length le_rfl, drop_length, nil_append])
    constructor
    · intro s hs
      unfold feedAllStates at hs
      rw [hfeed, hdetect, hsome] at hs
      rcases mem_append.mp hs with hs | hs
      · exact hstates s hs
      · exact htakes.states s hs
    · unfold Compressor50.feedAll
      rw [hfeed, hsome, Option.bind_some]
      rcases htakes.result with ⟨hnone, hstale⟩ | ⟨c', hsome', hfeeding, hframe, hloaded⟩
      · exact Or.inl ⟨hnone, hstale.of_frame hfed.frame⟩
      · refine Or.inr ⟨c', hsome', hfeeding, hframe.trans hfed.frame, ?_⟩
        rw [hloaded, hfed.loaded, flatten_cons, length_append, Nat.add_assoc]

/-- **A session whose filter is decided takes all its pieces.** -/
theorem Feeding.feedAll (h : Feeding m win start c) (hdecided : c.activeFilter ≠ .none ∨ c.cur ≠ 0)
    (hnext : m.orig.drop (c.srcLoaded - m.prior.length) = pieces.flatten ++ rest) :
    Takes m win start c c pieces := by
  induction pieces generalizing c with
  | nil => exact ⟨by simp [feedAllStates], Or.inr ⟨c, rfl, h, rfl, rfl⟩⟩
  | cons piece pieces ih =>
    have hdetect := detectStep_decided hdecided piece
    refine h.takes_cons (by rw [h.feed_eq, hdetect]) hdetect hnext fun c1 hfed hnext1 => ?_
    have hfilter : c1.activeFilter = c.activeFilter := (congrArg activeFilter hfed.frame :)
    have hcur := hfed.cur_le
    refine ih hfed.feeding ?_ hnext1
    rw [hfilter]
    exact hdecided.imp_right fun hmoved => by omega

section

variable (h : Begun win c)
include h

theorem Begun.detectStep (piece : List UInt8) :
    ∃ type channels, c.detectStep piece = c.withFilter type channels ∧
      Choice win c type channels := by
  unfold Compressor50.detectStep
  split
  · next hdetect =>
    refine ⟨_, _, rfl, fun _ => ⟨hdetect.2.2.1, ?_⟩⟩
    obtain ⟨hlow, hhigh⟩ := detectFilter_channels piece c.filterConfig
    exact ⟨hlow, hhigh.trans h.channels⟩
  · refine ⟨c.activeFilter, c.filterChannels, rfl, fun hactive => ?_⟩
    exact absurd h.unfiltered.1 hactive

/-- While the input is shorter than the look-ahead the loop does not start. -/
theorem Begun.pass_waits (hcur : c.cur = 0) : c.pass false = .stop c := by
  obtain ⟨hstreaming, _, hexternal⟩ := h.flags
  have hbuffer := h.buffer
  have hshort := h.short
  rw [pass_streaming hstreaming h.size]
  split
  · rfl
  · have hslide : c.slideStep = c := by
      unfold slideStep
      rw [if_neg]
      omega
    have hflush : c.flushStep = some c := by
      unfold flushStep needFlush
      rw [h.output.1, h.output.2.2.2]
      rfl
    have hfilter : c.filterStep false = .again c := if_neg fun hcond => hcond.1 h.unfiltered.1
    unfold passBody
    rw [hslide, hfilter]
    dsimp only
    unfold tokenStep
    rw [hflush]
    exact if_pos ⟨hstreaming, by simp, hshort⟩

theorem Begun.withChannels (channels : Nat) : Begun win (c.withFilter .none channels) :=
  { h with unfiltered := ⟨rfl, h.unfiltered.2⟩ }

theorem Begun.appended {piece : List UInt8}
    (hshort : c.srcLoaded + piece.length < c.cur + streamLookahead) :
    Begun win (c.appended piece) := by
  have hloaded := c.appended_loaded piece
  refine { h with
    position := ⟨h.position.1, ?_, h.position.2.2⟩, size := hloaded.symm, short := ?_ }
  · rw [hloaded]
    exact le_trans h.position.2.1 (Nat.le_add_right _ _)
  · rw [hloaded]
    exact hshort

theorem Begun.appended_nil : c.appended [] = c := by
  unfold Compressor50.appended
  rw [append_nil, length_nil, Nat.add_zero, ← h.size]

/-- A short piece is taken and nothing else happens. -/
theorem Begun.feedLoop_waits (hcur : c.cur = 0) {piece : List UInt8}
    (hshort : c.srcLoaded + piece.length < streamLookahead) :
    feedLoop (2 * piece.length + 1) c piece = some (c.appended piece) ∧
      ∀ s ∈ feedStates (2 * piece.length + 1) c piece, s = c.appended piece := by
  by_cases hnil : piece = []
  · subst hnil
    rw [h.appended_nil]
    exact ⟨rfl, by simp [feedStates]⟩
  have hpos := length_pos_iff.mpr hnil
  have hbuffer := h.buffer
  have hnext : Begun win (c.appended piece) :=
    h.appended (by rw [hcur, Nat.zero_add]; exact hshort)
  have hwaits := hnext.pass_waits (show (c.appended piece).cur = 0 from hcur)
  unfold streamLookahead at hshort
  -- One turn takes the whole piece, and the next one ends the loop.
  have hspace : c.bufSize - (c.srcLoaded - c.posBase) ≠ 0 := by omega
  have hmin : min (c.bufSize - (c.srcLoaded - c.posBase)) piece.length = piece.length := by omega
  obtain ⟨fuel, hfuel⟩ : ∃ fuel, 2 * piece.length = fuel + 1 := ⟨2 * piece.length - 1, by omega⟩
  obtain ⟨turns, hturns⟩ : ∃ turns, (c.appended piece).srcLoaded + (c.appended piece).source.length
      + 1 - (c.appended piece).cur = turns + 1 := by
    refine ⟨(c.appended piece).srcLoaded + (c.appended piece).source.length, ?_⟩
    rw [show (c.appended piece).cur = 0 from hcur]
    rfl
  have hprocess : (c.appended piece).processAvailable false = some (c.appended piece) := by
    unfold processAvailable
    rw [hturns, passes, hwaits]
  have hstates : passStates false ((c.appended piece).srcLoaded + (c.appended piece).source.length
      + 1 - (c.appended piece).cur) (c.appended piece) = [c.appended piece] := by
    rw [hturns, passStates, hwaits]
  have hsame : ({ c with
      data := c.data ++ piece
      srcSize := c.srcLoaded + piece.length } : Compressor50) = c.appended piece := rfl
  unfold feedLoop feedStates
  simp only [if_neg hnil, if_neg hspace, hmin, take_length, hsame, hprocess, hstates, hfuel]
  unfold feedLoop feedStates
  simp

/-- Nothing was emitted yet, whatever the member will be. -/
theorem Begun.emits (hcur : c.cur = 0) (hprior : m.prior = []) : Emits m win 0 c.startOf c := by
  refine ⟨[], c.mode, ?_, ?_⟩
  · rw [h.output.2.2.1]
    exact .nil
  · rw [h.output.1]
    have hstate : c.lzState m 0 = { c.startOf with mode := c.mode } := by
      unfold Compressor50.lzState
      rw [hprior, hcur]
      rfl
    rw [hstate]
    exact .nil

/-- All pieces of a session were fed, and its filter is decided. -/
structure Supplied (win : Reach) (c : Compressor50) (type : FilterType) (channels : Nat)
    (orig : List UInt8) (c' : Compressor50) : Prop where
  feeding : Feeding (c.memberOf type channels orig) win
    { c.startOf with mode := (c.withFilter type channels).mode } c'
  filter : c'.activeFilter = type ∧ c'.filterChannels = channels
  frame : (c'.withFilter .none 0).feedFrame = (c.withFilter .none 0).feedFrame
  loaded : c'.srcLoaded = c.cur + orig.length

/-- How a session takes its pieces. -/
structure Supplies (win : Reach) (c : Compressor50) (pieces : List (List UInt8))
    (type : FilterType) (channels : Nat) (orig : List UInt8) : Prop where
  states : ∀ s ∈ feedAllStates c pieces,
    Emits (c.memberOf type channels orig) win 0 c.startOf s
  result : (feedAll c pieces = none ∧ c.cur = 0 ∧ c.srcEof = true) ∨
    ∃ c', feedAll c pieces = some c' ∧ Supplied win c type channels orig c'

theorem Begun.feed_eq (piece : List UInt8) :
    c.feed piece = feedLoop (2 * piece.length + 1) (c.detectStep piece) piece := by
  unfold feed
  rw [if_neg (by simp [h.flags.1, h.flags.2.1])]

end

theorem feedFrame_withFilter (h : c'.feedFrame = c.feedFrame) :
    (c'.withFilter .none 0).feedFrame = (c.withFilter .none 0).feedFrame :=
  congrArg (fun x : Compressor50 => x.withFilter .none 0) h

theorem Begun.withFilter_self (h : Begun win c) : c.withFilter .none c.filterChannels = c := by
  unfold withFilter
  rw [← h.unfiltered.1]

/-- A session whose filter is decided with its first piece. -/
theorem Begun.supply_decided (h : Begun win c) (hchoice : Choice win c type channels)
    (horig : orig = c.data.drop c.cur ++ (piece :: pieces).flatten) (hsize : orig.length < 2 ^ 63)
    (hdetect : c.detectStep piece = c.withFilter type channels)
    (hdecided : ∀ c2, Fed (c.memberOf type channels orig) win
        { c.startOf with mode := (c.withFilter type channels).mode } piece
        (c.withFilter type channels) c2 → c2.activeFilter ≠ .none ∨ c2.cur ≠ 0) :
    Supplies win c (piece :: pieces) type channels orig := by
  have hfeeding := h.feeding hchoice horig hsize
  rw [h.lzState] at hfeeding
  have hprior : (c.memberOf type channels orig).prior.length = c.cur := h.prior_length
  have hcur := h.position.2.1
  have hnext : (c.memberOf type channels orig).orig.drop
      (c.srcLoaded - (c.memberOf type channels orig).prior.length)
        = (piece :: pieces).flatten ++ [] := by
    show orig.drop _ = _
    rw [hprior, horig, drop_append_of_le_length (by rw [length_drop]; exact le_rfl),
      drop_eq_nil_of_le (by rw [length_drop]; exact le_rfl), nil_append,
      append_nil]
  have hlen : orig.length = c.srcLoaded - c.cur + (piece :: pieces).flatten.length := by
    rw [horig, length_append, length_drop]
    rfl
  have htakes := hfeeding.takes_cons (c := c) (by rw [h.feed_eq, hdetect]) hdetect hnext
    fun c2 hfed hnext2 => hfed.feeding.feedAll (hdecided c2 hfed) hnext2
  refine ⟨fun s hs => (htakes.states s hs).emits, ?_⟩
  rcases htakes.result with ⟨hnone, hstale⟩ | ⟨c', hsome, hfeeding', hframe, hloaded⟩
  · exact Or.inl ⟨hnone, (hchoice hstale.active).1, hstale.eof⟩
  · refine Or.inr ⟨c', hsome, hfeeding', ⟨(congrArg activeFilter hframe :),
      (congrArg filterChannels hframe :)⟩, (feedFrame_withFilter hframe).trans rfl, ?_⟩
    rw [hloaded, hlen]
    show c.srcLoaded + _ = _
    omega

/-- **A session takes its pieces and decides on a filter on the way.** -/
theorem Begun.supply (h : Begun win c) (pieces : List (List UInt8))
    (hsize : c.srcLoaded + pieces.flatten.length < 2 ^ 63) :
    ∃ type channels, Supplies win c pieces type channels (c.data.drop c.cur ++ pieces.flatten) := by
  -- Induction on the pieces: while the filter is open the pieces only pile up.
  induction pieces generalizing c with
  | nil =>
    refine ⟨.none, c.filterChannels, by simp [feedAllStates], Or.inr ⟨c, rfl, ?_, ?_, rfl, ?_⟩⟩
    · have hopen : Choice win c .none c.filterChannels := fun hne => absurd rfl hne
      have hshort : (c.data.drop c.cur ++ [].flatten).length < 2 ^ 63 := by
        rw [length_append, length_drop]
        unfold srcLoaded at hsize
        omega
      have hfeeding := h.feeding hopen rfl hshort
      rw [h.lzState] at hfeeding
      rw [h.withFilter_self] at hfeeding ⊢
      exact hfeeding
    · exact ⟨h.unfiltered.1, rfl⟩
    · have := h.position.2.1
      rw [flatten_nil, append_nil, length_drop]
      unfold srcLoaded at *
      omega
  | cons piece pieces ih =>
    obtain ⟨type, channels, hdetect, hchoice⟩ := h.detectStep piece
    have hlen : (piece :: pieces).flatten.length = piece.length + pieces.flatten.length := by
      rw [flatten_cons, length_append]
    by_cases hwait : c.cur = 0 ∧ type = .none ∧ c.srcLoaded + piece.length < streamLookahead
    · obtain ⟨hcur, rfl, hshort⟩ := hwait
      have hnone := h.withChannels channels
      obtain ⟨hloop, hstates⟩ := hnone.feedLoop_waits hcur hshort
      have hbegun : Begun win ((c.withFilter .none channels).appended piece) :=
        hnone.appended (by rw [show (c.withFilter .none channels).cur = 0 from hcur, Nat.zero_add]
                           exact hshort)
      obtain ⟨type, channels', hsupplies⟩ := ih hbegun (by rw [appended_loaded]
                                                           show c.srcLoaded + _ + _ < _
                                                           omega)
      -- Before the first token the member does not depend on what was loaded.
      have horig : ((c.withFilter .none channels).appended piece).data.drop
          ((c.withFilter .none channels).appended piece).cur ++ pieces.flatten
            = c.data.drop c.cur ++ (piece :: pieces).flatten := by
        show (c.data ++ piece).drop c.cur ++ _ = _
        rw [hcur, drop_zero, drop_zero, flatten_cons, append_assoc]
      have hmember : ∀ orig, ((c.withFilter .none channels).appended piece).memberOf type channels'
          orig = c.memberOf type channels' orig := by
        intro orig
        unfold memberOf
        rw [show ((c.withFilter .none channels).appended piece).cur = 0 from hcur, hcur,
          take_zero, take_zero]
        rfl
      rw [horig] at hsupplies
      refine ⟨type, channels', ?_, ?_⟩
      · intro s hs
        unfold feedAllStates at hs
        rw [h.feed_eq, hdetect, hloop] at hs
        rcases mem_append.mp hs with hs | hs
        · rw [hstates s hs]
          refine hbegun.emits hcur ?_
          show c.data.take c.cur = []
          rw [hcur, take_zero]
        · have hemits := hsupplies.states s hs
          rwa [hmember] at hemits
      · unfold feedAll
        rw [h.feed_eq, hdetect, hloop, Option.bind_some]
        rcases hsupplies.result with hrefused | ⟨c', hsome, hfeeding, hfilter, hframe, hloaded⟩
        · exact Or.inl hrefused
        · rw [hmember] at hfeeding
          exact Or.inr ⟨c', hsome, hfeeding, hfilter, hframe.trans rfl, hloaded⟩
    · refine ⟨type, channels, h.supply_decided hchoice rfl ?_ hdetect fun c2 hfed => ?_⟩
      · rw [length_append, length_drop, hlen]
        unfold srcLoaded at hsize
        omega
      · have hfilter : c2.activeFilter = type := (congrArg activeFilter hfed.frame :)
        have hcur2 : c.cur ≤ c2.cur := hfed.cur_le
        have hloaded : c2.srcLoaded = c.srcLoaded + piece.length := hfed.loaded
        by_cases hnone : type = .none
        · right
          intro hzero
          have hcur : c.cur = 0 := by omega
          have hlong : ¬ c.srcLoaded + piece.length < streamLookahead :=
            fun hshort => hwait ⟨hcur, hnone, hshort⟩
          have hshort := h.short
          have hne : piece ≠ [] := by
            rintro rfl
            rw [length_nil] at hlong
            omega
          have := hfed.plain hne hnone
          omega
        · exact Or.inl (hfilter ▸ hnone)

/-! ## The end of a session -/

/-- The state in which `finish_stream` runs the loop. -/
def closing (c : Compressor50) : Compressor50 := { c with srcEof := true, srcSize := c.srcLoaded }

/-- The states in which the loop of `finish_stream` starts a turn. -/
def finishStates (c : Compressor50) : List Compressor50 :=
  passStates true (c.closing.srcLoaded + c.closing.source.length + 1 - c.closing.cur) c.closing

/-- A session that has ended. -/
structure Ended (m : Member) (win : Reach) (start : LzState) (c c' : Compressor50) : Prop where
  emits : Emits m win 0 start c'
  stream : ∃ mode, Stream m win start c'.memOut ⟨m.enc.length, c'.oldDist, c'.lastLength, mode⟩
  data : c'.data = m.prior ++ m.enc
  position : c'.posBase ≤ c'.cur ∧ c'.cur = c'.srcLoaded
  reps : c'.oldDist.length = 4
  output : c'.tokens = [] ∧ c'.freq = initFreq
  finished : c'.streamFinished = true
  frame : c'.feedFrame = { c.feedFrame with srcEof := true, streamFinished := true }

/-- **A session ends with all its bytes covered.** -/
theorem Feeding.finishStream (h : Feeding m win start c)
    (hall : c.srcLoaded = m.prior.length + m.orig.length) :
    (∀ s ∈ c.finishStates, Running m win 0 start s) ∧
      ∃ c', c.finishStream = some c' ∧ Ended m win start c c' := by
  have hrun : Running m win 0 start c.closing := by
    obtain ⟨⟨st, hblocks, hcollecting⟩, hcount⟩ := h.running
    exact ⟨⟨st, hblocks, { hcollecting with }⟩, hcount⟩
  have hinput : PassInput m win 0 true c.closing := by
    refine ⟨le_rfl, fun hactive => ⟨rfl, ?_⟩, fun _ => rfl, fun hactive _ => ?_⟩
    · refine { (h.input.plan hactive).2 with kind := ?_ }
      rcases (h.input.plan hactive).2.kind with ⟨hpre, _⟩ | hraw
      · rw [h.pretransformed] at hpre
        cases hpre
      · exact Or.inr hraw
    · show c.srcLoaded = m.orig.length
      rw [hall, (h.input.plan hactive).2.prior, length_nil, Nat.zero_add]
  obtain ⟨hstates, hresult⟩ := hrun.passes_streaming hinput h.streaming
    (c.closing.srcLoaded + c.closing.source.length + 1 - c.closing.cur) (by omega)
  refine ⟨hstates, ?_⟩
  rcases hresult with ⟨_, hfinal, _⟩ | ⟨c1, hsome, hdrained⟩
  · cases hfinal
  have hrun1 := hdrained.running
  have hcur1 := hdrained.done rfl
  have hloaded1 : c1.srcLoaded = c.srcLoaded := hdrained.kept.loaded
  obtain ⟨c2, hwrite, hframe, hdata, hcur, hbase, hreps, hlast, htokens, hfreq, -, hstream⟩ :=
    hrun1.finish true
  have hemits := hrun1.finish_emits hwrite
  obtain ⟨⟨st, -, hcollecting⟩, -⟩ := hrun1
  have hlengths := h.lengths
  -- At the end the last region is used up, so that all of the buffer is final.
  have hsettled : c1.settled = c1.srcLoaded := by
    unfold settled
    split
    · rfl
    · next hactive =>
      have hsettled_le := hcollecting.settled_le
      unfold settled at hsettled_le
      rw [if_neg hactive] at hsettled_le
      have := hcollecting.region fun hnone => hactive (Or.inl hnone)
      omega
  have hcontent : c1.data = m.prior ++ m.enc := by
    apply ext_getElem?
    intro p
    by_cases hp : p < c1.srcLoaded
    · exact hcollecting.bytes p (hsettled ▸ hp)
    · rw [List.getElem?_eq_none (by unfold srcLoaded at hp; omega),
        List.getElem?_eq_none (by rw [length_append]; omega)]
  have hpos : (c1.lzState m 0).pos = m.enc.length := by
    show c1.cur + 0 - m.prior.length = m.enc.length
    omega
  have hfeedFrame : c2.feedFrame = { c.feedFrame with srcEof := true } :=
    (feedFrame_of_passFrame hframe).trans
      ((feedFrame_of_passFrame hdrained.kept.frame).trans rfl)
  refine ⟨{ c2 with streamFinished := true }, ?_, hemits, ⟨c1.mode, ?_⟩, hdata.trans hcontent, ?_,
    ?_, ⟨htokens, hfreq⟩, rfl, ?_⟩
  · unfold Compressor50.finishStream
    rw [if_neg (by simp [h.streaming, h.finished])]
    show (c.closing.processAvailable true).bind _ = _
    rw [processAvailable, hsome, Option.bind_some, hwrite]
    rfl
  · have hend := hstream rfl
    rw [show c1.lzState m 0 = ⟨m.enc.length, c2.oldDist, c2.lastLength, c1.mode⟩ by
      rw [hreps, hlast, ← hpos]
      rfl] at hend
    exact hend
  · refine ⟨?_, ?_⟩
    · show c2.posBase ≤ c2.cur
      rw [hbase, hcur]
      exact hcollecting.base_le
    · show c2.cur = c2.data.length
      rw [hcur, hdata]
      exact hcur1
  · show c2.oldDist.length = 4
    rw [hreps]
    exact hcollecting.reps
  · exact congrArg (fun x : Compressor50 => { x with streamFinished := true }) hfeedFrame

end Session

end Compressor50

end OpenRar.Compress
