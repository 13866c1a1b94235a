import OpenRar.Compress.PassInvariant

/-!
# Runs of the encoder

From one pass to the whole loop.  Over a buffer that is loaded from the start the loop
ends with every byte covered; over a memory source it loads as it goes, and the
buffer always has room for the look-ahead.  In both cases `compress` succeeds and its
output is a sequence of blocks of the member.
-/

namespace OpenRar.Compress

open OpenRar.Core BlockWriter List

namespace Compressor50

variable {m : Member} {win : Reach} {shift : Nat} {start st : LzState} {c c' : Compressor50}

/-- The states in which the loop starts a turn. -/
def passStates (final : Bool) : Nat → Compressor50 → List Compressor50
  | 0, c => [c]
  | fuel + 1, c =>
    c :: match c.pass final with
      | .again c' => passStates final fuel c'
      | _ => []

/-! ## What was emitted -/

/-- The tokens of the blocks that make up an output. -/
inductive Written : List UInt8 → List Token → Prop
  | nil : Written [] []
  | block {out bytes : List UInt8} {tokens block : List Token} {freq : Frequencies}
      {lastBlock : Bool} (hprev : Written out tokens)
      (hwrite : BlockWriter.writeBlock freq block lastBlock = some bytes) :
      Written (out ++ bytes) (tokens ++ block)

/-- The tokens in the written blocks and those collected since lead from the start to the
current position.  The mode of the start is left open: a filter is decided on later. -/
def Emits (m : Member) (win : Reach) (shift : Nat) (start : LzState) (c : Compressor50) : Prop :=
  ∃ tokens mode, Written c.memOut tokens ∧
    Chain m win { start with mode := mode } (tokens ++ c.tokens) (c.lzState m shift)

theorem written_of_blocks {out : List UInt8} (h : Blocks m win start out st) :
    ∃ tokens, Written out tokens ∧ Chain m win start tokens st := by
  induction h with
  | nil => exact ⟨[], .nil, .nil⟩
  | snoc _ hblock hwrite ih =>
    obtain ⟨tokens, hwritten, hchain⟩ := ih
    exact ⟨_, hwritten.block hwrite, hchain.append hblock.chain⟩

theorem Running.emits (h : Running m win shift start c) : Emits m win shift start c := by
  obtain ⟨⟨st, hblocks, hcollecting⟩, _⟩ := h
  obtain ⟨tokens, hwritten, hchain⟩ := written_of_blocks hblocks
  exact ⟨tokens, start.mode, hwritten, hchain.append hcollecting.chain⟩

/-! ## A buffer that is loaded -/

/-- A state whose whole input is in an external buffer. -/
structure Loaded (c : Compressor50) : Prop where
  external : c.externalBuf = true
  streaming : c.streaming = false
  size : c.srcSize = c.srcLoaded

theorem Loaded.of_same (h : Loaded c) (hsame : SameSource c c') : Loaded c' := by
  have hsize : c'.srcSize = c.srcSize := (congrArg srcSize hsame.frame :)
  exact ⟨(congrArg externalBuf hsame.frame :).trans h.external,
    (congrArg Compressor50.streaming hsame.frame :).trans h.streaming,
    hsize.trans (h.size.trans hsame.loaded.symm)⟩

theorem Loaded.pass (h : Loaded c) (final : Bool) :
    c.pass final = if c.cur ≥ c.srcLoaded then .stop c else c.passBody final := by
  unfold Compressor50.pass
  rw [loadData, if_pos h.external]
  rw [if_neg (by rw [h.size]; omega)]

/-- **The loop over a loaded buffer covers all of it.** -/
theorem Running.passes_loaded (h : Running m win shift start c)
    (hinput : PassInput m win shift false c) (hloaded : Loaded c) (fuel : Nat)
    (hfuel : c.srcLoaded + 1 - c.cur ≤ fuel) :
    (∀ s ∈ passStates false fuel c, Running m win shift start s) ∧
      ∃ c', passes false fuel c = some c' ∧ Running m win shift start c' ∧
        c'.cur = c.srcLoaded := by
  -- Induction on the fuel: a pass that goes on has covered a byte.
  induction fuel generalizing c with
  | zero =>
    have := h.cur_le
    omega
  | succ fuel ih =>
    have hcur_le := h.cur_le
    unfold passes passStates
    rw [hloaded.pass]
    by_cases hend : c.cur ≥ c.srcLoaded
    · rw [if_pos hend]
      exact ⟨by simpa using h, c, rfl, h, by omega⟩
    · rw [if_neg hend]
      have hbody := h.passBody hinput (by omega)
      generalize c.passBody false = result at hbody ⊢
      cases hbody with
      | stalled _ _ _ _ hstreaming _ _ _ | refused hstreaming _ _ _ =>
        rw [hloaded.streaming] at hstreaming
        cases hstreaming
      | @covered c1 hrun hsame hinput1 hlt hle =>
        have hsize := hsame.loaded
        obtain ⟨hstates, c', hpasses, hrun', hcur⟩ :=
          ih hrun hinput1 (hloaded.of_same hsame) (by omega)
        exact ⟨forall_mem_cons.mpr ⟨h, hstates⟩, c', hpasses, hrun', hcur.trans hsize⟩

/-! ## A memory source -/

/-- A state that loads the bytes `whole` as it goes. -/
structure Loading (whole : List UInt8) (c : Compressor50) : Prop where
  external : c.externalBuf = false
  streaming : c.streaming = false
  bytes : c.data ++ c.source = whole
  size : c.srcSize = whole.length
  eof : c.srcEof = true → c.source = []
  buffer : c.bufSize = c.winSize + 0x400000 + readChunk
  ahead : c.cur + 0x80000 ≤ c.posBase + c.bufSize
  base_le : c.posBase ≤ c.cur
  cur_le : c.cur ≤ c.srcLoaded

/-- The state after `n` more bytes of the source were loaded. -/
def withLoaded (c : Compressor50) (n : Nat) : Compressor50 :=
  { c with data := c.data ++ c.source.take n, source := c.source.drop n }

theorem loadLoop_once {target fuel : Nat} (hlt : c.srcLoaded < target) (heof : c.srcEof = false)
    (hspace : target ≤ c.posBase + c.bufSize) (hbase : c.posBase ≤ c.srcLoaded)
    (hsource : target ≤ c.srcLoaded + c.source.length) :
    loadLoop target (fuel + 2) c = c.withLoaded (target - c.srcLoaded) := by
  have hread : min (min (c.bufSize - (c.srcLoaded - c.posBase)) (target - c.srcLoaded))
      c.source.length = target - c.srcLoaded := by omega
  unfold loadLoop
  rw [if_pos ⟨hlt, by simp [heof]⟩]
  dsimp only
  rw [hread, if_neg (by omega), if_neg (by omega)]
  unfold loadLoop
  rw [if_neg]
  · rfl
  intro hmore
  have hlen : (c.data ++ c.source.take (target - c.srcLoaded)).length < target := hmore.1
  rw [length_append, length_take] at hlen
  unfold srcLoaded at *
  omega

variable {whole : List UInt8}

theorem Loading.loadData (h : Loading whole c) :
    ∃ n, c.loadData (c.cur + 0x80000) = c.withLoaded n ∧
      min (c.cur + 0x80000) whole.length ≤ c.srcLoaded + n ∧ n ≤ c.source.length := by
  have hlen : c.srcLoaded + c.source.length = whole.length := by
    rw [← h.bytes, length_append]
    rfl
  have hahead := h.ahead
  have hbase := h.base_le
  have hcur := h.cur_le
  have hsize := h.size
  set target := min (c.cur + 0x80000) c.srcSize with htarget
  unfold Compressor50.loadData
  rw [if_neg (by simp [h.external]), if_neg (by simp [h.streaming])]
  dsimp only
  split
  · next hdone =>
    refine ⟨0, ?_, by omega, Nat.zero_le _⟩
    rw [withLoaded, take_zero, append_nil, drop_zero]
  · next hmore =>
    have heof : c.srcEof = false := by
      cases hflag : c.srcEof with
      | false => rfl
      | true =>
        have hnil := h.eof hflag
        rw [hnil, length_nil] at hlen
        omega
    refine ⟨target - c.srcLoaded, ?_, by omega, by omega⟩
    obtain ⟨fuel, hfuel⟩ : ∃ fuel, target - c.srcLoaded + 1 = fuel + 2 :=
      ⟨target - c.srcLoaded - 1, by omega⟩
    rw [hfuel]
    exact loadLoop_once (by omega) heof (by omega) (by omega) (by omega)

theorem Collecting.load (h : Collecting m win 0 st c) (hprior : m.prior = [])
    (hbytes : c.data ++ c.source = m.enc)
    (hfilter : c.activeFilter = .none ∨ c.filterPretransformed = true) (n : Nat) :
    Collecting m win 0 st (c.withLoaded n) := by
  have hfinal : c.activeFilter = .none ∨ c.externalBuf = true ∨ c.filterPretransformed = true :=
    hfilter.imp_right Or.inr
  have htake : c.data ++ c.source.take n = m.enc.take (c.srcLoaded + n) := by
    rw [← hbytes, take_append, take_of_length_le (l := c.data) (by unfold srcLoaded; omega),
      show c.srcLoaded + n - c.data.length = n from Nat.add_sub_cancel_left _ _]
  have hsettled : (c.withLoaded n).settled =
        (c.data ++ c.source.take n).length := if_pos hfinal
  refine { h with settled_le := hsettled.le, inside := ?_, bytes := ?_, cur_le := ?_ }
  · show (c.data ++ c.source.take n).length + 0 ≤ m.prior.length + m.enc.length
    rw [htake, length_take]
    omega
  · rw [hsettled]
    intro p hp
    show (c.data ++ c.source.take n)[p]? = (m.prior ++ m.enc)[p + 0]?
    rw [htake, length_take] at hp
    rw [htake, List.getElem?_take_of_lt (by omega), hprior]
    rfl
  · show c.cur ≤ (c.data ++ c.source.take n).length
    have := h.cur_le
    rw [length_append]
    unfold srcLoaded at this
    omega

theorem Loading.afterLoad (h : Loading whole c) (n : Nat) : Loading whole (c.withLoaded n) where
  external := h.external
  streaming := h.streaming
  bytes := by rw [← h.bytes, withLoaded, append_assoc, take_append_drop]
  size := h.size
  eof := by
    intro heof
    rw [withLoaded, h.eof heof, drop_nil]
  buffer := h.buffer
  ahead := h.ahead
  base_le := h.base_le
  cur_le := by
    show c.cur ≤ (c.data ++ c.source.take n).length
    rw [length_append]
    exact le_trans h.cur_le (Nat.le_add_right _ _)

/-- A pass leaves room for the look-ahead of the next one. -/
theorem Loading.afterPass (h : Loading whole c) (hsame : SameSource c c')
    (hlt : c.cur < c'.cur) (hle : c'.cur ≤ c.cur + (maxLzMatch + 3))
    (hinside : c'.cur ≤ c'.srcLoaded) : Loading whole c' := by
  have hframe := hsame.frame
  have hexternal : c'.externalBuf = c.externalBuf := (congrArg externalBuf hframe :)
  have hstreaming : c'.streaming = c.streaming := (congrArg Compressor50.streaming hframe :)
  have hsource : c'.source = c.source := (congrArg source hframe :)
  have hsize : c'.srcSize = c.srcSize := (congrArg srcSize hframe :)
  have heof : c'.srcEof = c.srcEof := (congrArg srcEof hframe :)
  have hbuffer : c'.bufSize = c.bufSize := (congrArg bufSize hframe :)
  have hwin : c'.winSize = c.winSize := (congrArg winSize hframe :)
  have hbase := h.base_le
  have hbuf := h.buffer
  -- The base is the old one, or the window behind the current position.
  have hposBase : c'.posBase ≤ c.cur ∧
      (c.cur + 0x100000 < c.posBase + c.bufSize ∧ c'.posBase = c.posBase ∨
        c.cur ≤ c'.posBase + c.winSize) := by
    rw [hsame.posBase]
    unfold slideStep slideWindow
    split
    · exact ⟨Nat.sub_le _ _, Or.inr (by dsimp only; omega)⟩
    · next hroom =>
      have hexternal := h.external
      simp only [hexternal, Bool.false_eq_true, not_false_eq_true, true_and] at hroom
      unfold readChunk at *
      omega
  have hmaxLz : maxLzMatch = 0x1001 := rfl
  refine ⟨hexternal.trans h.external, hstreaming.trans h.streaming, ?_, hsize.trans h.size, ?_, ?_,
    ?_, by omega, hinside⟩
  · rw [hsame.data (Or.inr h.streaming), hsource, h.bytes]
  · rw [heof, hsource]
    exact h.eof
  · rw [hbuffer, hwin]
    exact h.buffer
  · rw [hbuffer]
    omega

theorem PassInput.withLoaded (h : PassInput m win 0 false c)
    (hloading : Loading whole c) (n : Nat) : PassInput m win 0 false (c.withLoaded n) := by
  refine ⟨?_, fun hactive => ⟨rfl, ?_⟩, ?_, h.whole⟩
  · show (c.data ++ c.source.take n).length ≤ c.srcSize
    rw [hloading.size, ← hloading.bytes, length_append, length_append,
      length_take]
    omega
  · refine { (h.plan hactive).2 with kind := ?_ }
    rcases (h.plan hactive).2.kind with hkind | ⟨_, hstreaming, _, _⟩
    · exact Or.inl hkind
    · rw [hloading.streaming] at hstreaming
      cases hstreaming
  · intro hstreaming
    rw [show (c.withLoaded n).streaming = false from hloading.streaming] at hstreaming
    cases hstreaming

/-- **The loop over a memory source covers all of it.** -/
theorem Running.passes_loading (h : Running m win 0 start c) (hprior : m.prior = [])
    (hinput : PassInput m win 0 false c) (hloading : Loading m.enc c)
    (hfilter : c.activeFilter = .none ∨ c.filterPretransformed = true) (fuel : Nat)
    (hfuel : m.enc.length + 1 - c.cur ≤ fuel) :
    (∀ s ∈ passStates false fuel c, Running m win 0 start s) ∧
      ∃ c', passes false fuel c = some c' ∧ Running m win 0 start c' ∧
        c'.cur = m.enc.length := by
  induction fuel generalizing c with
  | zero =>
    have := hloading.cur_le
    have hlen := congrArg List.length hloading.bytes
    rw [length_append] at hlen
    unfold srcLoaded at this
    omega
  | succ fuel ih =>
    obtain ⟨n, hload, hn, hle⟩ := hloading.loadData
    have hloading1 := hloading.afterLoad n
    have hrun1 : Running m win 0 start (c.withLoaded n) := by
      obtain ⟨⟨st, hblocks, hcollecting⟩, hcount⟩ := h
      exact ⟨⟨st, hblocks, hcollecting.load hprior hloading.bytes hfilter n⟩, hcount⟩
    have hinput1 := hinput.withLoaded hloading n
    have hfilter1 : (c.withLoaded n).activeFilter = .none ∨
        (c.withLoaded n).filterPretransformed = true := hfilter
    have hcur1 : (c.withLoaded n).cur = c.cur := rfl
    have hloaded1 : min (c.cur + 0x80000) m.enc.length ≤ (c.withLoaded n).srcLoaded := by
      show _ ≤ (c.data ++ c.source.take n).length
      rw [length_append, length_take, Nat.min_eq_left hle]
      exact hn
    unfold passes passStates Compressor50.pass
    rw [hload]
    generalize c.withLoaded n = c1 at *
    have hlen := congrArg List.length hloading1.bytes
    rw [length_append] at hlen
    have hsize := hloading1.size
    have hcur_le := hloading1.cur_le
    have hnofail : ¬ (c1.srcEof = true ∧ c1.srcLoaded < c1.srcSize) := by
      rintro ⟨heof, hless⟩
      rw [hloading1.eof heof, length_nil] at hlen
      unfold srcLoaded at hless
      omega
    rw [if_neg hnofail]
    by_cases hend : c1.cur ≥ c1.srcLoaded
    · rw [if_pos hend]
      unfold srcLoaded at *
      exact ⟨by simpa using h, c1, rfl, hrun1, by omega⟩
    · rw [if_neg hend]
      have hbody := hrun1.passBody hinput1 (by omega)
      generalize c1.passBody false = result at hbody ⊢
      cases hbody with
      | stalled _ _ _ _ hstreaming _ _ _ | refused hstreaming _ _ _ =>
        rw [hloading1.streaming] at hstreaming
        cases hstreaming
      | @covered c2 hrun hsame hinput2 hlt hle =>
        have hactive2 : c2.activeFilter = c1.activeFilter := (congrArg activeFilter hsame.frame :)
        have hpre2 : c2.filterPretransformed = c1.filterPretransformed :=
          (congrArg filterPretransformed hsame.frame :)
        obtain ⟨hstates, hresult⟩ :=
          ih hrun hinput2 (hloading1.afterPass hsame hlt hle hrun.cur_le)
            (by rw [hactive2, hpre2]; exact hfilter1) (by omega)
        exact ⟨forall_mem_cons.mpr ⟨h, hstates⟩, hresult⟩

/-! ## Whole sessions -/

/-- The invariant at the start of a session. -/
theorem Running.initial (hgrounded : Grounded m win shift c) (hreps : c.oldDist.length = 4)
    (hbase : c.posBase ≤ c.cur) (hcur : c.cur ≤ c.srcLoaded)
    (hstart : m.prior.length ≤ c.cur + shift)
    (hregion : c.activeFilter ≠ .none → c.cur ≤ c.filterEmittedUntil)
    (htokens : c.tokens = []) (hfreq : c.freq = initFreq) (hout : c.memOut = []) :
    Running m win shift (c.lzState m shift) c := by
  refine ⟨⟨c.lzState m shift, ?_, hgrounded, hreps, hbase, hcur, hstart, hregion, ?_, ?_⟩, ?_⟩
  · rw [hout]
    exact .nil
  · rw [htokens, hfreq]
    exact initFreq_ledger
  · rw [htokens]
    exact .nil
  · rw [htokens]
    exact Nat.zero_le _

/-- The last block of a session, or of the part of a member that one worker codes. -/
theorem Running.finish (h : Running m win shift start c) (lastBlock : Bool) :
    ∃ c', { c with unhashedPos := c.cur }.writeBlock lastBlock = some c' ∧
      c'.passFrame = c.passFrame ∧ c'.data = c.data ∧ c'.cur = c.cur ∧ c'.posBase = c.posBase ∧
      c'.oldDist = c.oldDist ∧ c'.lastLength = c.lastLength ∧ c'.tokens = [] ∧
      c'.freq = initFreq ∧
      (lastBlock = false → Blocks m win start c'.memOut (c.lzState m shift)) ∧
      (lastBlock = true → Stream m win start c'.memOut (c.lzState m shift)) := by
  obtain ⟨⟨st, hblocks, hcollecting⟩, hcount⟩ := h
  have hstep := hcollecting.ledger.blockStep hcollecting.chain
  obtain ⟨bytes, hbytes⟩ := exists_writeBlock hcollecting.chain hcollecting.ledger.sized
    (Nat.le_succ_of_le hcount) lastBlock
  refine ⟨_, writeBlock_eq (c := { c with unhashedPos := c.cur }) hbytes, rfl, rfl, rfl, rfl, rfl,
    rfl, rfl, rfl, ?_, ?_⟩
  · rintro rfl
    exact .snoc hblocks hstep hbytes
  · rintro rfl
    exact hblocks.stream (.last hstep hbytes)

/-- The tokens of the last block join those written before. -/
theorem Running.finish_emits (h : Running m win shift start c) {lastBlock : Bool}
    (hwrite : { c with unhashedPos := c.cur }.writeBlock lastBlock = some c') :
    Emits m win shift start c' := by
  obtain ⟨tokens, mode, hwritten, hchain⟩ := h.emits
  obtain ⟨bytes, hbytes, hstate⟩ := Option.bind_eq_some_iff.mp hwrite
  cases hstate
  refine ⟨tokens ++ c.tokens, mode, hwritten.block hbytes, ?_⟩
  rw [append_nil]
  exact hchain

/-- What a successful `compress` gives. -/
structure Compressed (m : Member) (win : Reach) (shift : Nat) (start : LzState) (stop : Nat)
    (lastBlock : Bool) (out : List UInt8) : Prop where
  exists_state : ∃ st, st.pos = stop ∧
    (lastBlock = false → Blocks m win start out st) ∧
    (lastBlock = true → Stream m win start out st)

/-- The parameters of the search at the start of `compress`. -/
def started (c : Compressor50) : Compressor50 := { c.initMatchParams with failCount := 0 }

theorem started_params (c : Compressor50) (hmethod : 1 ≤ c.method ∧ c.method ≤ 5) :
    2 ≤ c.started.minMatch ∧ 2 ≤ c.started.niceLen := by
  obtain ⟨hlow, hhigh⟩ := hmethod
  unfold started initMatchParams
  dsimp only
  interval_cases c.method <;> decide

/-- The states in which the loop of `compress` starts a turn. -/
def compressStates (c : Compressor50) : List Compressor50 :=
  passStates false (c.started.srcLoaded + c.started.source.length + 1 - c.started.cur) c.started

/-- How `compress` runs on a member. -/
structure Compresses (m : Member) (win : Reach) (shift : Nat) (c : Compressor50) (stop : Nat)
    (lastBlock : Bool) : Prop where
  states : ∀ s ∈ c.compressStates, Emits m win shift (c.started.lzState m shift) s
  result : ∃ c', c.compress lastBlock = some c' ∧
    Emits m win shift (c.started.lzState m shift) c' ∧ c'.tokens = [] ∧
    c'.cur + shift - m.prior.length = stop ∧
    Compressed m win shift (c.started.lzState m shift) stop lastBlock c'.memOut

/-- **Compressing a loaded buffer.** -/
theorem Running.compress_loaded (h : Running m win shift (c.started.lzState m shift) c.started)
    (hinput : PassInput m win shift false c.started) (hloaded : Loaded c.started)
    (lastBlock : Bool) :
    Compresses m win shift c (c.srcLoaded + shift - m.prior.length) lastBlock := by
  obtain ⟨hstates, c1, hpasses, hrun, hcur⟩ := h.passes_loaded hinput hloaded
    (c.started.srcLoaded + c.started.source.length + 1 - c.started.cur) (by omega)
  obtain ⟨c2, hwrite, _, _, hcur2, _, _, _, htokens, _, hblocks, hstream⟩ := hrun.finish lastBlock
  have hstop : c1.cur + shift - m.prior.length = c.srcLoaded + shift - m.prior.length := by
    rw [hcur]
    rfl
  refine ⟨fun s hs => (hstates s hs).emits, c2, ?_, hrun.finish_emits hwrite, htokens, ?_,
    ⟨c1.lzState m shift, hstop, hblocks, hstream⟩⟩
  · show (c.started.processAvailable false).bind _ = some c2
    rw [processAvailable, hpasses]
    exact hwrite
  · rw [hcur2, hstop]

/-- **Compressing a memory source.** -/
theorem Running.compress_loading (h : Running m win 0 (c.started.lzState m 0) c.started)
    (hprior : m.prior = []) (hinput : PassInput m win 0 false c.started)
    (hloading : Loading m.enc c.started)
    (hfilter : c.activeFilter = .none ∨ c.filterPretransformed = true) (lastBlock : Bool) :
    Compresses m win 0 c m.enc.length lastBlock := by
  have hlen := congrArg List.length hloading.bytes
  rw [length_append] at hlen
  obtain ⟨hstates, c1, hpasses, hrun, hcur⟩ := h.passes_loading hprior hinput hloading hfilter
    (c.started.srcLoaded + c.started.source.length + 1 - c.started.cur)
    (by unfold srcLoaded; omega)
  obtain ⟨c2, hwrite, _, _, hcur2, _, _, _, htokens, _, hblocks, hstream⟩ := hrun.finish lastBlock
  have hstop : c1.cur + 0 - m.prior.length = m.enc.length := by
    rw [hcur, hprior]
    rfl
  refine ⟨fun s hs => (hstates s hs).emits, c2, ?_, hrun.finish_emits hwrite, htokens, ?_,
    ⟨c1.lzState m 0, hstop, hblocks, hstream⟩⟩
  · show (c.started.processAvailable false).bind _ = some c2
    rw [processAvailable, hpasses]
    exact hwrite
  · rw [hcur2, hstop]

end Compressor50

end OpenRar.Compress
