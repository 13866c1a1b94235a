import OpenRar.Compress.ParserSoundness

/-!
# Solid chains

Embedding of `SolidPacker` over the session of its `StreamEncoder`, and of the reader's
chain decoder.  The files of a run go through one encoder, and a chain member carries on
the window of the file before it.  There are no callbacks, and all entries declare one
window.

The packer starts afresh when it has no state, also where files are appended to a chain.
That is safe: tokens that mean a member behind some history mean it behind any longer one.
-/

namespace OpenRar.Compress

open List Decompressor50 Compressor50

/-! ## Longer histories -/

/-- The same member behind a longer history. -/
def Member.behind (pre : List UInt8) (m : Member) : Member := { m with prior := pre ++ m.prior }

/-- All that a window reaches. -/
def Reach.full (window : Nat) : Reach := ⟨window, window, 32⟩

variable {pre : List UInt8} {m : Member} {win : Reach} {st st' : LzState} {window : Nat}

section

variable (hwin : win.Within window)
include hwin

theorem Step.behind {tok : Token} (h : Step m win st tok st') :
    Step (m.behind pre) (.full window) st tok st' := by
  have hbehind : ∀ {pos distance len}, Copies m win pos distance len →
      Copies (m.behind pre) (.full window) pos distance len := by
    intro pos distance len hcopy
    have hreach := hcopy.reach
    refine { hcopy with dist_win := hcopy.dist_win.trans hwin.dist, reach := ?_, copy := ?_ }
    · rw [Member.behind, length_append]
      omega
    · rw [Member.behind, append_assoc]
      exact hcopy.copy.behind (Copies.within hcopy).2
  cases h with
  | literal hbyte hmode => exact .literal hbyte hmode
  | match_ hlenSlot hlenExtra hdistSlot hdistExtra hdistance hlen hcopy hmode =>
    exact .match_ hlenSlot hlenExtra hdistSlot hdistExtra hdistance hlen (hbehind hcopy) hmode
  | rep hindex hlenSlot hlenExtra hdistance hset hlen hcopy hmode =>
    exact .rep hindex hlenSlot hlenExtra hdistance hset hlen (hbehind hcopy) hmode
  | lastLen hlast hdistance hset hcopy hmode =>
    exact .lastLen hlast hdistance hset (hbehind hcopy) hmode
  | filter hmode hpos hring hmax hfit htype hchannels happly =>
    exact .filter hmode hpos (hring.trans_le hwin.ring) hmax hfit htype
      ⟨hchannels.1, hchannels.2.trans hwin.channels⟩ happly

/-- A stream means its member behind any longer history. -/
theorem Stream.behind {bytes : List UInt8} (h : Stream m win st bytes st') :
    Stream (m.behind pre) (.full window) st bytes st' := by
  have hbehind : ∀ {st freq tokens st'}, BlockStep m win st freq tokens st' →
      BlockStep (m.behind pre) (.full window) st freq tokens st' := by
    intro st freq tokens st' hblock
    refine { hblock with chain := ?_ }
    obtain ⟨-, hchain, -⟩ := hblock
    induction hchain with
    | nil => exact .nil
    | cons hstep _ ih => exact .cons (hstep.behind hwin) ih
  induction h with
  | last hblock hwrite => exact .last (hbehind hblock) hwrite
  | cons hblock hwrite _ ih => exact .cons (hbehind hblock) hwrite ih
  | forget _ ih => exact .forget ih

end

/-! ## The packer and the reader -/

/-- The settings of a `StreamEncoder`, as its constructor leaves them. -/
structure Settings where
  host : Host
  method : Nat
  winSize : Nat
  filterCfg : FilterConfig

/-- `SolidPacker` -/
structure SolidPacker extends Settings where
  packer : Compressor50
  hasState : Bool

namespace SolidPacker

def new (s : Settings) : SolidPacker := ⟨s, .new s.host.noBackshift s.host.noForwardArrival, false⟩

/-- `pack_begin`, `pack_feed` for each piece and `pack_end`. -/
def pack (p : SolidPacker) (chainMember : Bool) (pieces : List (List UInt8)) :
    Option (List UInt8 × SolidPacker) := do
  let c ← p.packer.beginStream p.host.links p.method p.winSize (chainMember && p.hasState)
  let c ← feedAll { c with filterConfig := p.filterCfg, memOut := [] } pieces
  let c ← c.finishStream
  some (c.memOut, { p with packer := c, hasState := true })

/-- What happens to an archive: a run opens its packer, or packs a file in pieces. -/
inductive Call
  | run (s : Settings)
  | file (chainMember : Bool) (pieces : List (List UInt8))

/-- The entries of the archive: solid flag, packed bytes and size. -/
def packAll (p : SolidPacker) : List Call → Option (List (Bool × List UInt8 × Nat))
  | [] => some []
  | .run s :: calls => packAll (new s) calls
  | .file chainMember pieces :: calls => do
    let (bytes, p) ← p.pack chainMember pieces
    let entries ← packAll p calls
    some ((chainMember, bytes, pieces.flatten.length) :: entries)

/-- `select_unpacker` and `decode_compressed` on the entries of a chain. -/
def unpackAll (window : Nat) (unpacker : Option Decompressor50) :
    List (Bool × List UInt8 × Nat) → Option (List (List UInt8))
  | [] => some []
  | (solid, bytes, size) :: entries => do
    let result ← (unpacker.getD (.new window)).decompress bytes size (solid && unpacker.isSome)
    let files ← unpackAll window (some result.decoder) entries
    some (result.chunks.flatten :: files)

def files : List Call → List (List UInt8)
  | [] => []
  | .run _ :: calls => files calls
  | .file _ pieces :: calls => pieces.flatten :: files calls

/-! ## One file -/

/-- Settings whose sessions a window decodes. -/
structure Fits (window : Nat) (s : Settings) : Prop where
  method : 1 ≤ s.method ∧ s.method ≤ 5
  winSize : 0 < s.winSize
  needed : neededWindow s.winSize ≤ window
  channels : s.filterCfg.Admissible

/-- A session before its first piece. -/
structure Opened (s : Settings) (c : Compressor50) : Prop where
  begun : Begun (reachOf s.winSize s.filterCfg) c
  loaded : c.cur = c.srcLoaded
  window : c.winSize = (normalizeWindowSize s.winSize).1
  dist : c.maxDist = (reachOf s.winSize s.filterCfg).dist
  fed : c.data = [] → c.srcEof = false

/-- A session after its end. -/
structure Closed (s : Settings) (c : Compressor50) : Prop where
  ended : ∃ c0 c1 m start, Opened s c0 ∧ Ended m (reachOf s.winSize s.filterCfg) start c1 c ∧
    (c1.withFilter .none 0).feedFrame = (c0.withFilter .none 0).feedFrame
  nonempty : c.data ≠ []

/-- Between two files: the history of the decoder ends with the one that the packer would
carry on. -/
structure Agrees (window size : Nat) (p : SolidPacker) (unpacker : Option Decompressor50) :
    Prop where
  ready : ∀ d ∈ unpacker, window ≤ d.engine.winSize ∧
    ∃ pre, (pre ++ p.packer.data).length ≤ size ∧
      Ready d (pre ++ p.packer.data) p.packer.oldDist p.packer.lastLength
  state : if p.hasState then Closed p.toSettings p.packer ∧ unpacker.isSome
    else p.packer.data = [] ∧ p.packer.oldDist = unsetDistances ∧ p.packer.lastLength = 0

/-- What the decoder needs before a session. -/
def Starts (d : Decompressor50) (solid : Bool) (prior : List UInt8) (c : Compressor50) : Prop :=
  if solid then Ready d prior c.oldDist c.lastLength
  else Usable d ∧ prior = [] ∧ c.oldDist = unsetDistances ∧ c.lastLength = 0

variable {s : Settings} {p : SolidPacker} {c : Compressor50} {d : Decompressor50} {size : Nat}
    {pieces : List (List UInt8)} {unpacker : Option Decompressor50} {solid : Bool}

/-- **One session** is packed, and decoded behind any history that ends with its own. -/
theorem Opened.pack (h : Opened s c) (hfits : Fits window s) (hwindow : window ≤ d.engine.winSize)
    (hstart : Starts d solid (pre ++ c.data) c) (hne : pieces.flatten ≠ [])
    (hlen : (pre ++ c.data).length ≤ size) (hsize : size + pieces.flatten.length < 2 ^ 63) :
    ∃ c1 c2 result, feedAll c pieces = some c1 ∧ c1.finishStream = some c2 ∧
      d.decompress c2.memOut pieces.flatten.length solid = some result ∧
      result.chunks.flatten = pieces.flatten ∧
      Agrees window (size + pieces.flatten.length) ⟨s, c2, true⟩ (some result.decoder) := by
  have hpos := length_pos_iff.mpr hne
  have hdata : c.srcLoaded ≤ size := le_trans (by simp [srcLoaded]) hlen
  obtain ⟨type, channels, hsupplies⟩ := h.begun.supply pieces (by omega)
  rw [drop_loaded h.loaded, nil_append] at hsupplies
  rcases hsupplies.result with ⟨-, hzero, heof⟩ | ⟨c1, hfeed, hsupplied⟩
  · rw [h.fed (length_eq_zero_iff.mp (h.loaded.symm.trans hzero))] at heof
    cases heof
  obtain ⟨-, c2, hfinish, hended⟩ := hsupplied.feeding.finishStream (by
    rw [hsupplied.loaded, h.begun.prior_length]
    rfl)
  set m := c.memberOf type channels pieces.flatten
  have henc : m.enc.length = pieces.flatten.length := h.begun.enc_length
  have hprior : (m.behind pre).prior = pre ++ c.data :=
    congrArg (pre ++ ·) (take_of_length_le h.loaded.ge)
  have hnext : pre ++ c2.data = (m.behind pre).prior ++ m.enc := by
    rw [hended.data, ← append_assoc]
    rfl
  obtain ⟨mode, hstream⟩ := hended.stream
  have hformed : Member.WellFormed (m.behind pre) (c.withFilter type channels).mode := by
    refine ⟨henc, henc ▸ hpos, ?_, ?_⟩
    · rw [hprior]
      show _ + m.enc.length ≤ 2 ^ 64 - 1
      omega
    · by_cases hnone : type = .none
      · subst hnone
        exact Or.inl ⟨rfl, h.begun.enc_plain⟩
      · refine Or.inr ?_
        show (if type = .none then _ else Mode.region (c.filterEmittedUntil - c.cur)) = _
        rw [if_neg hnone, h.begun.position.2.2.1, Nat.sub_self]
  obtain ⟨result, hresult, hcontent, -, hready, hwin⟩ := decompress_stream
    (hprior.symm ▸ hstart : Starts d solid (m.behind pre).prior c) hformed
    ⟨hwindow, hwindow, le_rfl⟩
    (hstream.behind (reachOf_within hfits.winSize hfits.channels hfits.needed)) rfl
  refine ⟨c1, c2, result, hfeed, hfinish, henc ▸ hresult, hcontent, ?_,
    ⟨⟨c, c1, m, _, h, hended, hsupplied.frame⟩, ?_⟩, rfl⟩
  · rintro d ⟨⟩
    refine ⟨hwin.dist, pre, ?_, hnext ▸ hready⟩
    rw [hnext, length_append, hprior]
    omega
  · rw [hended.data]
    exact append_ne_nil_of_right_ne_nil _ (length_pos_iff.mp (henc ▸ hpos))

/-- A session on a new window. -/
theorem Fits.open_new (h : Fits window s) (c0 : Compressor50) :
    ∃ c, c0.beginStream s.host.links s.method s.winSize false = some c ∧
      Opened s { c with filterConfig := s.filterCfg, memOut := [] } ∧ c.data = [] ∧
      c.oldDist = unsetDistances ∧ c.lastLength = 0 := by
  obtain ⟨hlow, hhigh⟩ := h.method
  have hwin := h.winSize.ne'
  obtain ⟨c, hbegin⟩ : ∃ c, c0.beginStream s.host.links s.method s.winSize false = some c := by
    unfold Compressor50.beginStream
    rw [if_neg (by omega)]
    exact ⟨_, rfl⟩
  obtain ⟨hbegun, hloaded⟩ := beginStream_new hbegin s.filterCfg
  have hc := hbegin
  unfold Compressor50.beginStream at hc
  rw [if_neg (by omega), if_neg hwin] at hc
  cases hc
  exact ⟨_, hbegin, ⟨hbegun, hloaded, rfl, rfl, fun _ => rfl⟩, rfl, rfl, rfl⟩

/-- A session that carries on the window of the one before. -/
theorem Closed.open_next (h : Closed s c) (hfits : Fits window s) :
    ∃ c', c.beginStream s.host.links s.method s.winSize true = some c' ∧
      Opened s { c' with filterConfig := s.filterCfg, memOut := [] } ∧ c'.data = c.data ∧
      c'.oldDist = c.oldDist ∧ c'.lastLength = c.lastLength := by
  obtain ⟨⟨c0, c1, m, start, hopened, hended, hframe⟩, hne⟩ := h
  obtain ⟨hlow, hhigh⟩ := hfits.method
  have hkept := hended.kept hframe
  have hwindow : c.winSize = (normalizeWindowSize s.winSize).1 :=
    (congrArg Compressor50.winSize hkept :).trans hopened.window
  have hdist : c.maxDist = (reachOf s.winSize s.filterCfg).dist :=
    (congrArg maxDist hkept :).trans hopened.dist
  have hstreaming : c.streaming = true :=
    (congrArg streaming hkept :).trans hopened.begun.flags.1
  have hwin := hfits.winSize.ne'
  obtain ⟨c', hbegin⟩ : ∃ c', c.beginStream s.host.links s.method s.winSize true = some c' := by
    unfold Compressor50.beginStream
    simp [hhigh, hwin, hstreaming, hended.finished, hwindow]
    omega
  obtain ⟨hbegun, hloaded, -⟩ := hended.beginStream hopened.begun hframe hbegin s.filterCfg
  have hc := hbegin
  unfold Compressor50.beginStream at hc
  rw [if_neg (by omega), if_neg hwin, if_neg (by simp [hstreaming, hended.finished, hwindow])] at hc
  cases hc
  have hreach : (⟨c.maxDist, filterMaxChunk c.winSize + 1,
      max 32 s.filterCfg.deltaChannels⟩ : Reach)
      = reachOf s.winSize s.filterCfg := by
    rw [hwindow, hdist]
    rfl
  exact ⟨_, hbegin, ⟨hreach ▸ hbegun, hloaded, hwindow, hdist, fun hnil => absurd hnil hne⟩,
    rfl, rfl, rfl⟩

/-! ## Whole archives -/

/-- A new run carries on nothing. -/
theorem Agrees.new (h : Agrees window size p unpacker) (s : Settings) :
    Agrees window size (new s) unpacker := by
  refine ⟨fun d hd => ?_, rfl, rfl, rfl⟩
  obtain ⟨hwindow, pre, hlen, hready⟩ := h.ready d hd
  refine ⟨hwindow, pre ++ p.packer.data, ?_⟩
  rw [show (SolidPacker.new s).packer.data = [] from rfl, append_nil]
  exact ⟨hlen, { hready with
    reps := ⟨rfl, hready.reps.count', fun i distance hi hset =>
      absurd (eq_of_mem_replicate (mem_of_getElem? hi)) hset⟩
    last := fun hne => absurd rfl hne }⟩

/-- The packer opens a session for which the decoder is prepared. -/
theorem Agrees.opens (h : Agrees window size p unpacker) (hfits : Fits window p.toSettings)
    (hhigh : window ≤ allocLimit) (chainMember : Bool) :
    ∃ pre c, p.packer.beginStream p.host.links p.method p.winSize (chainMember && p.hasState)
        = some c ∧ Opened p.toSettings { c with filterConfig := p.filterCfg, memOut := [] } ∧
      (pre ++ c.data).length ≤ size ∧
      Starts (unpacker.getD (.new window)) (chainMember && unpacker.isSome) (pre ++ c.data) c ∧
      window ≤ (unpacker.getD (.new window)).engine.winSize := by
  obtain ⟨husable, hnew⟩ := new_usable (le_trans (le_max_right _ _) hfits.needed) hhigh
  obtain ⟨c, hbegin, hopened, hdata, hreps, hlast⟩ := hfits.open_new p.packer
  have hstate := h.state
  cases unpacker with
  | none =>
    have hfresh : p.hasState = false := by
      by_contra hne
      simp [hne] at hstate
    rw [hfresh, Bool.and_false]
    exact ⟨[], c, hbegin, hopened, by simp [hdata], by
      simpa [Starts, hdata, hreps, hlast] using husable, hnew.ge⟩
  | some d =>
    obtain ⟨hwindow, pre, hlen, hready⟩ := h.ready d rfl
    cases chainMember with
    | false =>
      exact ⟨[], c, hbegin, hopened, by simp [hdata],
        ⟨⟨hready.allowed, hready.flavour, hready.holding.size⟩, hdata, hreps, hlast⟩, hwindow⟩
    | true =>
      cases hcarry : p.hasState with
      | false =>
        rw [hcarry] at hstate
        obtain ⟨hdata', hreps', hlast'⟩ := hstate
        rw [hdata', ← hdata, hreps', ← hreps, hlast', ← hlast] at hready
        rw [hdata', ← hdata] at hlen
        exact ⟨pre, c, hbegin, hopened, hlen, hready, hwindow⟩
      | true =>
        rw [hcarry] at hstate
        obtain ⟨c', hbegin', hopened', hdata', hreps', hlast'⟩ := hstate.1.open_next hfits
        rw [← hdata', ← hreps', ← hlast'] at hready
        rw [← hdata'] at hlen
        exact ⟨pre, c', hbegin', hopened', hlen, hready, hwindow⟩

/-- Runs whose windows the reader has, and files that are not empty. -/
def Call.Legal (window : Nat) : Call → Prop
  | run s => Fits window s
  | file _ pieces => pieces.flatten ≠ []

theorem Agrees.calls {calls : List Call} (h : Agrees window size p unpacker)
    (hfits : Fits window p.toSettings) (hhigh : window ≤ allocLimit)
    (hlegal : ∀ call ∈ calls, call.Legal window)
    (hsize : size + (files calls).flatten.length < 2 ^ 63) :
    ∃ entries, p.packAll calls = some entries ∧
      unpackAll window unpacker entries = some (files calls) := by
  induction calls generalizing p unpacker size with
  | nil => exact ⟨[], rfl, rfl⟩
  | cons call calls ih =>
    obtain ⟨hcall, hrest⟩ := forall_mem_cons.mp hlegal
    cases call with
    | run s => exact ih (h.new s) hcall hrest hsize
    | file chainMember pieces =>
      rw [files, flatten_cons, length_append] at hsize
      obtain ⟨pre, c, hbegin, hopened, hlen, hstart, hwindow⟩ := h.opens hfits hhigh chainMember
      obtain ⟨c1, c2, result, hfeed, hfinish, hresult, hcontent, hagrees⟩ :=
        hopened.pack hfits hwindow hstart hcall hlen (by omega)
      obtain ⟨entries, hentries, hfiles⟩ := ih hagrees hfits hrest (by omega)
      refine ⟨(chainMember, c2.memOut, pieces.flatten.length) :: entries, ?_, ?_⟩
      · simp [packAll, pack, hbegin, hfeed, hfinish, hentries]
      · simp only [unpackAll, hresult, hcontent, hfiles, files, Option.bind_eq_bind,
          Option.bind_some]

/-- **Solid archives round trip.**  Whatever runs build an archive, and whichever of its
files are chain members, the packer never fails, and one decoder that goes through the
entries with their solid flags gives all files back. -/
theorem unpackAll_packAll (s : Settings) (calls : List Call) (window : Nat)
    (hhigh : window ≤ 0x1000000000) (hfits : Fits window s)
    (hlegal : ∀ call ∈ calls, call.Legal window)
    (hsize : (files calls).flatten.length < 2 ^ 63) :
    ∃ entries, (new s).packAll calls = some entries ∧
      unpackAll window none entries = some (files calls) := by
  have hagrees : Agrees window 0 (new s) none := ⟨by simp, rfl, rfl, rfl⟩
  exact hagrees.calls hfits hhigh hlegal (by rwa [Nat.zero_add])

/-- A file, a chain member, and a chain member that a second run appends. -/
theorem unpackAll_packAll_appended :
    let s : Settings := ⟨⟨false, false, fun _ => 0⟩, 3, 0x400000, {}⟩
    ∃ entries, (new s).packAll [.file false [[1], [2]], .file true [[1, 2]], .run s,
      .file true [[7]]]
        = some entries ∧ unpackAll 0x400000 none entries = some [[1, 2], [1, 2], [7]] := by
  intro s
  have hfits : Fits 0x400000 s := ⟨by decide, by decide, by decide, show 0 ≤ 32 by decide⟩
  exact unpackAll_packAll s _ 0x400000 (by decide) hfits (by simpa [Call.Legal] using hfits)
    (by decide)

end SolidPacker

end OpenRar.Compress
