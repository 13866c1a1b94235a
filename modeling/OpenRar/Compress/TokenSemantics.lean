import OpenRar.Compress.FlushHistory
import OpenRar.Compress.Token

/-!
# What a token stream means

The abstract side of the codec.  A member is a byte string behind the bytes of the
earlier members; a token covers the next bytes of it, and a run of tokens is a chain
of such steps.  Nothing here knows about windows, rings or bits: a match is a copy
from earlier in the history, the repeat distances and the last length are the only
other state.

The encoder is shown to produce chains, and the decoder to follow them.
-/

namespace OpenRar.Compress

open RingHistory List

/-- A plain member, or a filtered one with the number of bytes that are missing in
its current region. -/
inductive Mode
  | plain
  | region (rem : Nat)
  deriving DecidableEq, Repr

/-- A token of a filtered member stays inside its region. -/
def Mode.advance : Mode → Nat → Option Mode
  | plain, _ => some plain
  | region rem, len => if len ≤ rem then some (region (rem - len)) else none

/-- State between tokens: bytes covered, repeat distances and last length, where
`sizeMax` and `0` stand for values that were never set, and the mode. -/
structure LzState where
  pos : Nat
  reps : List Nat
  lastLen : Nat
  mode : Mode
  deriving DecidableEq, Repr

/-- The entry the decoder makes of a filter token at `pos`. -/
def filterEntryAt (m : Member) (pos blockLength type channels : Nat) : FilterEntry where
  type := type
  channels := if type = 0 then channels else 1
  blockStart := m.prior.length + pos
  fileOffset := pos
  blockLength := blockLength

/-- What the tokens of a member ask of the window that decodes them: no copy reaches
further back than `dist`, every filter region is smaller than `ring`, and no region
names more than `channels` channels. -/
structure Reach where
  dist : Nat
  ring : Nat
  channels : Nat

/-- A window that is large enough, for filters that the decoder has. -/
structure Reach.Within (win : Reach) (winSize : Nat) : Prop where
  dist : win.dist ≤ winSize
  ring : win.ring ≤ winSize
  channels : win.channels ≤ 32

/-- The next `len` bytes are a copy from `distance` back, within reach. -/
structure Copies (m : Member) (win : Reach) (pos distance len : Nat) : Prop where
  dist_pos : 0 < distance
  dist_win : distance ≤ win.dist
  reach : distance ≤ m.prior.length + pos
  len_pos : 0 < len
  len_le : len ≤ maxLzMatch + 3
  fit : pos + len ≤ m.enc.length
  copy : IsCopy distance (m.prior ++ m.enc.take pos) ((m.enc.drop pos).take len)

/-- What one token does. -/
inductive Step (m : Member) (win : Reach) : LzState → Token → LzState → Prop
  | literal {st : LzState} {b : UInt8} {mode : Mode} (hbyte : m.enc[st.pos]? = some b)
      (hmode : st.mode.advance 1 = some mode) :
      Step m win st (.literal b) { st with pos := st.pos + 1, mode := mode }
  | match_ {st : LzState} {lenSlot lenExtra distSlot distExtra distance len : Nat} {mode : Mode}
      (hlenSlot : lenSlot < 44) (hlenExtra : lenExtra < 2 ^ lenBits lenSlot)
      (hdistSlot : distSlot < 64) (hdistExtra : distExtra < 2 ^ distBits distSlot)
      (hdistance : slotDistance distSlot distExtra = distance)
      (hlen : slotLength lenSlot lenExtra + Decompressor50.lengthBonus distance = len)
      (hcopy : Copies m win st.pos distance len) (hmode : st.mode.advance len = some mode) :
      Step m win st (.match_ lenSlot lenExtra distSlot distExtra)
        { pos := st.pos + len, reps := distance :: st.reps.take 3, lastLen := len, mode := mode }
  | rep {st : LzState} {index lenSlot lenExtra distance len : Nat} {mode : Mode}
      (hindex : index < 4) (hlenSlot : lenSlot < 44) (hlenExtra : lenExtra < 2 ^ lenBits lenSlot)
      (hdistance : st.reps[index]? = some distance) (hset : distance ≠ Core.sizeMax)
      (hlen : slotLength lenSlot lenExtra = len)
      (hcopy : Copies m win st.pos distance len) (hmode : st.mode.advance len = some mode) :
      Step m win st (.rep index lenSlot lenExtra)
        { pos := st.pos + len, reps := distance :: st.reps.eraseIdx index, lastLen := len,
          mode := mode }
  | lastLen {st : LzState} {distance : Nat} {mode : Mode} (hlast : st.lastLen ≠ 0)
      (hdistance : st.reps[0]? = some distance) (hset : distance ≠ Core.sizeMax)
      (hcopy : Copies m win st.pos distance st.lastLen)
      (hmode : st.mode.advance st.lastLen = some mode) :
      Step m win st .lastLen { st with pos := st.pos + st.lastLen, mode := mode }
  | filter {st : LzState} {blockLength type channels : Nat} (hmode : st.mode = .region 0)
      (hpos : 0 < blockLength) (hwin : blockLength < win.ring)
      (hmax : blockLength ≤ 0x400000)
      (hfit : st.pos + blockLength ≤ m.enc.length) (htype : type < 8)
      (hchannels : 1 ≤ channels ∧ channels ≤ win.channels)
      (happly : channels ≤ 32 → (filterEntryAt m st.pos blockLength type channels).apply
          ((m.enc.drop st.pos).take blockLength) = (m.orig.drop st.pos).take blockLength) :
      Step m win st (.filter 0 blockLength type channels)
        { st with mode := .region blockLength }

/-- What a run of tokens does. -/
inductive Chain (m : Member) (win : Reach) : LzState → List Token → LzState → Prop
  | nil {st : LzState} : Chain m win st [] st
  | cons {st st' st'' : LzState} {tok : Token} {toks : List Token} (hstep : Step m win st tok st')
      (hrest : Chain m win st' toks st'') : Chain m win st (tok :: toks) st''

variable {m : Member} {win : Reach}

variable {st st' st'' : LzState} {tok : Token}

theorem Chain.append {xs ys : List Token} (hxs : Chain m win st xs st')
    (hys : Chain m win st' ys st'') : Chain m win st (xs ++ ys) st'' := by
  induction hxs with
  | nil => exact hys
  | cons hstep _ ih => exact .cons hstep (ih hys)

theorem Chain.snoc {toks : List Token}
    (htoks : Chain m win st toks st') (hstep : Step m win st' tok st'') :
    Chain m win st (toks ++ [tok]) st'' :=
  htoks.append (.cons hstep .nil)

/-- A chain stays inside its member. -/
theorem Step.pos_lt (h : Step m win st tok st') : st.pos < m.enc.length := by
  cases h with
  | literal hbyte _ => exact (List.getElem?_eq_some_iff.mp hbyte).1
  | match_ _ _ _ _ _ _ hcopy _ =>
    have := hcopy.fit
    have := hcopy.len_pos
    omega
  | rep _ _ _ _ _ _ hcopy _ =>
    have := hcopy.fit
    have := hcopy.len_pos
    omega
  | lastLen _ _ _ hcopy _ =>
    have := hcopy.fit
    omega
  | filter _ hpos _ _ hfit _ _ _ => omega

/-! ## The engine in a mode -/

namespace ApplyEngine

/-- The engine between tokens, by mode. -/
def InMode (engine : ApplyEngine) (m : Member) (pos : Nat) : Mode → Prop
  | .plain => PlainMode engine m pos
  | .region 0 => RegionStart engine m pos
  | .region (rem + 1) => RegionMode engine m pos (rem + 1)

variable {engine : ApplyEngine} {pos : Nat} {mode mode' : Mode}

theorem InMode.inMember {m : Member} (h : InMode engine m pos mode) : InMember engine m pos := by
  match mode, h with
  | .plain, h => exact h.toInMember
  | .region 0, h => exact h.toInMember
  | .region (_ + 1), h => exact h.toInMember

/-- **After a token has been written the flush check succeeds.** -/
theorem InMode.cadence {engine' : ApplyEngine} {m : Member} {len : Nat}
    (h : InMode engine m pos mode) (hmode : mode.advance len = some mode')
    (hpos : 0 < len) (hlen : len ≤ maxLzMatch + 3) (hfit : pos + len ≤ m.enc.length)
    (hsame : SameQueue engine engine')
    (hholding : Holding engine' (m.prior ++ m.enc.take (pos + len))) :
    ∃ engine'', engine'.cadence m.prior.length (pos + len) m.enc.length = some engine'' ∧
      InMode engine'' m (pos + len) mode' ∧ engine''.winSize = engine.winSize := by
  have hin := h.inMember.extend hsame hholding hfit
  have hsize := h.inMember.holding.size
  unfold maxLzMatch at hlen
  match mode, h with
  | .plain, h =>
    cases hmode
    have hlag := h.lag
    unfold flushCadence at hlag
    obtain ⟨engine'', hrun, hplain, hwin⟩ := plain_cadence hin h.plain
      (hsame.filters.trans h.filters) (by rw [hsame.winSize, hsame.lastFlushed]; omega) hfit
      m.prior.length
    exact ⟨engine'', hrun, hplain, hwin.trans hsame.winSize⟩
  | .region 0, h =>
    rw [Mode.advance, if_neg (by omega)] at hmode
    cases hmode
  | .region (rem + 1), h =>
    rw [Mode.advance] at hmode
    split at hmode
    · cases hmode
      obtain ⟨f, hfilters, hfpos, hstart, hend, hfwin, hffit, happly⟩ := h.region
      have hregion : RegionMode engine' m (pos + len) (rem + 1 - len) := by
        refine ⟨hin, f, hsame.filters.trans hfilters, hfpos, ?_, ?_, ?_, ?_, ?_⟩
        · rw [hsame.lastFlushed, hstart]
        · omega
        · rw [hsame.winSize]
          exact hfwin
        · omega
        · rw [hsame.lastFlushed]
          exact happly
      rcases Nat.eq_zero_or_pos (rem + 1 - len) with hzero | hrem
      · rw [hzero] at hregion ⊢
        obtain ⟨engine'', hrun, hdone, hwin⟩ := region_done hregion hfit
        exact ⟨engine'', hrun, hdone, hwin.trans hsame.winSize⟩
      · obtain ⟨engine'', hrun, hwait, hwin⟩ := region_wait hregion hrem hfit
        obtain ⟨r, hr⟩ : ∃ r, rem + 1 - len = r + 1 := ⟨rem - len, by omega⟩
        rw [hr] at hwait ⊢
        exact ⟨engine'', hrun, hwait, hwin.trans hsame.winSize⟩
    · cases hmode

theorem InMode.literal {m : Member} {b : UInt8} (h : InMode engine m pos mode)
    (hmode : mode.advance 1 = some mode')
    (hbyte : m.enc[pos]? = some b) :
    ∃ engine', (engine.writeLiteral b.toNat).cadence m.prior.length (pos + 1) m.enc.length
        = some engine' ∧
      InMode engine' m (pos + 1) mode' ∧ engine'.winSize = engine.winSize := by
  have hlt : pos < m.enc.length := (List.getElem?_eq_some_iff.mp hbyte).1
  have htake : m.enc.take (pos + 1) = m.enc.take pos ++ [b] := by
    rw [take_add_one, hbyte]
    rfl
  have hwrite := h.inMember.holding.writeLiteral b.toNat
  rw [UInt8.ofNat_toNat, append_assoc, ← htake] at hwrite
  exact h.cadence hmode (by decide) (by decide) (by omega) (sameQueue_advance engine _ 1) hwrite

/-- A token that copies. -/
theorem InMode.copy {m : Member} {win : Reach} {distance len : Nat} (h : InMode engine m pos mode)
    (hmode : mode.advance len = some mode')
    (hcopy : Copies m win pos distance len) (hwin : win.dist ≤ engine.winSize) :
    ∃ engine', (engine.copyMatch distance len).cadence m.prior.length (pos + len) m.enc.length
        = some engine' ∧
      InMode engine' m (pos + len) mode' ∧ engine'.winSize = engine.winSize := by
  have hsize := h.inMember.holding.size
  have hreach := hcopy.reach
  have hdist := hcopy.dist_win
  have hlen := hcopy.len_le
  have hfit := hcopy.fit
  have hbytes : ((m.enc.drop pos).take len).length = len := by
    rw [length_take, length_drop]
    omega
  have htake : m.enc.take (pos + len) = m.enc.take pos ++ (m.enc.drop pos).take len := take_add
  have hhist : (m.prior ++ m.enc.take pos).length = m.prior.length + pos := by
    rw [length_append, length_take]
    omega
  unfold maxLzMatch at hlen
  have hwrite := h.inMember.holding.copyMatch hcopy.copy hcopy.dist_pos (by omega) (by omega)
    (by rw [hbytes]; exact hcopy.len_pos) (by omega)
  rw [hbytes, append_assoc, ← htake] at hwrite
  exact h.cadence hmode hcopy.len_pos hcopy.len_le hfit (sameQueue_copyMatch engine _ _) hwrite

theorem InMode.openRegion {m : Member} {f : FilterEntry}
    (h : InMode engine m pos (.region 0)) (hpos : 0 < f.blockLength)
    (hwin : f.blockLength < engine.winSize) (hstart : f.blockStart = m.prior.length + pos)
    (hfit : pos + f.blockLength ≤ m.enc.length)
    (happly : f.apply ((m.enc.drop pos).take f.blockLength)
      = (m.orig.drop pos).take f.blockLength) :
    InMode { engine with filters := engine.filters ++ [f] } m pos (.region f.blockLength) := by
  have hstartMode : RegionStart engine m pos := h
  have hflushed := hstartMode.flushed
  obtain ⟨r, hr⟩ := Nat.exists_eq_succ_of_ne_zero hpos.ne'
  rw [hr]
  refine ⟨⟨hstartMode.holding.requeue _, hstartMode.total_le, hstartMode.flushed_le,
    hstartMode.emitted, hstartMode.lengths⟩, f, ?_, hpos, ?_, ?_, hwin, ?_, ?_⟩
  · rw [hstartMode.filters]
    rfl
  · rw [hstart, hflushed]
  · omega
  · omega
  · rw [hflushed]
    exact happly

end ApplyEngine

end OpenRar.Compress
