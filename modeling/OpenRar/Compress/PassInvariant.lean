import OpenRar.Compress.FilterChunks
import OpenRar.Compress.SearchInvariant

/-!
# A pass of the encoder

One pass of the main loop slides the buffer, opens a filter region, flushes a full
block and emits one token.  Each of these steps keeps the invariant of the encoder,
and none of them fails.  What a pass needs from its input is stated once: the filter
plan of a filtered member, and the size that the encoder believes its input to have.
-/

namespace OpenRar.Compress

open OpenRar.Core BlockWriter List

namespace Compressor50

variable {m : Member} {win : Reach} {shift : Nat} {start st : LzState} {c c' : Compressor50}

/-! ## What tokens and flushes leave alone -/

/-- The part of the state that neither tokens nor flushes change. -/
def inputFrame (c : Compressor50) : Compressor50 :=
  { c.frame with
    prices := .init
    memOut := [] }

theorem inputFrame_of_frame (h : c'.frame = c.frame) : c'.inputFrame = c.inputFrame :=
  congrArg (fun x : Compressor50 => { x with prices := .init, memOut := [] }) h

/-- The invariant between passes: blocks that were written, then the collected
tokens. -/
structure Running (m : Member) (win : Reach) (shift : Nat) (start : LzState) (c : Compressor50) :
    Prop where
  run : ∃ st, Blocks m win start c.memOut st ∧ Collecting m win shift st c
  count : c.tokens.length ≤ 32768

theorem Running.cur_le (h : Running m win shift start c) : c.cur ≤ c.srcLoaded := by
  obtain ⟨_, _, hcollecting⟩ := h.run
  exact hcollecting.cur_le

/-! ## Flushing -/

/-- The state after a block was written. -/
def flushed (c : Compressor50) (bytes : List UInt8) : Compressor50 :=
  { c with
    memOut := c.memOut ++ bytes
    prices := c.prices.update (makeTables c.freq)
    tokens := []
    inputSinceBlock := 0
    freq := initFreq }

theorem writeBlock_eq {lastBlock : Bool} {bytes : List UInt8}
    (h : BlockWriter.writeBlock c.freq c.tokens lastBlock = some bytes) :
    c.writeBlock lastBlock = some (c.flushed bytes) := by
  rw [Compressor50.writeBlock, h]
  rfl

section

variable (h : Collecting m win shift st c) (hblocks : Blocks m win start c.memOut st)
    (hcount : c.tokens.length ≤ 32769)
include h hblocks hcount

theorem Collecting.writeBlock :
    ∃ c', c.writeBlock false = some c' ∧ c'.inputFrame = c.inputFrame ∧ c'.cur = c.cur ∧
      c'.tokens = [] ∧
      ∃ st', Blocks m win start c'.memOut st' ∧ Collecting m win shift st' c' := by
  obtain ⟨bytes, hbytes⟩ := exists_writeBlock h.chain h.ledger.sized hcount false
  refine ⟨c.flushed bytes, writeBlock_eq hbytes, rfl, rfl, rfl, c.lzState m shift,
    .snoc hblocks (h.ledger.blockStep h.chain) hbytes, ?_⟩
  exact { h with ledger := initFreq_ledger, chain := .nil }

theorem Collecting.flushStep :
    ∃ c', c.flushStep = some c' ∧ c'.inputFrame = c.inputFrame ∧ c'.cur = c.cur ∧
      c'.tokens.length < 32768 ∧
      ∃ st', Blocks m win start c'.memOut st' ∧ Collecting m win shift st' c' := by
  unfold Compressor50.flushStep
  split
  · have hsame : SameTokens c { c with unhashedPos := c.cur } := ⟨rfl, rfl, rfl, rfl, rfl, rfl⟩
    obtain ⟨c', hwrite, hframe, hcur, htokens, hrun⟩ :=
      (h.of_same hsame).writeBlock hblocks hcount
    refine ⟨c', hwrite, hframe, hcur, ?_, hrun⟩
    rw [htokens]
    decide
  · next hflush =>
    refine ⟨c, rfl, rfl, rfl, ?_, st, hblocks, h⟩
    unfold needFlush at hflush
    simp only [Bool.or_eq_true, decide_eq_true_eq] at hflush
    omega

end

/-! ## Sliding -/

theorem slideStep_eq (c : Compressor50) :
    c.slideStep = { c with posBase := c.slideStep.posBase } := by
  unfold slideStep slideWindow
  split <;> rfl

theorem Collecting.slideWindow (h : Collecting m win shift st c) :
    Collecting m win shift st c.slideWindow :=
  { h with base_le := Nat.sub_le _ _ }

theorem Collecting.slideStep (h : Collecting m win shift st c) :
    Collecting m win shift st c.slideStep := by
  unfold Compressor50.slideStep
  split
  · exact h.slideWindow
  · exact h

/-! ## Opening a filter region -/

theorem filterMaxChunk_bounds {winSize : Nat} (h : 0x10000 ≤ winSize) :
    0 < filterMaxChunk winSize ∧ filterMaxChunk winSize < winSize ∧
      filterMaxChunk winSize ≤ 0x100000 := by
  unfold filterMaxChunk
  split_ifs <;> omega

/-- What the encoder knows about a filtered member.  Either the buffer was transformed
before, or the chunks are transformed as they arrive. -/
structure FilterPlan (m : Member) (win : Reach) (c : Compressor50) : Prop where
  prior : m.prior = []
  window : 0x10000 ≤ c.winSize ∧ filterMaxChunk c.winSize < win.ring
  channels : 1 ≤ c.filterChannels ∧ c.filterChannels ≤ win.channels
  enc : m.enc = encodeChunks c.activeFilter c.filterChannels (filterMaxChunk c.winSize)
    m.orig.length 0 m.orig
  size : m.orig.length < 2 ^ 63
  fileStart : c.fileStartPos = 0
  aligned : (∃ k, c.filterEmittedUntil = k * filterMaxChunk c.winSize) ∨
    c.filterEmittedUntil = m.orig.length
  kind : (c.filterPretransformed = true ∧ c.streaming = false ∧ c.srcSize = m.orig.length) ∨
    (c.filterPretransformed = false ∧ c.streaming = true ∧ c.externalBuf = false ∧
      ∀ p, c.filterEmittedUntil ≤ p → p < c.srcLoaded → c.data[p]? = m.orig[p]?)

/-- The part of the state that opening a region leaves alone. -/
def regionFrame (c : Compressor50) : Compressor50 :=
  { c.inputFrame with
    data := []
    filterEmittedUntil := 0 }

theorem FilterPlan.enc_length (h : FilterPlan m win c) : m.enc.length = m.orig.length := by
  rw [h.enc, encodeChunks_length (filterMaxChunk_bounds h.window.1).1 _ _ _ (Nat.le_refl _)]

variable {k len : Nat} {final : Bool}

theorem FilterPlan.region (h : FilterPlan m win c)
    (hk : k * filterMaxChunk c.winSize < m.orig.length) :
    (m.enc.drop (k * filterMaxChunk c.winSize)).take (filterMaxChunk c.winSize) =
      encodeChunk c.activeFilter c.filterChannels (k * filterMaxChunk c.winSize)
        ((m.orig.drop (k * filterMaxChunk c.winSize)).take (filterMaxChunk c.winSize)) := by
  rw [h.enc]
  exact encodeChunks_region (filterMaxChunk_bounds h.window.1).1 hk

variable {α : Type*} {c1 : Compressor50}

theorem take_min_length (xs : List α) (n k : Nat) (hk : xs.length ≤ k ∨ n ≤ k) :
    xs.take (min k n) = xs.take n := by
  by_cases hn : n ≤ k
  · rw [Nat.min_eq_right hn]
  · rw [Nat.min_eq_left (by omega), take_of_length_le (by omega),
      take_of_length_le (by omega)]

/-- The token of the next region is a step of the member. -/
theorem FilterPlan.step (hplan : FilterPlan m win c) (hactive : c.activeFilter ≠ .none)
    (hcur : c.filterEmittedUntil = c.cur) (hk : c.cur = k * filterMaxChunk c.winSize)
    (hlt : c.cur < m.orig.length) :
    Step m win (c.lzState m 0)
      (.filter 0 (min (m.orig.length - c.cur) (filterMaxChunk c.winSize)) c.activeFilter.code
        c.filterChannels)
      { c.lzState m 0 with
        mode := .region (min (m.orig.length - c.cur) (filterMaxChunk c.winSize)) } := by
  obtain ⟨hpos, hless, hmax⟩ := filterMaxChunk_bounds hplan.window.1
  have hwin := hplan.window.2
  have hlen := hplan.enc_length
  have hstate : (c.lzState m 0).pos = c.cur := by
    rw [lzState, hplan.prior]
    rfl
  have hregion := hplan.region (k := k) (by omega)
  rw [← hk] at hregion
  have htake : ∀ xs : List UInt8, xs.length = m.orig.length →
      (xs.drop c.cur).take (min (m.orig.length - c.cur) (filterMaxChunk c.winSize)) =
        (xs.drop c.cur).take (filterMaxChunk c.winSize) := by
    intro xs hxs
    exact take_min_length _ _ _ (Or.inl (by rw [length_drop]; omega))
  apply Step.filter
  · show c.mode = .region 0
    rw [mode, if_neg hactive, hcur, Nat.sub_self]
  · omega
  · omega
  · omega
  · rw [hstate]
    omega
  · cases hfilter : c.activeFilter with
    | none => exact absurd hfilter hactive
    | delta => decide
    | e8 => decide
    | e8e9 => decide
    | arm => decide
  · exact hplan.channels
  · intro hlimit
    rw [hstate, htake _ hlen, htake _ rfl, hregion]
    apply apply_encodeChunk hactive ⟨hplan.channels.1, hlimit⟩
    intro hnil
    have := congrArg List.length hnil
    rw [length_take, length_drop, length_nil] at this
    omega

/-- Emitting the filter token keeps the invariant, once the region is final in the
buffer. -/
theorem Collecting.openRegion (h : Collecting m win 0 st c) (hactive : c.activeFilter ≠ .none)
    (hcur : c.filterEmittedUntil = c.cur)
    (hstep : Step m win (c.lzState m 0)
      (.filter 0 len c.activeFilter.code c.filterChannels)
      { c.lzState m 0 with mode := .region len })
    (hsettled : (c.openRegion len).settled ≤ c.srcLoaded)
    (hbytes : ∀ p < (c.openRegion len).settled, c.data[p]? = (m.prior ++ m.enc)[p + 0]?) :
    Collecting m win 0 st (c.openRegion len) := by
  refine { h with
    settled_le := hsettled
    bytes := hbytes
    region := ?_
    ledger := addFilter_ledger h.ledger _ _ _
    chain := ?_ }
  · intro _
    show c.cur ≤ c.filterEmittedUntil + len
    omega
  · have hstate : (c.openRegion len).lzState m 0 =
        { c.lzState m 0 with mode := .region len } := by
      show LzState.mk _ _ _ (Compressor50.mode _) = _
      rw [Compressor50.mode, if_neg (show ¬ (c.openRegion len).activeFilter = .none from hactive)]
      show LzState.mk _ _ _ (.region (c.filterEmittedUntil + len - c.cur)) = _
      rw [hcur, Nat.add_sub_cancel_left]
      rfl
    rw [hstate]
    exact h.chain.snoc hstep

theorem getElem?_patch {xs ys : List α} {e : Nat} (hfit : e + ys.length ≤ xs.length) (p : Nat) :
    (xs.take e ++ ys ++ xs.drop (e + ys.length))[p]? =
      if p < e then xs[p]? else if p < e + ys.length then ys[p - e]? else xs[p]? := by
  have htake : (xs.take e).length = e := by
    rw [length_take]
    omega
  split_ifs with hbefore hinside
  · rw [append_assoc, List.getElem?_append_left (by omega), List.getElem?_take_of_lt hbefore]
  · rw [append_assoc, List.getElem?_append_right (by omega), htake,
      List.getElem?_append_left (by omega)]
  · rw [List.getElem?_append_right (by rw [length_append]; omega), length_append, htake,
      List.getElem?_drop]
    congr 1
    omega

theorem transformChunk_length (h : c.filterEmittedUntil + len ≤ c.srcLoaded) :
    (c.transformChunk len).srcLoaded = c.srcLoaded := by
  unfold srcLoaded at *
  simp only [transformChunk, length_append, encodeChunk_length, length_take,
    length_drop]
  omega

theorem transformChunk_data (h : c.filterEmittedUntil + len ≤ c.srcLoaded) (p : Nat) :
    (c.transformChunk len).data[p]? =
      if p < c.filterEmittedUntil then c.data[p]?
      else if p < c.filterEmittedUntil + len then
        (encodeChunk c.activeFilter c.filterChannels (c.filterEmittedUntil - c.fileStartPos)
          ((c.data.drop c.filterEmittedUntil).take len))[p - c.filterEmittedUntil]?
      else c.data[p]? := by
  have hlen : (encodeChunk c.activeFilter c.filterChannels (c.filterEmittedUntil - c.fileStartPos)
      ((c.data.drop c.filterEmittedUntil).take len)).length = len := by
    rw [encodeChunk_length, length_take, length_drop]
    unfold srcLoaded at h
    omega
  have hfit : c.filterEmittedUntil + (encodeChunk c.activeFilter c.filterChannels
      (c.filterEmittedUntil - c.fileStartPos)
      ((c.data.drop c.filterEmittedUntil).take len)).length ≤ c.data.length := by
    rw [hlen]
    exact h
  have hpatch := getElem?_patch hfit p
  rw [hlen] at hpatch
  exact hpatch

theorem raw_chunk {orig : List UInt8}
    (hraw : ∀ p, c.filterEmittedUntil ≤ p → p < c.srcLoaded → c.data[p]? = orig[p]?)
    (hfit : c.filterEmittedUntil + len ≤ c.srcLoaded) :
    (c.data.drop c.filterEmittedUntil).take len = (orig.drop c.filterEmittedUntil).take len := by
  apply ext_getElem?
  intro i
  by_cases hi : i < len
  · rw [List.getElem?_take_of_lt hi, List.getElem?_take_of_lt hi, List.getElem?_drop,
      List.getElem?_drop]
    exact hraw _ (by omega) (by omega)
  · rw [List.getElem?_eq_none (by rw [length_take]; omega),
      List.getElem?_eq_none (by rw [length_take]; omega)]

/-- What opening a region may change. -/
structure Opened (m : Member) (win : Reach) (st : LzState) (c c' : Compressor50) : Prop where
  collecting : Collecting m win 0 st c'
  plan : FilterPlan m win c'
  room : Room c' 1
  frame : c'.regionFrame = c.regionFrame
  cur : c'.cur = c.cur
  memOut : c'.memOut = c.memOut
  loaded : c'.srcLoaded = c.srcLoaded
  count : c'.tokens.length = c.tokens.length + 1

/-- The boundary behind a region is the next chunk boundary or the end. -/
theorem aligned_next {total chunk : Nat} (hk : k * chunk < total) :
    (∃ j, k * chunk + min (total - k * chunk) chunk = j * chunk) ∨
      k * chunk + min (total - k * chunk) chunk = total := by
  by_cases hlast : total - k * chunk ≤ chunk
  · right
    omega
  · left
    exact ⟨k + 1, by rw [Nat.succ_mul]; omega⟩

section

variable (h : Collecting m win 0 st c) (hplan : FilterPlan m win c)
    (hactive : c.activeFilter ≠ .none)
include h hplan hactive

/-- A region of a buffer that was transformed before. -/
theorem Collecting.open_pretransformed (hpre : c.filterPretransformed = true)
    (hsize : c.srcSize = m.orig.length) (hstreaming : c.streaming = false)
    (hcur : c.filterEmittedUntil = c.cur) (hk : c.cur = k * filterMaxChunk c.winSize)
    (hlt : c.cur < c.srcLoaded) (hend : c.cur < m.orig.length) :
    Opened m win st c
      (c.openRegion (min (m.orig.length - c.cur) (filterMaxChunk c.winSize))) := by
  obtain ⟨hpos, _, _⟩ := filterMaxChunk_bounds hplan.window.1
  have hstep := hplan.step hactive hcur hk hend
  have hsettled : ∀ len, (c.openRegion len).settled = c.srcLoaded := fun len =>
    if_pos (Or.inr (Or.inr hpre))
  have hsettledc : c.settled = c.srcLoaded := if_pos (Or.inr (Or.inr hpre))
  refine ⟨h.openRegion hactive hcur hstep (hsettled _).le ?_, ?_, ?_, rfl, rfl, rfl, rfl, ?_⟩
  · intro p hp
    rw [hsettled, ← hsettledc] at hp
    exact h.bytes p hp
  · refine { hplan with aligned := ?_, kind := Or.inl ⟨hpre, hstreaming, hsize⟩ }
    show (∃ j, c.filterEmittedUntil + _ = j * filterMaxChunk c.winSize) ∨
      c.filterEmittedUntil + _ = m.orig.length
    rw [hcur, hk]
    exact aligned_next (by omega)
  · refine ⟨hlt, fun _ => ?_⟩
    show c.cur + 1 ≤ c.filterEmittedUntil + _
    omega
  · exact length_append

/-- A region that is transformed in the buffer. -/
theorem Collecting.open_arriving (hpre : c.filterPretransformed = false)
    (hstreaming : c.streaming = true) (hexternal : c.externalBuf = false)
    (hraw : ∀ p, c.filterEmittedUntil ≤ p → p < c.srcLoaded → c.data[p]? = m.orig[p]?)
    (hcur : c.filterEmittedUntil = c.cur) (hk : c.cur = k * filterMaxChunk c.winSize)
    (hlt : c.cur < c.srcLoaded) (hend : c.cur < m.orig.length)
    (hlen : len = min (m.orig.length - c.cur) (filterMaxChunk c.winSize))
    (hfit : c.filterEmittedUntil + len ≤ c.srcLoaded) :
    Opened m win st c ((c.transformChunk len).openRegion len) := by
  obtain ⟨hpos, _, _⟩ := filterMaxChunk_bounds hplan.window.1
  have hstep := hplan.step hactive hcur hk hend
  rw [← hlen] at hstep
  have hencLen := hplan.enc_length
  have hloaded := transformChunk_length hfit
  have harriving : ¬ (c.activeFilter = .none ∨ c.externalBuf = true ∨
      c.filterPretransformed = true) := by
    simp [hactive, hexternal, hpre]
  have hsettledc : c.settled = c.filterEmittedUntil := if_neg harriving
  have hsettled : (c.transformChunk len).settled = c.filterEmittedUntil := if_neg harriving
  have hopened : ((c.transformChunk len).openRegion len).settled = c.filterEmittedUntil + len :=
    if_neg harriving
  -- The transformed chunk is the region of the member.
  have hchunk : encodeChunk c.activeFilter c.filterChannels
      (c.filterEmittedUntil - c.fileStartPos) ((c.data.drop c.filterEmittedUntil).take len) =
        (m.enc.drop c.cur).take len := by
    have hregion := hplan.region (k := k) (by omega)
    rw [← hk] at hregion
    rw [raw_chunk hraw hfit, hplan.fileStart, Nat.sub_zero, hcur]
    have htake : ∀ xs : List UInt8, xs.length = m.orig.length →
        (xs.drop c.cur).take len = (xs.drop c.cur).take (filterMaxChunk c.winSize) := by
      intro xs hxs
      rw [hlen]
      exact take_min_length _ _ _ (Or.inl (by rw [length_drop]; omega))
    rw [htake _ hencLen, htake _ rfl, hregion]
  have hbefore : ∀ p < c.filterEmittedUntil,
      (c.transformChunk len).data[p]? = (m.prior ++ m.enc)[p + 0]? := by
    intro p hp
    rw [transformChunk_data hfit, if_pos hp]
    exact h.bytes p (by rw [hsettledc]; exact hp)
  have hcollecting : Collecting m win 0 st (c.transformChunk len) := by
    refine { h with settled_le := ?_, inside := ?_, bytes := ?_, cur_le := ?_ }
    · rw [hsettled, hloaded]
      omega
    · rw [hloaded]
      exact h.inside
    · rw [hsettled]
      exact hbefore
    · rw [hloaded]
      exact h.cur_le
  refine ⟨hcollecting.openRegion hactive hcur hstep ?_ ?_, ?_, ?_, rfl, rfl, rfl, hloaded, ?_⟩
  · rw [hopened, hloaded]
    exact hfit
  · rw [hopened]
    intro p hp
    by_cases hp' : p < c.filterEmittedUntil
    · exact hbefore p hp'
    · rw [transformChunk_data hfit, if_neg hp', if_pos hp, hchunk,
        List.getElem?_take_of_lt (by omega), List.getElem?_drop, hplan.prior, nil_append]
      congr 1
      omega
  · refine { hplan with aligned := ?_, kind := Or.inr ⟨hpre, hstreaming, hexternal, ?_⟩ }
    · show (∃ j, c.filterEmittedUntil + len = j * filterMaxChunk c.winSize) ∨
        c.filterEmittedUntil + len = m.orig.length
      rw [hcur, hlen, hk]
      exact aligned_next (by omega)
    · intro p hp hploaded
      rw [show ((c.transformChunk len).openRegion len).srcLoaded = c.srcLoaded from hloaded]
        at hploaded
      have hp' : c.filterEmittedUntil + len ≤ p := hp
      show (c.transformChunk len).data[p]? = m.orig[p]?
      rw [transformChunk_data hfit, if_neg (by omega), if_neg (by omega)]
      exact hraw p (by omega) hploaded
  · refine ⟨?_, fun _ => ?_⟩
    · show c.cur + 1 ≤ (c.transformChunk len).srcLoaded
      rw [hloaded]
      exact hlt
    · show c.cur + 1 ≤ c.filterEmittedUntil + len
      omega
  · exact length_append

end

/-- What a pass needs to know about its input. -/
structure PassInput (m : Member) (win : Reach) (shift : Nat) (final : Bool) (c : Compressor50) :
    Prop where
  loaded_le : c.srcLoaded ≤ c.srcSize
  plan : c.activeFilter ≠ .none → shift = 0 ∧ FilterPlan m win c
  fed : c.streaming = true → c.srcSize = c.srcLoaded
  whole : c.activeFilter ≠ .none → final = true → c.srcSize = m.orig.length

theorem loadData_streaming (h : c.streaming = true) (target : Nat) : c.loadData target = c := by
  unfold loadData
  rw [if_pos h, ite_self]

/-- The filter step waits for more input in one case only. -/
structure Waiting (m : Member) (final : Bool) (c : Compressor50) : Prop where
  streaming : c.streaming = true
  notFinal : final = false
  active : c.activeFilter ≠ .none
  short : c.srcLoaded < c.cur + filterMaxChunk c.winSize

/-- **The filter step waits, or goes on with a region that is open.**  It cannot wait
when an end of the input was recorded, and fails then. -/
theorem Collecting.filterStep (h : Collecting m win shift st c)
    (hinput : PassInput m win shift final c) (hlt : c.cur < c.srcLoaded) :
    (c.filterStep final = (if c.srcEof then .fail else .stop c) ∧ Waiting m final c) ∨
      ∃ c', c.filterStep final = .again c' ∧ Collecting m win shift st c' ∧ Room c' 1 ∧
        c'.regionFrame = c.regionFrame ∧ c'.cur = c.cur ∧ c'.memOut = c.memOut ∧
        c'.srcLoaded = c.srcLoaded ∧ c'.tokens.length ≤ c.tokens.length + 1 ∧
        (c'.activeFilter ≠ .none → FilterPlan m win c') ∧
        (c.activeFilter = .none ∨ c.streaming = false → c'.data = c.data) := by
  by_cases hactive : c.activeFilter = .none
  · right
    refine ⟨c, if_neg fun hcond => hcond.1 hactive, h, ⟨hlt, fun hne => absurd hactive hne⟩, rfl,
      rfl,
      rfl, rfl, Nat.le_succ _, fun hne => absurd hactive hne, fun _ => rfl⟩
  obtain ⟨rfl, hplan⟩ := hinput.plan hactive
  have hregion := h.region hactive
  by_cases hopen : c.cur < c.filterEmittedUntil
  · right
    exact ⟨c, if_neg fun hcond => by omega, h, ⟨hlt, fun _ => hopen⟩, rfl, rfl, rfl, rfl,
      Nat.le_succ _, fun _ => hplan, fun _ => rfl⟩
  -- The last region is used up: the encoder stands at a chunk boundary.
  have hcur : c.filterEmittedUntil = c.cur := by omega
  have hinside := h.inside
  have hencLen := hplan.enc_length
  rw [hplan.prior, length_nil] at hinside
  have hsizes := hplan.size
  obtain ⟨hpos, _, hmax⟩ := filterMaxChunk_bounds hplan.window.1
  have hloaded := hinput.loaded_le
  obtain ⟨k, hk⟩ : ∃ k, c.cur = k * filterMaxChunk c.winSize := by
    rcases hplan.aligned with ⟨k, hk⟩ | hend
    · exact ⟨k, by omega⟩
    · omega
  have hcond : c.activeFilter ≠ .none ∧ c.filterEmittedUntil ≤ c.cur ∧
      c.filterEmittedUntil < c.srcSize := ⟨hactive, by omega, by omega⟩
  unfold Compressor50.filterStep
  dsimp only
  rw [if_pos hcond]
  rcases hplan.kind with ⟨hpre, hstreaming, hsize⟩ | ⟨hpre, hstreaming, hexternal, hraw⟩
  · right
    have hchunk : c.nextChunkLen final =
        min (m.orig.length - c.cur) (filterMaxChunk c.winSize) := by
      rw [nextChunkLen, if_neg (by simp [hstreaming]), hsize, hcur]
    have hopened := h.open_pretransformed hplan hactive hpre hsize hstreaming hcur hk hlt (by omega)
    refine ⟨_, ?_, hopened.collecting, hopened.room, hopened.frame, hopened.cur, hopened.memOut,
      hopened.loaded, hopened.count.le, fun _ => hopened.plan, fun _ => rfl⟩
    rw [hchunk, if_pos (by omega), if_neg (by unfold sizeMax; omega), if_neg (by simp [hpre])]
  · have hfed := hinput.fed hstreaming
    have hbase := h.base_le
    rw [loadData_streaming hstreaming]
    have harriving : ¬ c.externalBuf = true ∧ ¬ c.filterPretransformed = true := by
      simp [hexternal, hpre]
    cases final with
    | true =>
      right
      have hsize := hinput.whole hactive rfl
      have hchunk : c.nextChunkLen true =
          min (m.orig.length - c.cur) (filterMaxChunk c.winSize) := by
        rw [nextChunkLen, if_neg (by simp), hsize, hcur]
      have hopened := h.open_arriving hplan hactive hpre hstreaming hexternal hraw hcur hk hlt
        (by omega) rfl (by omega)
      refine ⟨_, ?_, hopened.collecting, hopened.room, hopened.frame, hopened.cur,
        hopened.memOut, hopened.loaded, hopened.count.le, fun _ => hopened.plan,
        by simp [hactive, hstreaming]⟩
      rw [hchunk, if_pos (by omega), if_neg (by unfold sizeMax; omega), if_pos harriving,
        if_neg (by omega), if_neg (by omega)]
    | false =>
      have hchunk : c.nextChunkLen false = filterMaxChunk c.winSize :=
        if_pos ⟨hstreaming, by simp⟩
      rw [hchunk, if_pos hpos, if_neg (by unfold sizeMax; omega), if_pos harriving,
        if_neg (by omega)]
      by_cases hshort : c.srcLoaded < c.filterEmittedUntil + filterMaxChunk c.winSize
      · left
        refine ⟨?_, hstreaming, rfl, hactive, by omega⟩
        rw [if_pos hshort]
        simp [hstreaming]
      · right
        have hopened := h.open_arriving hplan hactive hpre hstreaming hexternal hraw hcur hk hlt
          (by omega) (show filterMaxChunk c.winSize = _ by omega) (by omega)
        refine ⟨_, ?_, hopened.collecting, hopened.room, hopened.frame, hopened.cur,
          hopened.memOut, hopened.loaded, hopened.count.le, fun _ => hopened.plan,
          by simp [hactive, hstreaming]⟩
        rw [if_neg hshort]

/-! ## A whole pass -/

/-- The part of the state that no pass changes. -/
def passFrame (c : Compressor50) : Compressor50 := { c.regionFrame with posBase := 0 }

/-- What a pass keeps of its input. -/
structure SameSource (c c' : Compressor50) : Prop where
  frame : c'.passFrame = c.passFrame
  loaded : c'.srcLoaded = c.srcLoaded
  data : c.activeFilter = .none ∨ c.streaming = false → c'.data = c.data
  posBase : c'.posBase = c.slideStep.posBase

theorem passFrame_of_regionFrame (h : c'.regionFrame = c.regionFrame) :
    c'.passFrame = c.passFrame :=
  congrArg (fun x : Compressor50 => { x with posBase := 0 }) h

theorem regionFrame_of_inputFrame (h : c'.inputFrame = c.inputFrame) :
    c'.regionFrame = c.regionFrame :=
  congrArg (fun x : Compressor50 => { x with data := [], filterEmittedUntil := 0 }) h

theorem FilterPlan.of_inputFrame (h : FilterPlan m win c) (hframe : c'.inputFrame = c.inputFrame) :
    FilterPlan m win c' := by
  have hframed : FilterPlan m win c.inputFrame := { h with }
  rw [← hframe] at hframed
  exact { hframed with }

theorem PassInput.of_same (h : PassInput m win shift final c) (hsame : SameSource c c')
    (hplan : c'.activeFilter ≠ .none → FilterPlan m win c') :
    PassInput m win shift final c' := by
  have hframe := hsame.frame
  have hfilter : c'.activeFilter = c.activeFilter := (congrArg activeFilter hframe :)
  have hstreaming : c'.streaming = c.streaming := (congrArg streaming hframe :)
  have hsize : c'.srcSize = c.srcSize := (congrArg srcSize hframe :)
  constructor
  · rw [hsame.loaded, hsize]
    exact h.loaded_le
  · intro hactive
    exact ⟨(h.plan (hfilter ▸ hactive)).1, hplan hactive⟩
  · rw [hstreaming, hsize, hsame.loaded]
    exact h.fed
  · rw [hfilter, hsize]
    exact h.whole

/-- How the part of a pass behind the load ends. -/
inductive BodyEnd (m : Member) (win : Reach) (shift : Nat) (start : LzState) (final : Bool)
    (c : Compressor50) : Pass → Prop
  | stalled {c' : Compressor50} (hrun : Running m win shift start c') (hsame : SameSource c c')
      (hinput : PassInput m win shift final c') (hcur : c'.cur = c.cur)
      (hstreaming : c.streaming = true) (hfinal : final = false)
      (hshort : c.srcLoaded < c.cur + 0x100000)
      (hplain : c.activeFilter = .none → c.srcLoaded < c.cur + streamLookahead) :
      BodyEnd m win shift start final c (.stop c')
  | refused (hstreaming : c.streaming = true) (hfinal : final = false)
      (hactive : c.activeFilter ≠ .none) (heof : c.srcEof = true) :
      BodyEnd m win shift start final c .fail
  | covered {c' : Compressor50} (hrun : Running m win shift start c') (hsame : SameSource c c')
      (hinput : PassInput m win shift final c') (hlt : c.cur < c'.cur)
      (hle : c'.cur ≤ c.cur + (maxLzMatch + 3)) :
      BodyEnd m win shift start final c (.again c')

theorem Progress.running (hblocks : Blocks m win start c1.memOut st)
    (hcount : c1.tokens.length < 32768) (h : Progress m win shift st c1 c') :
    Running m win shift start c' := by
  have hout : c'.memOut = c1.memOut := (congrArg memOut h.frame :)
  refine ⟨⟨st, by rw [hout]; exact hblocks, h.collecting⟩, ?_⟩
  rw [h.count]
  exact hcount

theorem Collecting.tokenStep (h : Collecting m win shift st c1)
    (hblocks : Blocks m win start c1.memOut st) (hcount : c1.tokens.length ≤ 32769)
    (hroom : Room c1 1) (hsame : SameSource c c1) (hcur : c1.cur = c.cur)
    (hinput : PassInput m win shift final c)
    (hplan : c1.activeFilter ≠ .none → FilterPlan m win c1) :
    BodyEnd m win shift start final c (c1.tokenStep final) := by
  obtain ⟨c2, hflush, hframe, hcur2, hless, st2, hblocks2, h2⟩ := h.flushStep hblocks hcount
  have hroom2 : Room c2 1 := by
    have hframed : Room { c1.inputFrame with cur := c1.cur } 1 := { hroom with }
    rw [← hframe, ← hcur2] at hframed
    exact { hframed with }
  -- A token changes no more than a flush does.
  have hafter : ∀ {c3 : Compressor50}, c3.inputFrame = c2.inputFrame →
      SameSource c c3 ∧ PassInput m win shift final c3 := by
    intro c3 hframe3
    have hframe31 := hframe3.trans hframe
    have hdata3 : c3.data = c1.data := (congrArg data hframe31 :)
    have hbase3 : c3.posBase = c1.posBase := (congrArg posBase hframe31 :)
    have hfilter3 : c3.activeFilter = c1.activeFilter := (congrArg activeFilter hframe31 :)
    have hsame3 : SameSource c c3 := by
      constructor
      · exact (passFrame_of_regionFrame (regionFrame_of_inputFrame hframe31)).trans hsame.frame
      · rw [srcLoaded, hdata3]
        exact hsame.loaded
      · intro hkeep
        rw [hdata3, hsame.data hkeep]
      · rw [hbase3, hsame.posBase]
    refine ⟨hsame3, hinput.of_same hsame3 fun hactive => ?_⟩
    exact (hplan (hfilter3 ▸ hactive)).of_inputFrame hframe31
  have htoken : ∀ {c3 : Compressor50}, Progress m win shift st2 c2 c3 →
      BodyEnd m win shift start final c (.again c3) := by
    intro c3 hprogress
    obtain ⟨hsame3, hinput3⟩ := hafter (inputFrame_of_frame hprogress.frame)
    have hlt := hprogress.lt
    have hle := hprogress.le
    rw [hcur2, hcur] at hlt hle
    exact .covered (hprogress.running hblocks2 hless) hsame3 hinput3 hlt hle
  unfold Compressor50.tokenStep
  rw [hflush]
  dsimp only
  split
  · next hstall =>
    obtain ⟨hsame2, hinput2⟩ := @hafter c2 rfl
    have hloaded := hsame2.loaded
    have hstreaming : c2.streaming = c.streaming := (congrArg streaming hsame2.frame :)
    have hshort := hstall.2.2
    rw [hloaded, hcur2, hcur] at hshort
    refine .stalled ⟨⟨st2, hblocks2, h2⟩, hless.le⟩ hsame2 hinput2 (hcur2.trans hcur)
      (hstreaming ▸ hstall.1) (by simpa using hstall.2.1) ?_ fun _ => hshort
    unfold streamLookahead at hshort
    omega
  · split
    · exact htoken (h2.literal hroom2 (emitted_tailLiteral c2))
    · exact htoken (h2.searchToken hroom2)

theorem PassInput.slideStep (h : PassInput m win shift final c) :
    PassInput m win shift final c.slideStep := by
  rw [slideStep_eq]
  exact { h with plan := fun hactive => ⟨(h.plan hactive).1, { (h.plan hactive).2 with }⟩ }

/-- **A pass with input ahead stalls for more input or covers a byte**, unless it should
wait behind an end of the input. -/
theorem Running.passBody (h : Running m win shift start c) (hinput : PassInput m win shift final c)
    (hlt : c.cur < c.srcLoaded) :
    BodyEnd m win shift start final c (c.passBody final) := by
  obtain ⟨⟨st, hblocks, hcollecting⟩, hcount⟩ := h
  have hslid := hcollecting.slideStep
  have hslidInput := hinput.slideStep
  unfold Compressor50.passBody
  -- Sliding moves the base of the buffer and nothing else.
  generalize hbase : c.slideStep.posBase = base
  have heq : c.slideStep = { c with posBase := base } := by
    rw [slideStep_eq, hbase]
  rw [heq] at hslid hslidInput ⊢
  rcases hslid.filterStep hslidInput hlt with ⟨hstop, hwait⟩ |
    ⟨c1, hagain, h1, hroom, hframe, hcur, hout, hloaded, hcount1, hplan, hdata⟩
  · rw [hstop]
    have hsame : SameSource c { c with posBase := base } := ⟨rfl, rfl, fun _ => rfl, hbase.symm⟩
    by_cases heof : c.srcEof = true
    · rw [if_pos heof]
      exact .refused hwait.streaming hwait.notFinal hwait.active heof
    rw [if_neg heof]
    refine .stalled ⟨⟨st, hblocks, hslid⟩, hcount⟩ hsame hslidInput rfl hwait.streaming
      hwait.notFinal ?_ fun hnone => absurd hnone hwait.active
    have hshort := hwait.short
    obtain ⟨_, _, hmax⟩ := filterMaxChunk_bounds (hslidInput.plan hwait.active).2.window.1
    exact lt_of_lt_of_le hshort (Nat.add_le_add_left hmax _)
  · rw [hagain]
    have hsame : SameSource c c1 := by
      refine ⟨(passFrame_of_regionFrame hframe).trans rfl, hloaded, hdata, ?_⟩
      have hbase1 : c1.posBase = base := (congrArg posBase hframe :)
      rw [hbase1, hbase]
    exact h1.tokenStep (hout ▸ hblocks) (le_trans hcount1 (Nat.succ_le_succ hcount)) hroom hsame
      hcur hinput hplan

end Compressor50

end OpenRar.Compress
