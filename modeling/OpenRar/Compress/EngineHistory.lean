import OpenRar.Compress.ApplyEngine

/-!
# The engine against the history of decoded bytes

`Holding engine hist` says that the ring window of the engine is the tail of the
byte history `hist`.  Literals and matches extend the history by exactly the bytes
they stand for, whatever path the match copy takes: a fill, one block move, the
chunked loop with its doubling runs, or no write at all when the source slot is
the target slot.

A match is only covered when its distance reaches into the history; the zero fill
for references past it is not used by any encoder of this repository.
-/

namespace OpenRar.Compress

open RingHistory List

namespace ApplyEngine

/-- The window is the tail of the history. -/
structure Holding (engine : ApplyEngine) (hist : List UInt8) : Prop where
  size : 0x10000 ≤ engine.winSize
  pos : engine.winPos = hist.length % engine.winSize
  done : engine.firstWinDone = decide (engine.winSize ≤ hist.length)
  holds : Holds engine.winSize engine.window hist

theorem wrapUp_eq {engine : ApplyEngine} {pos : Nat} (hsize : 0 < engine.winSize)
    (hpos : pos < 2 * engine.winSize) : engine.wrapUp pos = pos % engine.winSize := by
  unfold wrapUp
  split
  · rename_i hpow
    obtain ⟨k, hk⟩ := (Nat.and_sub_one_eq_zero_iff_isPowerOfTwo hsize.ne').mp hpow
    rw [hk, Nat.and_two_pow_sub_one_eq_mod]
  · split
    · rename_i hge
      rw [Nat.mod_eq_sub_mod hge, Nat.mod_eq_of_lt (by omega)]
    · rw [Nat.mod_eq_of_lt (by omega)]

section Write

variable {engine : ApplyEngine} {hist : List UInt8}

section

variable (h : Holding engine hist)
include h

theorem Holding.size_pos : 0 < engine.winSize :=
  lt_of_lt_of_le (by decide) h.size

theorem Holding.pos_lt : engine.winPos < engine.winSize := by
  rw [h.pos]
  exact Nat.mod_lt _ h.size_pos

/-- Moving past at most a full window keeps the position. -/
theorem Holding.advance_pos (count : Nat) (hcount : count ≤ engine.winSize) :
    (engine.advance count).winPos = (hist.length + count) % engine.winSize := by
  have hlt := h.pos_lt
  rw [advance, wrapUp_eq h.size_pos (by omega), h.pos, Nat.mod_add_mod]

/-- The wrap flag is set exactly when the history fills the window. -/
theorem Holding.advance_done {count : Nat} (hpos : 0 < count)
    (hcount : engine.winPos + count ≤ engine.winSize) :
    (engine.advance count).firstWinDone = decide (engine.winSize ≤ hist.length + count) := by
  have hadv := h.advance_pos count (by omega)
  have hflag : (engine.advance count).firstWinDone
      = (decide (engine.winSize ≤ hist.length) || (engine.advance count).winPos == 0) := by
    rw [← h.done]
    rfl
  rw [hflag, hadv]
  by_cases hfull : engine.winSize ≤ hist.length
  · simp [hfull, Nat.le_add_right_of_le hfull]
  · have hn : engine.winPos = hist.length := by rw [h.pos, Nat.mod_eq_of_lt (by omega)]
    rw [hn] at hcount
    rcases hcount.lt_or_eq with hlt | heq
    · rw [Nat.mod_eq_of_lt hlt]
      simp [Nat.not_le.mpr hlt]
      omega
    · simp [heq]

/-- A block that ends at or before the end of the ring extends the history. -/
theorem Holding.write (window : Nat → UInt8) (bytes : List UInt8)
    (hpos : 0 < bytes.length) (hfit : engine.winPos + bytes.length ≤ engine.winSize)
    (hnew : ∀ i < bytes.length, bytes[i]? = some (window (engine.winPos + i)))
    (hold : ∀ j, j < engine.winPos ∨ engine.winPos + bytes.length ≤ j →
      window j = engine.window j) :
    Holding ({ engine with window := window }.advance bytes.length) (hist ++ bytes) := by
  constructor
  · exact h.size
  · rw [length_append]
    exact h.advance_pos _ (by omega)
  · rw [length_append]
    exact h.advance_done hpos hfit
  · rw [h.pos] at hfit hnew hold
    exact h.holds.write hfit hnew hold

theorem Holding.writeLiteral (slot : Nat) :
    Holding (engine.writeLiteral slot) (hist ++ [UInt8.ofNat slot]) := by
  have hlt := h.pos_lt
  apply h.write _ [UInt8.ofNat slot]
  · simp
  · simpa using hlt
  · intro i hi
    have : i = 0 := by simpa using hi
    subst this
    simp [setBlock]
  · intro j hj
    exact setBlock_outside _ _ (by simpa using hj)

end

end Write

/-! ## Source slots -/

section Copy

variable {engine : ApplyEngine} {hist bytes : List UInt8} {distance src : Nat}

/-- `src` is the slot `distance` before the write position. -/
def SourceSlot (engine : ApplyEngine) (distance src : Nat) : Prop :=
  src = (engine.winPos + engine.winSize - distance) % engine.winSize

section

variable (h : Holding engine hist) (hsrc : SourceSlot engine distance src)
include h hsrc

/-- The source slot lies before the write position, or ahead of it after a wrap. -/
theorem SourceSlot.cases (hpos : 0 < distance) (hdist : distance ≤ engine.winSize) :
    (distance ≤ engine.winPos ∧ src = engine.winPos - distance) ∨
      (engine.winPos < distance ∧ src = engine.winPos + engine.winSize - distance) := by
  have hlt := h.pos_lt
  rw [SourceSlot] at hsrc
  by_cases hle : distance ≤ engine.winPos
  · left
    rw [Nat.mod_eq_sub_mod (by omega), Nat.mod_eq_of_lt (by omega)] at hsrc
    omega
  · right
    rw [Nat.mod_eq_of_lt (by omega)] at hsrc
    omega

/-- The slot holds the entry `distance` back in the history. -/
theorem SourceSlot.read (hreach : distance ≤ hist.length) (hdist : distance ≤ engine.winSize)
    (hcopy : IsCopy distance hist bytes) {i : Nat} (hi : i < bytes.length) (hlt : i < distance)
    (hend : src + i < engine.winSize) : bytes[i]? = some (engine.window (src + i)) := by
  have hmod : src = (hist.length - distance) % engine.winSize := by
    rw [hsrc, h.pos, Nat.add_sub_assoc hdist, Nat.mod_add_mod,
      show hist.length + (engine.winSize - distance)
        = (hist.length - distance) + engine.winSize by omega, Nat.add_mod_right]
  rw [hcopy.old hreach hi hlt, h.holds.read hreach hdist hlt, add_mod_of_lt (by omega), hmod]

theorem SourceSlot.advance
    (hdist : distance ≤ engine.winSize) (count : Nat) (hcount : count ≤ engine.winSize)
    (window : Nat → UInt8) :
    SourceSlot ({ engine with window := window }.advance count) distance
      (engine.wrapUp (src + count)) := by
  have hlt : src < engine.winSize := by
    rw [hsrc]
    exact Nat.mod_lt _ h.size_pos
  have hslt := h.pos_lt
  have hadv : ({ engine with window := window }.advance count).winPos
      = (engine.winPos + count) % engine.winSize := by
    change engine.wrapUp (engine.winPos + count) = _
    exact wrapUp_eq h.size_pos (by omega)
  have hwin : ({ engine with window := window }.advance count).winSize = engine.winSize := rfl
  rw [SourceSlot, wrapUp_eq h.size_pos (by omega), hadv, hwin, hsrc, Nat.mod_add_mod,
    Nat.add_sub_assoc hdist, Nat.add_sub_assoc hdist, Nat.mod_add_mod, Nat.add_right_comm]

end

/-! ## Runs -/

/-- The slots behind the write position hold the first `done` bytes of the copy, the
others are untouched. -/
structure Written (engine : ApplyEngine) (bytes : List UInt8) (window : Nat → UInt8)
    (done : Nat) : Prop where
  fit : engine.winPos + done ≤ engine.winSize
  le : done ≤ bytes.length
  new : ∀ i < done, bytes[i]? = some (window (engine.winPos + i))
  old : ∀ j, j < engine.winPos ∨ engine.winPos + done ≤ j → window j = engine.window j

/-- A doubling run continues the copy: it copies whole periods until it reaches
its end or the end of the ring. -/
theorem doubleRun_written (hcopy : IsCopy distance hist bytes) (fuel done : Nat)
    (window : Nat → UInt8) (hwritten : Written engine bytes window done)
    (hperiod : distance ∣ done ∨ done = bytes.length ∨ engine.winPos + done = engine.winSize) :
    Written engine bytes
        (doubleRun engine.winSize engine.winPos fuel done (bytes.length - done) window).1
        (doubleRun engine.winSize engine.winPos fuel done (bytes.length - done) window).2 ∧
      done ≤ (doubleRun engine.winSize engine.winPos fuel done (bytes.length - done) window).2 := by
  induction fuel generalizing done window with
  | zero => exact ⟨hwritten, le_rfl⟩
  | succ fuel ih =>
    rw [doubleRun]
    generalize hstep : min (min done (bytes.length - done))
      (engine.winSize - (engine.winPos + done)) = step
    by_cases hzero : step = 0
    · rw [if_pos hzero]
      exact ⟨hwritten, le_rfl⟩
    · rw [if_neg hzero, show bytes.length - done - step = bytes.length - (done + step) by omega]
      obtain ⟨k, hk⟩ : distance ∣ done := by
        rcases hperiod with h | h | h
        · exact h
        · omega
        · omega
      have hnext : Written engine bytes
          (moveBlock window (engine.winPos + done) engine.winPos step) (done + step) := by
        constructor
        · omega
        · omega
        · intro i hi
          by_cases hlt : i < done
          · rw [moveBlock_outside _ (by omega)]
            exact hwritten.new i hlt
          · obtain ⟨r, rfl⟩ : ∃ r, i = done + r := ⟨i - done, by omega⟩
            have hrep := hcopy.periodic k r (by rw [Nat.mul_comm, ← hk]; omega)
            rw [Nat.mul_comm k, ← hk, Nat.add_comm r] at hrep
            rw [hrep, ← Nat.add_assoc, moveBlock_inside _ (by omega)]
            exact hwritten.new r (by omega)
        · intro j hj
          rw [moveBlock_outside _ (by omega)]
          exact hwritten.old j (by omega)
      obtain ⟨hdone, hge⟩ := ih (done + step) _ hnext (by
        rcases Nat.lt_or_ge step done with h | h
        · right
          omega
        · left
          rw [show step = done by omega]
          exact Dvd.dvd.add ⟨k, hk⟩ ⟨k, hk⟩)
      exact ⟨hdone, by omega⟩

section

variable (h : Holding engine hist) (hsrc : SourceSlot engine distance src)
    (hreach : distance ≤ hist.length) (hpos : 0 < distance)
include h hsrc hreach hpos

theorem moveBlock_written (hdist : distance ≤ engine.winSize)
    (hcopy : IsCopy distance hist bytes) {chunk : Nat} (hlen : chunk ≤ bytes.length)
    (hfit : engine.winPos + chunk ≤ engine.winSize) (hend : src + chunk ≤ engine.winSize)
    (hgap : chunk ≤ slotGap src engine.winPos) :
    chunk ≤ distance ∧
      Written engine bytes (moveBlock engine.window engine.winPos src chunk) chunk := by
  have hcases := hsrc.cases h hpos hdist
  have hperiod : chunk ≤ distance := by
    unfold slotGap at hgap
    split at hgap <;> omega
  refine ⟨hperiod, hfit, hlen, ?_, ?_⟩
  · intro i hi
    rw [moveBlock_inside _ hi]
    exact hsrc.read h hreach hdist hcopy (by omega) (by omega) (by omega)
  · intro j hj
    exact moveBlock_outside _ hj

/-- One pass of the chunked loop, doubling included. -/
theorem copyChunk_written (hdist : distance < engine.winSize)
    (hcopy : IsCopy distance hist bytes) (hne : 0 < bytes.length) :
    Written engine bytes (engine.copyChunk distance src bytes.length).1
        (engine.copyChunk distance src bytes.length).2 ∧
      0 < (engine.copyChunk distance src bytes.length).2 := by
  unfold copyChunk
  generalize hdef : min (min (min bytes.length (engine.winSize - engine.winPos))
    (engine.winSize - src)) (slotGap src engine.winPos) = chunk
  have hlt := h.pos_lt
  have hcases := hsrc.cases h hpos hdist.le
  have hchunk : 0 < chunk ∧ chunk ≤ bytes.length ∧ engine.winPos + chunk ≤ engine.winSize ∧
      src + chunk ≤ engine.winSize ∧ chunk ≤ slotGap src engine.winPos := by
    have hgap : 0 < slotGap src engine.winPos := by
      unfold slotGap
      split <;> omega
    omega
  obtain ⟨hchunkpos, hlen, hfit, hend, hgap⟩ := hchunk
  obtain ⟨hperiod, hwritten⟩ :=
    moveBlock_written h hsrc hreach hpos hdist.le hcopy hlen hfit hend hgap
  by_cases hdouble : chunk < bytes.length ∧ chunk ≥ distance
  · have hdvd : distance ∣ chunk := by rw [show chunk = distance by omega]
    simp only [if_pos hdouble]
    obtain ⟨hdone, hge⟩ := doubleRun_written hcopy bytes.length chunk _ hwritten (Or.inl hdvd)
    exact ⟨hdone, by omega⟩
  · simp only [if_neg hdouble]
    exact ⟨hwritten, hchunkpos⟩

end

/-- What has been written extends the history. -/
theorem Written.holding (h : Holding engine hist) {window : Nat → UInt8} {done : Nat}
    (hwritten : Written engine bytes window done) (hpos : 0 < done) :
    Holding ({ engine with window := window }.advance done) (hist ++ bytes.take done) := by
  have hle := hwritten.le
  have hlen : (bytes.take done).length = done := by simpa using hle
  have hwrite := h.write window (bytes.take done)
  rw [hlen] at hwrite
  apply hwrite hpos hwritten.fit
  · intro i hi
    rw [List.getElem?_take_of_lt hi]
    exact hwritten.new i hi
  · exact hwritten.old

theorem chunkLoop_holding (fuel : Nat) (h : Holding engine hist)
    (hsrc : SourceSlot engine distance src) (hreach : distance ≤ hist.length)
    (hpos : 0 < distance) (hdist : distance < engine.winSize)
    (hcopy : IsCopy distance hist bytes) (hfuel : bytes.length ≤ fuel) :
    Holding (chunkLoop distance fuel src bytes.length engine) (hist ++ bytes) := by
  induction fuel generalizing engine hist bytes src with
  | zero =>
    have hnil : bytes = [] := length_eq_zero_iff.mp (by omega)
    subst hnil
    simpa [chunkLoop] using h
  | succ fuel ih =>
    rw [chunkLoop]
    by_cases hne : bytes.length = 0
    · have hnil : bytes = [] := length_eq_zero_iff.mp hne
      subst hnil
      simpa using h
    · rw [if_neg hne]
      obtain ⟨hwritten, hdone⟩ := copyChunk_written h hsrc hreach hpos hdist hcopy (by omega)
      generalize engine.copyChunk distance src bytes.length = result at hwritten hdone ⊢
      have hfit := hwritten.fit
      have hnext := hwritten.holding h hdone
      have hslot := hsrc.advance h hdist.le result.2 (by omega) result.1
      have hsplit : hist ++ bytes = (hist ++ bytes.take result.2) ++ bytes.drop result.2 := by
        rw [append_assoc, take_append_drop]
      have hrest : bytes.length - result.2 = (bytes.drop result.2).length := by simp
      simp only
      rw [hsplit, hrest]
      apply ih hnext hslot
      · rw [length_append]
        omega
      · exact hdist
      · have hwhole := hcopy
        rw [← take_append_drop result.2 bytes] at hwhole
        exact hwhole.split.2
      · simp
        omega

/-- A match a full window back rewrites every slot with what it holds. -/
theorem Holding.advance_full (h : Holding engine hist)
    (hcopy : IsCopy engine.winSize hist bytes) (hreach : engine.winSize ≤ hist.length)
    (hlen : bytes.length ≤ engine.winSize) :
    Holding (engine.advance bytes.length) (hist ++ bytes) := by
  constructor
  · exact h.size
  · rw [length_append]
    exact h.advance_pos _ hlen
  · have hdone : engine.firstWinDone = true := by rw [h.done, decide_eq_true_eq]; exact hreach
    have hgrow : engine.winSize ≤ (hist ++ bytes).length := by rw [length_append]; omega
    change (engine.firstWinDone || _) = decide (engine.winSize ≤ (hist ++ bytes).length)
    rw [hdone, decide_eq_true hgrow, Bool.true_or]
  · intro p hp hrecent
    change (hist ++ bytes)[p]? = some (engine.window (p % engine.winSize))
    change (hist ++ bytes).length ≤ p + engine.winSize at hrecent
    rw [length_append] at hp hrecent
    by_cases hlt : p < hist.length
    · rw [List.getElem?_append_left hlt]
      exact h.holds p hlt (by omega)
    · rw [List.getElem?_append_right (by omega), hcopy.old hreach (by omega) (by omega),
        h.holds.read hreach le_rfl (by omega)]
      congr 2
      rw [← Nat.add_mod_right]
      congr 1
      omega

/-- **A match extends the history by the bytes it stands for**, on every path of
the copy. -/
theorem Holding.copyMatch (h : Holding engine hist) (hcopy : IsCopy distance hist bytes)
    (hpos : 0 < distance) (hreach : distance ≤ hist.length) (hdist : distance ≤ engine.winSize)
    (hne : 0 < bytes.length) (hlen : bytes.length ≤ engine.winSize) :
    Holding (engine.copyMatch distance bytes.length) (hist ++ bytes) := by
  have hlt := h.pos_lt
  have hsrc : SourceSlot engine distance
      (engine.wrapUp (engine.winPos + engine.winSize - distance)) :=
    wrapUp_eq h.size_pos (by omega)
  unfold ApplyEngine.copyMatch
  rw [if_neg (by omega)]
  generalize engine.wrapUp (engine.winPos + engine.winSize - distance) = src at hsrc
  have hcases := hsrc.cases h hpos hdist
  have hzero : ¬ (distance > engine.winPos ∧ ¬ engine.firstWinDone = true) := by
    rintro ⟨hgt, hflag⟩
    rw [h.done, decide_eq_true_eq] at hflag
    rw [h.pos, Nat.mod_eq_of_lt (by omega)] at hgt
    omega
  rw [if_neg hzero]
  split
  · -- The source slot is the target slot: a full window back.
    have hfull : distance = engine.winSize := by omega
    subst hfull
    exact h.advance_full hcopy hreach hlen
  split
  · -- A run of one byte.
    rename_i hself hone
    obtain ⟨rfl, hfit⟩ := hone
    have hwrite := h.write (setBlock engine.window engine.winPos (engine.window src) bytes.length)
      bytes hne hfit
    apply hwrite
    · intro i hi
      have hrep := hcopy.periodic i 0 (by omega)
      rw [Nat.zero_add, Nat.mul_one] at hrep
      rw [setBlock_inside _ _ hi, hrep]
      exact hsrc.read h hreach hdist hcopy hne (by omega) (by omega)
    · intro j hj
      exact setBlock_outside _ _ hj
  split
  · -- One block move.
    rename_i hblock
    obtain ⟨hend, hfit, hgap⟩ := hblock
    obtain ⟨-, hwritten⟩ :=
      moveBlock_written h hsrc hreach hpos hdist hcopy le_rfl hfit hend hgap
    simpa using hwritten.holding h hne
  · exact chunkLoop_holding _ h hsrc hreach hpos (by omega) hcopy le_rfl

end Copy

/-! ## What a write leaves alone -/

/-- Same geometry, queue and flush state; only the window may differ. -/
structure SameQueue (engine engine' : ApplyEngine) : Prop where
  winSize : engine'.winSize = engine.winSize
  filters : engine'.filters = engine.filters
  lastFlushed : engine'.lastFlushed = engine.lastFlushed
  emitted : engine'.emitted = engine.emitted

theorem SameQueue.refl (engine : ApplyEngine) : SameQueue engine engine :=
  ⟨rfl, rfl, rfl, rfl⟩

theorem SameQueue.trans {a b c : ApplyEngine} (hab : SameQueue a b) (hbc : SameQueue b c) :
    SameQueue a c :=
  ⟨hbc.winSize.trans hab.winSize, hbc.filters.trans hab.filters,
    hbc.lastFlushed.trans hab.lastFlushed, hbc.emitted.trans hab.emitted⟩

theorem sameQueue_advance (engine : ApplyEngine) (window : Nat → UInt8) (count : Nat) :
    SameQueue engine ({ engine with window := window }.advance count) :=
  ⟨rfl, rfl, rfl, rfl⟩

theorem sameQueue_zeroRun (fuel rem : Nat) (engine : ApplyEngine) :
    SameQueue engine (zeroRun fuel rem engine) := by
  induction fuel generalizing rem engine with
  | zero => exact .refl engine
  | succ fuel ih =>
    rw [zeroRun]
    split
    · exact .refl engine
    · exact (sameQueue_advance engine _ _).trans (ih _ _)

theorem sameQueue_chunkLoop (distance fuel src length : Nat) (engine : ApplyEngine) :
    SameQueue engine (chunkLoop distance fuel src length engine) := by
  induction fuel generalizing src length engine with
  | zero => exact .refl engine
  | succ fuel ih =>
    rw [chunkLoop]
    split
    · exact .refl engine
    · exact (sameQueue_advance engine _ _).trans (ih _ _ _)

theorem sameQueue_copyMatch (engine : ApplyEngine) (distance length : Nat) :
    SameQueue engine (engine.copyMatch distance length) := by
  unfold copyMatch
  simp only
  split_ifs
  · exact .refl engine
  · exact sameQueue_zeroRun _ _ _
  · exact sameQueue_advance engine engine.window length
  · exact sameQueue_advance engine _ length
  · exact sameQueue_advance engine _ length
  · exact sameQueue_chunkLoop _ _ _ _ _

end ApplyEngine

end OpenRar.Compress
