import OpenRar.Foundation.RingHistory

/-!
# Copies that may overlap themselves

A copy from a distance takes one entry after the other, so that a copy longer than its
distance reads entries it has written.  What it appends repeats with the period of the
distance, and block copies can write it: one block without an overlap, a run of a single
entry, or blocks that double.
-/

namespace OverlapCopy

open List

variable {α : Type*} [Inhabited α]

/-- Copy `count` entries one by one from `distance` back. -/
def copyBytes (out : List α) (distance : Nat) : Nat → List α
  | 0 => out
  | count + 1 => copyBytes (out ++ [out.getD (out.length - distance) default]) distance count

/-- The entries of `src`, over and over. -/
def period (src : List α) (count : Nat) : List α :=
  (List.range count).map fun i => src.getD (i % src.length) default

@[simp]
theorem period_length (src : List α) (count : Nat) : (period src count).length = count := by
  simp [period]

theorem period_succ (src : List α) (count : Nat) :
    period src (count + 1) = period src count ++ [src.getD (count % src.length) default] := by
  simp [period, range_succ]

variable {count distance : Nat} {src : List α}

theorem getD_period (src : List α) {i : Nat} (hi : i < count) :
    (period src count).getD i default = src.getD (i % src.length) default := by
  rw [getD_eq_getElem _ _ (by simpa using hi)]
  simp [period]

theorem copyBytes_add (out : List α) (distance m n : Nat) :
    copyBytes out distance (m + n) = copyBytes (copyBytes out distance m) distance n := by
  induction m generalizing out with
  | zero => rw [Nat.zero_add, copyBytes]
  | succ m ih => rw [Nat.add_right_comm, copyBytes, copyBytes, ih]

/-- **A copy appends its period.** -/
theorem copyBytes_eq {out : List α} (hpos : 0 < distance)
    (hle : distance ≤ out.length) (count : Nat) :
    copyBytes out distance count
      = out ++ period (out.drop (out.length - distance)) count := by
  have hsrc : (out.drop (out.length - distance)).length = distance := by
    rw [length_drop]
    omega
  induction count with
  | zero => simp [copyBytes, period]
  | succ count ih =>
    rw [copyBytes_add, ih, period_succ, ← append_assoc]
    simp only [copyBytes, append_cancel_left_eq, List.cons.injEq, and_true]
    rw [length_append, period_length, hsrc]
    -- the entry read is an old one in the first period, and one of the copy from then on
    rcases Nat.lt_or_ge count distance with hfirst | hlater
    · rw [getD_append _ _ _ _ (by omega), Nat.mod_eq_of_lt hfirst,
        getD_eq_getElem _ _ (by omega), getD_eq_getElem _ _ (by omega),
        getElem_drop]
      congr 1
      omega
    · rw [getD_append_right _ _ _ _ (by omega),
        show out.length + count - distance - out.length = count - distance by omega,
        getD_period _ (by omega), hsrc, ← Nat.mod_eq_sub_mod hlater]

theorem copyBytes_isCopy {hist bytes : List α}
    (h : RingHistory.IsCopy distance hist bytes) (hpos : 0 < distance)
    (hle : distance ≤ hist.length) : copyBytes hist distance bytes.length = hist ++ bytes := by
  induction bytes generalizing hist with
  | nil => simp [copyBytes]
  | cons x xs ih =>
    have hcons : RingHistory.IsCopy distance hist ([x] ++ xs) := h
    obtain ⟨hfirst, hrest⟩ := hcons.split
    have hread := hfirst.old hle (i := 0) (by simp) hpos
    have hentry : hist.getD (hist.length - distance) default = x := by
      rw [getD_eq_getElem?_getD, ← Nat.add_zero (hist.length - distance), ← hread]
      rfl
    rw [length_cons, copyBytes, hentry, ih hrest (by rw [length_append]; omega),
      append_assoc]
    rfl

/-! ## Block copies -/

theorem period_of_le (h : count ≤ src.length) : period src count = src.take count := by
  refine ext_getElem (by simp [h]) fun i hi hi' => ?_
  have hlt : i < count := by simpa using hi
  rw [getElem_take]
  simp only [period, getElem_map, getElem_range]
  rw [Nat.mod_eq_of_lt (hlt.trans_le h), getD_eq_getElem _ _ (hlt.trans_le h)]

theorem period_of_length_one (h : src.length = 1) (count : Nat) :
    period src count = List.replicate count (src.headD default) := by
  obtain ⟨x, rfl⟩ := length_eq_one_iff.mp h
  simp [period, Nat.mod_one]

/-- Whole periods in front do not shift what follows. -/
theorem period_mul_add (src : List α) (k count : Nat) :
    period src (k * src.length + count) = period src (k * src.length) ++ period src count := by
  refine ext_getElem (by simp) fun i hi hi' => ?_
  simp only [period, getElem_map, getElem_range, getElem_append, length_map,
    length_range]
  split
  · rfl
  · rename_i hge
    have hsum : i = (i - k * src.length) + k * src.length := by omega
    conv_lhs => rw [hsum, Nat.add_mul_mod_self_right]

theorem period_take {m n : Nat} (h : n ≤ m) : (period src m).take n = period src n := by
  rw [period, ← map_take, take_range, Nat.min_eq_left h, period]

/-- Copy the region behind itself until `left` entries are written; the region doubles with
every block. -/
def doubling : Nat → List α → Nat → List α
  | 0, region, _ => region
  | fuel + 1, region, left =>
    if left = 0 then region
    else
      let n := min region.length left
      doubling fuel (region ++ region.take n) (left - n)

theorem doubling_period (hpos : 0 < src.length) {fuel k left : Nat} (hk : 1 ≤ k)
    (hfuel : left ≤ fuel) :
    doubling fuel (period src (k * src.length)) left = period src (k * src.length + left) := by
  have hregion : 0 < k * src.length := Nat.mul_pos hk hpos
  induction fuel generalizing k left with
  | zero =>
    obtain rfl : left = 0 := by omega
    rfl
  | succ fuel ih =>
    rw [doubling, period_length]
    split
    · rename_i hzero
      rw [hzero, Nat.add_zero]
    · rename_i hmore
      dsimp only
      rw [period_take (Nat.min_le_left _ _), ← period_mul_add]
      rcases Nat.le_total left (k * src.length) with hlast | hmany
      · rw [Nat.min_eq_right hlast, Nat.sub_self]
        cases fuel <;> rfl
      · rw [Nat.min_eq_left hmany, ← Nat.two_mul, ← Nat.mul_assoc,
          ih (by omega) (by omega) (by rw [Nat.mul_assoc]; omega)]
        congr 1
        rw [Nat.mul_assoc]
        omega

end OverlapCopy
