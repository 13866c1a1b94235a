import Mathlib

/-!
# Ring buffers as histories

A ring of `size` slots that is written at ascending positions holds the last
`size` entries of a history: entry `p` lives in slot `p % size`.  The module says
what a block write does to that relation and what a copy from an earlier position
writes.  A copy is given by what it must achieve, `IsCopy`: every new entry equals
the one `distance` before it, whether or not that one is new itself.
-/

namespace RingHistory

open List

variable {α : Type*}

/-- The ring holds the last `size` entries of the history. -/
def Holds (size : Nat) (ring : Nat → α) (hist : List α) : Prop :=
  ∀ p < hist.length, hist.length ≤ p + size → hist[p]? = some (ring (p % size))

variable {size i distance dst count : Nat}

/-- Two numbers closer than `size` that share a slot are equal. -/
theorem eq_of_mod_eq {p q : Nat} (hpq : p ≤ q) (hclose : q < p + size)
    (hmod : p % size = q % size) : p = q := by
  have hdvd : size ∣ q - p := (Nat.modEq_iff_dvd' hpq).mp hmod
  by_contra hne
  have := Nat.le_of_dvd (by omega) hdvd
  omega

theorem add_mod_of_lt {n : Nat} (h : n % size + i < size) :
    (n + i) % size = n % size + i := by
  rw [Nat.add_mod, Nat.mod_eq_of_lt (by omega : i < size), Nat.mod_eq_of_lt h]

variable {ring : Nat → α} {hist bytes : List α} {src j : Nat}

/-- A contiguous block write extends the history. -/
theorem Holds.write {ring' : Nat → α} (hholds : Holds size ring hist)
    (hfit : hist.length % size + bytes.length ≤ size)
    (hnew : ∀ i < bytes.length, bytes[i]? = some (ring' (hist.length % size + i)))
    (hold : ∀ j, j < hist.length % size ∨ hist.length % size + bytes.length ≤ j →
      ring' j = ring j) :
    Holds size ring' (hist ++ bytes) := by
  intro p hp hrecent
  rw [length_append] at hp hrecent
  by_cases hlt : p < hist.length
  · -- An old entry that is still in reach lies outside the written block.
    rw [List.getElem?_append_left hlt, hholds p hlt (by omega), hold]
    by_contra hin
    have hin' : ∃ i < bytes.length, p % size = hist.length % size + i :=
      ⟨p % size - hist.length % size, by omega, by omega⟩
    obtain ⟨i, hi, hslot⟩ := hin'
    rw [← add_mod_of_lt (by omega)] at hslot
    have := eq_of_mod_eq (by omega) (by omega) hslot
    omega
  · rw [List.getElem?_append_right (by omega), hnew _ (by omega), ← add_mod_of_lt (by omega)]
    congr 3
    omega

/-- Reading back within the reach of the ring. -/
theorem Holds.read (hholds : Holds size ring hist)
    (hdist : distance ≤ hist.length) (hsize : distance ≤ size)
    (hi : i < distance) :
    hist[hist.length - distance + i]? = some (ring ((hist.length - distance + i) % size)) :=
  hholds _ (by omega) (by omega)

/-! ## Copies -/

/-- Every entry of `bytes`, put behind `hist`, equals the one `distance` before. -/
def IsCopy (distance : Nat) (hist bytes : List α) : Prop :=
  ∀ i < bytes.length,
    (hist ++ bytes)[hist.length + i]? = (hist ++ bytes)[hist.length + i - distance]?

theorem IsCopy.split {xs ys : List α} (h : IsCopy distance hist (xs ++ ys)) :
    IsCopy distance hist xs ∧ IsCopy distance (hist ++ xs) ys := by
  have hassoc : hist ++ (xs ++ ys) = hist ++ xs ++ ys := (append_assoc _ _ _).symm
  constructor
  · intro i hi
    have := h i (by rw [length_append]; omega)
    have hin : ∀ k < hist.length + xs.length, (hist ++ xs ++ ys)[k]? = (hist ++ xs)[k]? := by
      intro k hk
      rw [List.getElem?_append_left (by rwa [length_append])]
    rwa [hassoc, hin _ (by omega), hin _ (by omega)] at this
  · intro i hi
    have := h (xs.length + i) (by rw [length_append]; omega)
    rw [hassoc] at this
    rw [length_append, Nat.add_assoc]
    exact this

theorem IsCopy.behind {pre : List α} (h : IsCopy distance hist bytes)
    (hdist : distance ≤ hist.length) : IsCopy distance (pre ++ hist) bytes := by
  intro i hi
  rw [append_assoc, length_append, Nat.add_assoc, Nat.add_sub_assoc (by omega),
    List.getElem?_append_right (Nat.le_add_right _ _),
    List.getElem?_append_right (Nat.le_add_right _ _), Nat.add_sub_cancel_left,
    Nat.add_sub_cancel_left]
  exact h i hi

theorem IsCopy.old (h : IsCopy distance hist bytes)
    (hdist : distance ≤ hist.length) (hi : i < bytes.length) (hlt : i < distance) :
    bytes[i]? = hist[hist.length - distance + i]? := by
  have := h i hi
  rw [List.getElem?_append_right (by omega), List.getElem?_append_left (by omega)] at this
  rw [Nat.add_sub_cancel_left] at this
  rw [this]
  congr 1
  omega

theorem IsCopy.periodic (h : IsCopy distance hist bytes) (k i : Nat)
    (hi : i + k * distance < bytes.length) :
    bytes[i + k * distance]? = bytes[i]? := by
  induction k with
  | zero => simp
  | succ k ih =>
    rw [Nat.succ_mul] at hi
    have := h (i + (k + 1) * distance) (by rw [Nat.succ_mul]; omega)
    rw [List.getElem?_append_right (by omega), Nat.add_sub_cancel_left,
      List.getElem?_append_right (by rw [Nat.succ_mul]; omega)] at this
    rw [this, ← ih (by omega)]
    congr 1
    rw [Nat.succ_mul]
    omega

/-! ## Block moves on a ring -/

/-- `memcpy` of `count` slots. -/
def moveBlock (ring : Nat → α) (dst src count : Nat) : Nat → α :=
  fun j => if dst ≤ j ∧ j < dst + count then ring (src + (j - dst)) else ring j

/-- `memset` of `count` slots. -/
def setBlock (ring : Nat → α) (dst : Nat) (value : α) (count : Nat) : Nat → α :=
  fun j => if dst ≤ j ∧ j < dst + count then value else ring j

theorem moveBlock_inside (ring : Nat → α) (hi : i < count) :
    moveBlock ring dst src count (dst + i) = ring (src + i) := by
  rw [moveBlock, if_pos ⟨by omega, by omega⟩, Nat.add_sub_cancel_left]

theorem moveBlock_outside (ring : Nat → α) (hj : j < dst ∨ dst + count ≤ j) :
    moveBlock ring dst src count j = ring j := by
  rw [moveBlock, if_neg (by omega)]

theorem setBlock_inside (ring : Nat → α) (value : α) (hi : i < count) :
    setBlock ring dst value count (dst + i) = value := by
  rw [setBlock, if_pos ⟨by omega, by omega⟩]

theorem setBlock_outside (ring : Nat → α) (value : α) (hj : j < dst ∨ dst + count ≤ j) :
    setBlock ring dst value count j = ring j := by
  rw [setBlock, if_neg (by omega)]

end RingHistory
