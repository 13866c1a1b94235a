import Mathlib

/-!
# Packed words over a ring of characteristic two

A binary word `w` below `2 ^ m` stands for the polynomial `∑ bᵢ xⁱ` in a
generator `x`.  This module relates the machine operations on words (xor, shift
with reduction, shift-and-add product) to addition and multiplication in a
commutative ring of characteristic two, and turns a generator of full
multiplicative order into a field.

Nothing here fixes the width of the words or the reduction polynomial.
-/

namespace BinaryField

open Finset

/-! ## Splitting a word -/

theorem low_xor_high (w k : Nat) : (w &&& (2 ^ k - 1)) ^^^ ((w >>> k) <<< k) = w := by
  refine Nat.eq_of_testBit_eq fun i => ?_
  by_cases hi : i < k
  · simp [hi, Nat.not_le.mpr hi]
  · simp [hi, Nat.le_of_not_lt hi]

theorem low_or_high (w k : Nat) : (w &&& (2 ^ k - 1)) ||| ((w >>> k) <<< k) = w := by
  refine Nat.eq_of_testBit_eq fun i => ?_
  by_cases hi : i < k
  · simp [hi]
  · simp [Nat.le_of_not_lt hi]

section WordEval

variable {R : Type*} [CommRing R]

/-- The ring element that the low `m` bits of the word `w` stand for. -/
def wordEval (x : R) (m w : Nat) : R :=
  ∑ i ∈ range m, if w.testBit i then x ^ i else 0

@[simp]
theorem wordEval_zero (x : R) (m : Nat) : wordEval x m 0 = 0 := by
  simp [wordEval]

@[simp]
theorem wordEval_width_zero (x : R) (w : Nat) : wordEval x 0 w = 0 := by
  simp [wordEval]

/-- The top bit of the word, split off. -/
theorem wordEval_succ (x : R) (m w : Nat) :
    wordEval x (m + 1) w = wordEval x m w + if w.testBit m then x ^ m else 0 := by
  simp [wordEval, Finset.sum_range_succ]

variable {m poly w a b : Nat} {x : R}

theorem wordEval_one (x : R) (hm : 0 < m) : wordEval x m 1 = 1 := by
  unfold wordEval
  rw [Finset.sum_eq_single_of_mem 0 (mem_range.mpr hm)]
  · simp
  · intro i _ hi
    simp [Nat.testBit_one_eq_true_iff_self_eq_zero, hi]

/-- Xor of words is addition, because the ring has characteristic two. -/
theorem wordEval_xor [CharP R 2] (x : R) (m a b : Nat) :
    wordEval x m (a ^^^ b) = wordEval x m a + wordEval x m b := by
  unfold wordEval
  rw [← Finset.sum_add_distrib]
  refine Finset.sum_congr rfl fun i _ => ?_
  rw [Nat.testBit_xor]
  cases a.testBit i <;> cases b.testBit i <;> simp [CharTwo.add_self_eq_zero]

/-- Shift left by one place inside `m + 1` bits and reduce by the word `poly`
when a bit leaves at the top. -/
def shiftReduce (m poly w : Nat) : Nat :=
  ((w <<< 1) &&& (2 ^ (m + 1) - 1)) ^^^ ((w >>> m) * poly)

theorem shiftReduce_lt (hpoly : poly < 2 ^ (m + 1)) (hw : w < 2 ^ (m + 1)) :
    shiftReduce m poly w < 2 ^ (m + 1) := by
  have hcarry : w >>> m < 2 := by
    rw [Nat.shiftRight_eq_div_pow]
    exact Nat.div_lt_of_lt_mul (by rw [← pow_succ]; exact hw)
  refine Nat.xor_lt_two_pow ?_ ?_
  · rw [Nat.and_two_pow_sub_one_eq_mod]
    exact Nat.mod_lt _ (by positivity)
  · interval_cases w >>> m <;> simp [hpoly]

/-- The word left after the shift, without the reduction. -/
private theorem wordEval_shiftLeft_mask (x : R) (m w : Nat) :
    wordEval x (m + 1) ((w <<< 1) &&& (2 ^ (m + 1) - 1)) = x * wordEval x m w := by
  unfold wordEval
  rw [Finset.sum_range_succ', Finset.mul_sum]
  have hlast : ((w <<< 1) &&& (2 ^ (m + 1) - 1)).testBit 0 = false := by
    simp
  rw [hlast]
  simp only [Bool.false_eq_true, if_false, add_zero]
  refine Finset.sum_congr rfl fun i hi => ?_
  have hbit : ((w <<< 1) &&& (2 ^ (m + 1) - 1)).testBit (i + 1) = w.testBit i := by
    have him : i < m := mem_range.mp hi
    simp [him]
  rw [hbit, mul_ite, mul_zero, ← pow_succ']

/-- **Shift with reduction is multiplication by the generator**, provided the
generator satisfies the reduction relation. -/
theorem wordEval_shiftReduce [CharP R 2]
    (hx : x ^ (m + 1) = wordEval x (m + 1) poly) (hw : w < 2 ^ (m + 1)) :
    wordEval x (m + 1) (shiftReduce m poly w) = x * wordEval x (m + 1) w := by
  have hcarry : w >>> m = if w.testBit m then 1 else 0 := by
    have hlt : w >>> m < 2 := by
      rw [Nat.shiftRight_eq_div_pow]
      exact Nat.div_lt_of_lt_mul (by rw [← pow_succ]; exact hw)
    have hbit : w.testBit m = decide (w >>> m % 2 = 1) := by
      rw [Nat.testBit_eq_decide_div_mod_eq, Nat.shiftRight_eq_div_pow]
    rw [hbit]
    interval_cases w >>> m <;> simp
  rw [shiftReduce, wordEval_xor, wordEval_shiftLeft_mask, wordEval_succ x m w, mul_add, hcarry]
  split
  · rw [one_mul, ← hx, pow_succ']
  · simp

/-- A shift that loses no bit is multiplication by a power of the generator. -/
theorem wordEval_shiftLeft (x : R) {k : Nat} (hw : w < 2 ^ (m - k)) (hk : k ≤ m) :
    wordEval x m (w <<< k) = x ^ k * wordEval x m w := by
  have hhigh : ∀ i, m - k ≤ i → w.testBit i = false := fun i hi =>
    Nat.testBit_lt_two_pow (hw.trans_le (Nat.pow_le_pow_right (by decide) hi))
  obtain ⟨n, rfl⟩ := Nat.exists_eq_add_of_le hk
  have hlow : wordEval x (k + n) w = ∑ i ∈ range n, if w.testBit i then x ^ i else 0 := by
    rw [wordEval, add_comm k n, Finset.sum_range_add, Finset.sum_eq_zero (s := range k), add_zero]
    intro i _
    simp [hhigh (n + i) (by omega)]
  rw [hlow, wordEval, Finset.sum_range_add, Finset.sum_eq_zero (s := range k), zero_add,
    Finset.mul_sum]
  · refine Finset.sum_congr rfl fun i _ => ?_
    simp [pow_add]
  · intro i hi
    simp [Nat.not_le.mpr (mem_range.mp hi)]

/-- Shift-and-add product, from the top bit of `b` down.  `step` multiplies by
the generator. -/
def hornerMul (step : Nat → Nat) (a b : Nat) : Nat → Nat → Nat
  | 0, acc => acc
  | n + 1, acc => hornerMul step a b n (step acc ^^^ if b.testBit n then a else 0)

theorem wordEval_hornerMul [CharP R 2] {step : Nat → Nat} (hlt : ∀ w < 2 ^ m, step w < 2 ^ m)
    (hstep : ∀ w < 2 ^ m, wordEval x m (step w) = x * wordEval x m w) (ha : a < 2 ^ m)
    (n acc : Nat) (hacc : acc < 2 ^ m) :
    hornerMul step a b n acc < 2 ^ m ∧
      wordEval x m (hornerMul step a b n acc)
        = x ^ n * wordEval x m acc + wordEval x m a * wordEval x n b := by
  induction n generalizing acc with
  | zero => simp [hornerMul, hacc]
  | succ n ih =>
    have hpick : (if b.testBit n then a else 0) < 2 ^ m := by
      split
      · exact ha
      · positivity
    obtain ⟨hbound, hvalue⟩ := ih _ (Nat.xor_lt_two_pow (hlt acc hacc) hpick)
    refine ⟨hbound, ?_⟩
    rw [hornerMul, hvalue, wordEval_xor, hstep acc hacc, wordEval_succ]
    split
    · ring
    · rw [wordEval_zero]
      ring

/-- Distinct words stand for distinct elements when the powers of the generator
below `m` are independent. -/
theorem wordEval_injective [Algebra (ZMod 2) R]
    (hind : LinearIndependent (ZMod 2) (fun i : Fin m => x ^ (i : Nat))) (ha : a < 2 ^ m)
    (hb : b < 2 ^ m)
    (h : wordEval x m a = wordEval x m b) : a = b := by
  have hsum : ∀ w : Nat, wordEval x m w
      = ∑ i : Fin m, (if w.testBit i then (1 : ZMod 2) else 0) • x ^ (i : Nat) := by
    intro w
    rw [wordEval, Finset.sum_range]
    refine Finset.sum_congr rfl fun i _ => ?_
    split <;> simp
  rw [hsum, hsum] at h
  have hcoord := Fintype.linearIndependent_iffₛ.mp hind _ _ h
  refine Nat.eq_of_testBit_eq fun i => ?_
  by_cases hi : i < m
  · have := hcoord ⟨i, hi⟩
    by_cases hai : a.testBit i <;> by_cases hbi : b.testBit i <;> simp_all
  · have hpow : 2 ^ m ≤ 2 ^ i := Nat.pow_le_pow_right (by decide) (Nat.le_of_not_lt hi)
    rw [Nat.testBit_lt_two_pow (by omega), Nat.testBit_lt_two_pow (by omega)]

end WordEval

section FullOrder

variable {R : Type*} [CommRing R] [Finite R] [Nontrivial R]

/-- An element whose order is one less than the size of the ring reaches every
nonzero element of the ring. -/
theorem exists_pow_eq_of_orderOf {x : R} (hpos : 0 < orderOf x)
    (hcard : orderOf x + 1 = Nat.card R) {a : R} (ha : a ≠ 0) :
    ∃ k < orderOf x, x ^ k = a := by
  classical
  have : Fintype R := Fintype.ofFinite R
  have hunit : IsUnit x := IsUnit.of_pow_eq_one (pow_orderOf_eq_one x) hpos.ne'
  let powers : Finset R := (range (orderOf x)).image (x ^ ·)
  have hpowers : powers.card = orderOf x := by
    rw [Finset.card_image_of_injOn, card_range]
    intro i hi j hj hij
    exact pow_injOn_Iio_orderOf (by simpa using hi) (by simpa using hj) hij
  have hsub : powers ⊆ univ.erase 0 := by
    intro b hb
    obtain ⟨k, _, rfl⟩ := mem_image.mp hb
    exact mem_erase.mpr ⟨(hunit.pow k).ne_zero, mem_univ _⟩
  have hall : powers = univ.erase 0 := by
    refine Finset.eq_of_subset_of_card_le hsub ?_
    rw [card_erase_of_mem (mem_univ _), hpowers, card_univ, ← Nat.card_eq_fintype_card]
    omega
  have hmem : a ∈ powers := by
    rw [hall]
    exact mem_erase.mpr ⟨ha, mem_univ _⟩
  obtain ⟨k, hk, hka⟩ := mem_image.mp hmem
  exact ⟨k, mem_range.mp hk, hka⟩

/-- **A finite commutative ring with an element of full order is a field.** -/
theorem isField_of_orderOf {x : R} (hpos : 0 < orderOf x)
    (hcard : orderOf x + 1 = Nat.card R) : IsField R where
  exists_pair_ne := ⟨0, 1, zero_ne_one⟩
  mul_comm := mul_comm
  mul_inv_cancel := by
    intro a ha
    obtain ⟨k, hk, rfl⟩ := exists_pow_eq_of_orderOf hpos hcard ha
    refine ⟨x ^ (orderOf x - k), ?_⟩
    rw [← pow_add, Nat.add_sub_of_le hk.le, pow_orderOf_eq_one]

end FullOrder

end BinaryField
