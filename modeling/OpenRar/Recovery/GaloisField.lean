import OpenRar.Foundation.BinaryField
import OpenRar.Foundation.LuInversion

/-!
# The field tables of the recovery code

`recovery/rs16.cpp` computes in `GF(2^16)` with the field polynomial
`x^16 + x^12 + x^3 + x + 1`.  Products and inverses are read from two tables
that one loop fills by walking through the powers of the generator.

The module embeds the table construction and the two table look-ups, and shows
that they compute in the quotient of `(ZMod 2)[X]` by the field polynomial.  The
loop reaches every nonzero word because the generator has full order; the order
is checked by squaring, on words.
-/

namespace OpenRar.Recovery

open BinaryField LuInversion Polynomial

/-- `GF_SIZE`: the number of nonzero field elements. -/
def gfSize : Nat := 65535

/-- Multiply by the generator: the body of the table loop. -/
def timesAlpha (v : Nat) : Nat :=
  ((v <<< 1) &&& 0xFFFF) ^^^ ((v >>> 15) * 0x100B)

/-- The two flat tables. -/
structure GfField where
  power : Array Nat
  exponent : Array Nat

/-- The loop of the constructor after `i` rounds, with its running value `v`. -/
def GfField.fill : Nat → Nat × GfField
  | 0 => (1, { power := Array.replicate gfSize 0, exponent := Array.replicate (gfSize + 1) 0 })
  | i + 1 =>
    let (v, field) := GfField.fill i
    (timesAlpha v,
      { power := field.power.setIfInBounds i v
        exponent := field.exponent.setIfInBounds v i })

/-- The last write of the constructor.  The entry for zero is never read. -/
def GfField.clearZero (field : GfField) : GfField :=
  { field with exponent := field.exponent.setIfInBounds 0 0 }

/-- `shared_gf_field`: the finished tables. -/
def sharedGfField : GfField := (GfField.fill gfSize).2.clearZero

def logarithm (a : Nat) : Nat := sharedGfField.exponent.getD a 0

def antilog (e : Nat) : Nat := sharedGfField.power.getD e 0

def gfAdd (a b : Nat) : Nat := a ^^^ b

/-- Product through the tables; zero and out-of-range operands give zero. -/
def gfMul (a b : Nat) : Nat :=
  if a = 0 ∨ b = 0 ∨ a > gfSize ∨ b > gfSize then 0
  else
    let sum := logarithm a + logarithm b
    antilog (if sum ≥ gfSize then sum - gfSize else sum)

/-- Inverse through the tables; zero and out-of-range operands give zero. -/
def gfInv (a : Nat) : Nat :=
  if a = 0 ∨ a > gfSize then 0
  else
    let e := logarithm a
    if e = 0 then 1 else antilog (gfSize - e)

/-- The field operations in the form the elimination takes them. -/
def gfOps : FieldOps Nat where
  zero := 0
  one := 1
  add := gfAdd
  mul := gfMul
  inv := gfInv

/-! ## The quotient ring -/

/-- The field polynomial of `rs16.hpp`. -/
noncomputable def gfPoly : (ZMod 2)[X] := X ^ 16 + X ^ 12 + X ^ 3 + X + 1

theorem gfPoly_monic : gfPoly.Monic := by
  unfold gfPoly
  monicity!

theorem gfPoly_natDegree : gfPoly.natDegree = 16 := by
  unfold gfPoly
  compute_degree!

/-- The ring that the words stand for. -/
abbrev GfRing := AdjoinRoot gfPoly

/-- The generator `x`. -/
noncomputable abbrev alpha : GfRing := AdjoinRoot.root gfPoly

instance : Nontrivial GfRing := by
  refine AdjoinRoot.nontrivial _ ?_
  rw [Polynomial.degree_eq_natDegree gfPoly_monic.ne_zero, gfPoly_natDegree]
  decide

instance : CharP GfRing 2 :=
  charP_of_injective_algebraMap (algebraMap (ZMod 2) GfRing).injective 2

instance : Module.Finite (ZMod 2) GfRing := gfPoly_monic.finite_adjoinRoot

instance : Finite GfRing := Module.finite_of_finite (ZMod 2)

theorem natCard_gfRing : Nat.card GfRing = gfSize + 1 := by
  rw [Module.natCard_eq_pow_finrank (K := ZMod 2), (AdjoinRoot.powerBasis' gfPoly_monic).finrank]
  simp [gfPoly_natDegree, gfSize]

/-- The element of the ring that a word stands for. -/
noncomputable def toGf (w : Nat) : GfRing := wordEval alpha 16 w

theorem alpha_pow_sixteen : alpha ^ 16 = wordEval alpha 16 0x100B := by
  have hroot : alpha ^ 16 + (alpha ^ 12 + alpha ^ 3 + alpha + 1) = 0 := by
    have hself : AdjoinRoot.mk gfPoly (X ^ 16 + X ^ 12 + X ^ 3 + X + 1) = 0 :=
      AdjoinRoot.mk_self
    simpa [add_assoc] using hself
  have hbits : (Finset.range 16).filter (fun i => Nat.testBit 0x100B i) = {0, 1, 3, 12} := by
    decide
  rw [CharTwo.add_eq_zero.mp hroot, wordEval, ← Finset.sum_filter, hbits]
  simp
  ring

variable {a b i : Nat}

theorem toGf_injective (ha : a < 65536) (hb : b < 65536) (h : toGf a = toGf b) : a = b := by
  have hdim : (AdjoinRoot.powerBasis' gfPoly_monic).dim = 16 := gfPoly_natDegree
  have hind : LinearIndependent (ZMod 2) (fun i : Fin 16 => alpha ^ (i : Nat)) := by
    have hbasis := (AdjoinRoot.powerBasis' gfPoly_monic).basis.linearIndependent
    rw [(AdjoinRoot.powerBasis' gfPoly_monic).coe_basis] at hbasis
    exact (linearIndependent_equiv (finCongr hdim.symm)).mpr hbasis
  exact wordEval_injective hind ha hb h

@[simp]
theorem toGf_zero : toGf 0 = 0 := wordEval_zero _ _

@[simp]
theorem toGf_one : toGf 1 = 1 := wordEval_one _ (by decide)

theorem toGf_eq_zero (ha : a < 65536) (h : toGf a = 0) : a = 0 :=
  toGf_injective ha (by decide) (by rw [h, toGf_zero])

theorem toGf_gfAdd (a b : Nat) : toGf (gfAdd a b) = toGf a + toGf b :=
  wordEval_xor _ _ _ _

theorem timesAlpha_lt {v : Nat} (hv : v < 65536) : timesAlpha v < 65536 :=
  shiftReduce_lt (m := 15) (by decide) hv

theorem toGf_timesAlpha {v : Nat} (hv : v < 65536) : toGf (timesAlpha v) = alpha * toGf v :=
  wordEval_shiftReduce (m := 15) alpha_pow_sixteen hv

/-! ## The generator has full order -/

/-- Product of two words by shift and add, to evaluate powers of the generator. -/
def wordMul (a b : Nat) : Nat := hornerMul timesAlpha a b 16 0

theorem wordMul_spec (ha : a < 65536) :
    wordMul a b < 65536 ∧ toGf (wordMul a b) = toGf a * toGf b := by
  have h := wordEval_hornerMul (m := 16) (b := b) (fun _ hw => timesAlpha_lt hw)
    (fun _ hw => toGf_timesAlpha hw) ha 16 0 (by decide)
  refine ⟨h.1, ?_⟩
  rw [wordMul, toGf, h.2, wordEval_zero, mul_zero, zero_add]
  rfl

/-- `alpha ^ k` as a word, by squaring; `bits` bounds the length of `k`. -/
def alphaPow : Nat → Nat → Nat
  | 0, _ => 1
  | bits + 1, k =>
    let half := alphaPow bits (k / 2)
    let square := wordMul half half
    if k % 2 = 1 then timesAlpha square else square

theorem alphaPow_spec (bits k : Nat) (hk : k < 2 ^ bits) :
    alphaPow bits k < 65536 ∧ toGf (alphaPow bits k) = alpha ^ k := by
  induction bits generalizing k with
  | zero =>
    obtain rfl : k = 0 := by simpa using hk
    simp [alphaPow]
  | succ bits ih =>
    obtain ⟨hlt, hval⟩ := ih (k / 2) (by rw [pow_succ] at hk; omega)
    obtain ⟨hsq, hsqval⟩ := wordMul_spec (b := alphaPow bits (k / 2)) hlt
    rw [hval, ← pow_add] at hsqval
    simp only [alphaPow]
    split
    · refine ⟨timesAlpha_lt hsq, ?_⟩
      rw [toGf_timesAlpha hsq, hsqval, ← pow_succ']
      congr 1
      omega
    · refine ⟨hsq, ?_⟩
      rw [hsqval]
      congr 1
      omega

theorem alpha_pow_ne_one {k : Nat} (hk : k < 2 ^ 16) (hword : alphaPow 16 k ≠ 1) :
    alpha ^ k ≠ 1 := by
  obtain ⟨hlt, hval⟩ := alphaPow_spec 16 k hk
  intro h
  exact hword (toGf_injective hlt (by decide) (by rw [hval, h, toGf_one]))

theorem orderOf_alpha : orderOf alpha = gfSize := by
  refine orderOf_eq_of_pow_and_pow_div_prime (by decide) ?_ ?_
  · rw [← (alphaPow_spec 16 gfSize (by decide)).2, show alphaPow 16 gfSize = 1 by decide +kernel,
      toGf_one]
  · intro p hp hdvd
    have hfactor : gfSize = 3 * 5 * 17 * 257 := by decide
    rw [hfactor, hp.dvd_mul, hp.dvd_mul, hp.dvd_mul,
      Nat.prime_dvd_prime_iff_eq hp (by norm_num), Nat.prime_dvd_prime_iff_eq hp (by norm_num),
      Nat.prime_dvd_prime_iff_eq hp (by norm_num),
      Nat.prime_dvd_prime_iff_eq hp (by norm_num)] at hdvd
    rcases hdvd with ((rfl | rfl) | rfl) | rfl <;>
      exact alpha_pow_ne_one (by decide) (by decide +kernel)

theorem alpha_pow_gfSize : alpha ^ gfSize = 1 := by
  rw [← orderOf_alpha, pow_orderOf_eq_one]

/-- **The words form a field.** -/
noncomputable instance : Field GfRing :=
  (isField_of_orderOf (x := alpha) (by rw [orderOf_alpha]; decide)
    (by rw [orderOf_alpha, natCard_gfRing])).toField

/-! ## The table loop -/

/-- The running value of the table loop in round `i`. -/
def gfWord (i : Nat) : Nat := timesAlpha^[i] 1

theorem gfWord_spec (i : Nat) : gfWord i < 65536 ∧ toGf (gfWord i) = alpha ^ i := by
  induction i with
  | zero => simp [gfWord]
  | succ i ih =>
    rw [gfWord, Function.iterate_succ_apply']
    refine ⟨timesAlpha_lt ih.1, ?_⟩
    change toGf (timesAlpha (gfWord i)) = _
    rw [toGf_timesAlpha ih.1, ih.2, pow_succ']

theorem gfWord_injective {j : Nat} (hi : i < gfSize) (hj : j < gfSize) (h : gfWord i = gfWord j) :
    i = j := by
  have hpow : alpha ^ i = alpha ^ j := by rw [← (gfWord_spec i).2, ← (gfWord_spec j).2, h]
  refine pow_injOn_Iio_orderOf ?_ ?_ hpow <;> simpa [orderOf_alpha]

/-- The loop visits every nonzero word. -/
theorem exists_gfWord_eq (ha : a < 65536) (hpos : a ≠ 0) :
    ∃ i < gfSize, gfWord i = a := by
  have hne : toGf a ≠ 0 := fun h => hpos (toGf_eq_zero ha h)
  obtain ⟨i, hi, hia⟩ := exists_pow_eq_of_orderOf (x := alpha)
    (by rw [orderOf_alpha]; decide) (by rw [orderOf_alpha, natCard_gfRing]) hne
  rw [orderOf_alpha] at hi
  refine ⟨i, hi, toGf_injective (gfWord_spec i).1 ha ?_⟩
  rw [(gfWord_spec i).2, hia]

/-- What the loop has written after `i` rounds. -/
structure FillInvariant (i : Nat) (s : Nat × GfField) : Prop where
  value : s.1 = gfWord i
  powerSize : s.2.power.size = gfSize
  exponentSize : s.2.exponent.size = gfSize + 1
  power : ∀ j < i, s.2.power[j]? = some (gfWord j)
  exponent : ∀ j < i, s.2.exponent[gfWord j]? = some j

theorem fill_run (i : Nat) (hi : i ≤ gfSize) : FillInvariant i (GfField.fill i) := by
  induction i with
  | zero =>
    refine ⟨rfl, ?_, ?_, ?_, ?_⟩ <;> simp [GfField.fill]
  | succ i ih =>
    have h := ih (by omega)
    have hbound : gfWord i < gfSize + 1 := (gfWord_spec i).1
    simp only [GfField.fill, h.value]
    refine ⟨?_, by simp [h.powerSize], by simp [h.exponentSize], ?_, ?_⟩
    · simp [gfWord, Function.iterate_succ_apply']
    · intro j hj
      rw [Array.getElem?_setIfInBounds, h.powerSize]
      rcases Nat.lt_succ_iff_lt_or_eq.mp hj with hj | rfl
      · rw [if_neg (by omega)]
        exact h.power j hj
      · rw [if_pos rfl, if_pos (by omega)]
    · intro j hj
      rw [Array.getElem?_setIfInBounds, h.exponentSize]
      rcases Nat.lt_succ_iff_lt_or_eq.mp hj with hj | rfl
      · rw [if_neg fun heq => by have := gfWord_injective (by omega) (by omega) heq; omega]
        exact h.exponent j hj
      · rw [if_pos rfl, if_pos hbound]

theorem GfField.clearZero_power (field : GfField) : field.clearZero.power = field.power := rfl

theorem GfField.clearZero_exponent (field : GfField) (ha : a ≠ 0) :
    field.clearZero.exponent[a]? = field.exponent[a]? := by
  rw [GfField.clearZero, Array.getElem?_setIfInBounds, if_neg (Ne.symm ha)]

theorem antilog_eq (hi : i < gfSize) : antilog i = gfWord i := by
  have h := (fill_run gfSize le_rfl).power i hi
  rw [antilog, Array.getD_eq_getD_getElem?, sharedGfField, GfField.clearZero_power, h]
  rfl

theorem logarithm_gfWord (hi : i < gfSize) : logarithm (gfWord i) = i := by
  have hinv := fill_run gfSize le_rfl
  have halpha : alpha ≠ 0 := by
    intro hzero
    have hfull := pow_orderOf_eq_one alpha
    rw [orderOf_alpha, hzero, zero_pow (by decide)] at hfull
    exact zero_ne_one hfull
  have hne : gfWord i ≠ 0 := by
    intro hzero
    have hpow := (gfWord_spec i).2
    rw [hzero, toGf_zero] at hpow
    exact pow_ne_zero i halpha hpow.symm
  rw [logarithm, Array.getD_eq_getD_getElem?, sharedGfField, GfField.clearZero_exponent _ hne,
    hinv.exponent i hi]
  rfl

/-! ## Products and inverses -/

theorem gfMul_spec (ha : a < 65536) (hb : b < 65536) :
    gfMul a b < 65536 ∧ toGf (gfMul a b) = toGf a * toGf b := by
  by_cases hzero : a = 0 ∨ b = 0
  · have hguard : a = 0 ∨ b = 0 ∨ a > gfSize ∨ b > gfSize := by tauto
    rw [gfMul, if_pos hguard]
    rcases hzero with rfl | rfl <;> simp
  · push Not at hzero
    obtain ⟨i, hi, rfl⟩ := exists_gfWord_eq ha hzero.1
    obtain ⟨j, hj, rfl⟩ := exists_gfWord_eq hb hzero.2
    have hguard : ¬ (gfWord i = 0 ∨ gfWord j = 0 ∨ gfWord i > gfSize ∨ gfWord j > gfSize) := by
      have hsize : gfSize = 65535 := rfl
      omega
    rw [gfMul, if_neg hguard, logarithm_gfWord hi, logarithm_gfWord hj, (gfWord_spec i).2,
      (gfWord_spec j).2, ← pow_add]
    dsimp only
    split
    · next hwrap =>
      obtain ⟨k, hk⟩ := Nat.exists_eq_add_of_le hwrap
      rw [hk, Nat.add_sub_cancel_left, antilog_eq (by omega)]
      refine ⟨(gfWord_spec _).1, ?_⟩
      rw [(gfWord_spec _).2, pow_add, alpha_pow_gfSize, one_mul]
    · rw [antilog_eq (by omega)]
      exact gfWord_spec _

theorem gfInv_spec (ha : a < 65536) :
    gfInv a < 65536 ∧ toGf (gfInv a) = (toGf a)⁻¹ := by
  by_cases hzero : a = 0
  · subst hzero
    simp [gfInv]
  · obtain ⟨i, hi, rfl⟩ := exists_gfWord_eq ha hzero
    have hguard : ¬ (gfWord i = 0 ∨ gfWord i > gfSize) := by
      have hsize : gfSize = 65535 := rfl
      omega
    rw [gfInv, if_neg hguard, logarithm_gfWord hi, (gfWord_spec i).2]
    dsimp only
    split
    · next h0 =>
      subst h0
      simp
    · rw [antilog_eq (by omega)]
      refine ⟨(gfWord_spec _).1, ?_⟩
      rw [(gfWord_spec _).2]
      refine eq_inv_of_mul_eq_one_left ?_
      rw [← pow_add, Nat.sub_add_cancel hi.le, alpha_pow_gfSize]

/-- **The table operations compute in the field.** -/
theorem gfOps_represents : Represents gfOps (· < 65536) toGf where
  zero_valid := by decide
  one_valid := by decide
  add_valid := fun ha hb => Nat.xor_lt_two_pow (n := 16) ha hb
  mul_valid := fun ha hb => (gfMul_spec ha hb).1
  inv_valid := fun ha => (gfInv_spec ha).1
  map_zero := toGf_zero
  map_one := toGf_one
  map_add := fun _ _ => toGf_gfAdd _ _
  map_mul := fun ha hb => (gfMul_spec ha hb).2
  map_inv := fun ha => (gfInv_spec ha).2
  eq_zero := fun ha h => toGf_eq_zero ha h

end OpenRar.Recovery
