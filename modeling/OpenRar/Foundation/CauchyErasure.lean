import OpenRar.Foundation.LuInversion

/-!
# Erasure recovery from a Cauchy generator

Two facts over an arbitrary field.  A square Cauchy matrix with distinct
coordinates is nonsingular, by counting the roots of a polynomial.  And, in
characteristic two, the recovery rows that a systematic erasure decoder builds
from an inverse of the erased part return the erased unit when they are applied
to the vector in which substitutes stand in for the erased units.
-/

namespace CauchyErasure

open Finset Polynomial LuInversion

variable {K : Type*} [Field K]

/-- The numerator of `∑ aₖ / (X - yₖ)` over the common denominator. -/
private noncomputable def numerator (a y : Nat → K) (n : Nat) : K[X] :=
  ∑ c ∈ range n, C (a c) * ∏ j ∈ (range n).erase c, (X - C (y j))

private theorem numerator_degree_lt (a y : Nat → K) {n : Nat} :
    (numerator a y n).degree < n := by
  refine (Polynomial.degree_sum_le _ _).trans_lt ?_
  refine (Finset.sup_lt_iff (WithBot.bot_lt_coe n)).mpr fun c hc => ?_
  have hconst : (C (a c)).degree ≤ 0 := degree_C_le
  have hprod : (∏ j ∈ (range n).erase c, (X - C (y j))).degree < (n : WithBot Nat) := by
    rw [Polynomial.degree_prod]
    simp only [degree_X_sub_C, sum_const, card_erase_of_mem hc, card_range, nsmul_eq_mul, mul_one]
    have hpos := mem_range.mp hc
    exact_mod_cast (show n - 1 < n by omega)
  calc (C (a c) * ∏ j ∈ (range n).erase c, (X - C (y j))).degree
      ≤ (C (a c)).degree + (∏ j ∈ (range n).erase c, (X - C (y j))).degree := degree_mul_le _ _
    _ ≤ 0 + (∏ j ∈ (range n).erase c, (X - C (y j))).degree := by gcongr
    _ < n := by rwa [zero_add]

private theorem eval_numerator (a y : Nat → K) (n : Nat) (t : K) :
    (numerator a y n).eval t
      = ∑ c ∈ range n, a c * ∏ j ∈ (range n).erase c, (t - y j) := by
  simp [numerator, eval_finsetSum, eval_prod]

/-- **A Cauchy matrix with distinct coordinates is nonsingular.** -/
theorem cauchy_nonsingular {x y : Nat → K} {n : Nat}
    (hx : Set.InjOn x (range n)) (hy : Set.InjOn y (range n))
    (hxy : ∀ r < n, ∀ c < n, x r ≠ y c) :
    Nonsingular (fun r c => (x r - y c)⁻¹) n := by
  classical
  intro a ha
  -- the numerator has the `n` roots `x r`, which is more than its degree allows
  have hzero : numerator a y n = 0 := by
    refine Polynomial.eq_zero_of_degree_lt_of_eval_finset_eq_zero ((range n).image x) ?_ ?_
    · rw [Finset.card_image_of_injOn hx, card_range]
      exact numerator_degree_lt a y
    · intro t ht
      obtain ⟨r, hr, rfl⟩ := mem_image.mp ht
      have hr := mem_range.mp hr
      rw [eval_numerator]
      calc ∑ c ∈ range n, a c * ∏ j ∈ (range n).erase c, (x r - y j)
          = ∑ c ∈ range n, (∏ j ∈ range n, (x r - y j)) * ((x r - y c)⁻¹ * a c) := by
            refine Finset.sum_congr rfl fun c hc => ?_
            have hne : x r - y c ≠ 0 := sub_ne_zero.mpr (hxy r hr c (mem_range.mp hc))
            rw [← Finset.mul_prod_erase (range n) (fun j => x r - y j) hc]
            field_simp
        _ = 0 := by rw [← Finset.mul_sum, ha r hr, mul_zero]
  intro c hc
  have heval : (numerator a y n).eval (y c) = 0 := by rw [hzero, eval_zero]
  rw [eval_numerator, Finset.sum_eq_single_of_mem c (mem_range.mpr hc)] at heval
  · refine (mul_eq_zero.mp heval).resolve_right (Finset.prod_ne_zero_iff.mpr fun j hj => ?_)
    obtain ⟨hjc, hj⟩ := mem_erase.mp hj
    exact sub_ne_zero.mpr fun h => hjc (hy (by simpa using hj) (by simpa using hc) h.symm)
  · intro j _ hjc
    refine mul_eq_zero_of_right _ (Finset.prod_eq_zero (i := c) ?_ (sub_self _))
    exact mem_erase.mpr ⟨hjc.symm, mem_range.mpr hc⟩

theorem left_inverse_of_right_inverse {A S : Nat → Nat → K} {n : Nat}
    (h : ∀ r < n, ∀ c < n, ∑ j ∈ range n, A r j * S j c = if r = c then 1 else 0)
    {r c : Nat} (hr : r < n) (hc : c < n) :
    ∑ j ∈ range n, S r j * A j c = if r = c then 1 else 0 := by
  let MA : Matrix (Fin n) (Fin n) K := Matrix.of fun i j => A i j
  let MS : Matrix (Fin n) (Fin n) K := Matrix.of fun i j => S i j
  have hright : MA * MS = 1 := by
    ext i j
    rw [Matrix.mul_apply, Matrix.one_apply]
    simpa [MA, MS, Finset.sum_range, Fin.ext_iff] using h i i.is_lt j j.is_lt
  have hprod : MS * MA = 1 := mul_eq_one_comm.mp hright
  have hleft : (MS * MA) ⟨r, hr⟩ ⟨c, hc⟩ = (1 : Matrix (Fin n) (Fin n) K) ⟨r, hr⟩ ⟨c, hc⟩ := by
    rw [hprod]
  rw [Matrix.mul_apply, Matrix.one_apply] at hleft
  simpa [MA, MS, Finset.sum_range] using hleft

section Recovery

variable {nd ne : Nat} {healthy : Nat → Prop} [DecidablePred healthy] {erased : Nat → Nat}

/-- A sum over all units, split into the healthy ones and the erased ones. -/
theorem sum_units_split {M : Type*} [AddCommMonoid M] (hinj : Set.InjOn erased (range ne))
    (hrange : ∀ r < ne, erased r < nd ∧ ¬ healthy (erased r))
    (honto : ∀ d < nd, ¬ healthy d → ∃ r < ne, erased r = d) (f : Nat → M) :
    ∑ d ∈ range nd, f d
      = ∑ d ∈ range nd with healthy d, f d + ∑ r ∈ range ne, f (erased r) := by
  rw [← Finset.sum_filter_add_sum_filter_not (range nd) healthy f]
  congr 1
  rw [← Finset.sum_image (f := f) hinj]
  refine Finset.sum_congr ?_ fun _ _ => rfl
  ext d
  simp only [mem_filter, mem_image, mem_range]
  constructor
  · rintro ⟨hd, hbad⟩
    exact honto d hd hbad
  · rintro ⟨r, hr, rfl⟩
    exact hrange r hr

/-- **Recovery rows return the erased units.**  `G` is the parity generator,
`parity i` the parity unit of the `i`-th substitute, `S` a left inverse of the
erased part of the substitutes' rows.  The row weights a healthy unit by
`∑ᵢ S k i * G i d` and the slot of the `r`-th erased unit, which holds the
`r`-th substitute, by `S k r`. -/
theorem recovery_row [CharP K 2] (hinj : Set.InjOn erased (range ne))
    (hrange : ∀ r < ne, erased r < nd ∧ ¬ healthy (erased r))
    (honto : ∀ d < nd, ¬ healthy d → ∃ r < ne, erased r = d)
    {G S : Nat → Nat → K} {D parity row W : Nat → K} {k : Nat} (hk : k < ne)
    (hparity : ∀ i < ne, parity i = ∑ d ∈ range nd, G i d * D d)
    (hS : ∀ c < ne, ∑ i ∈ range ne, S k i * G i (erased c) = if k = c then 1 else 0)
    (hrowHealthy : ∀ d < nd, healthy d → row d = ∑ i ∈ range ne, S k i * G i d)
    (hrowErased : ∀ r < ne, row (erased r) = S k r)
    (hWhealthy : ∀ d < nd, healthy d → W d = D d)
    (hWerased : ∀ r < ne, W (erased r) = parity r) :
    ∑ d ∈ range nd, row d * W d = D (erased k) := by
  -- what the healthy units contribute to one substitute equation
  let known : Nat → K := fun i => ∑ d ∈ range nd with healthy d, G i d * D d
  have hhealthy : ∑ d ∈ range nd with healthy d, row d * W d
      = ∑ i ∈ range ne, S k i * known i := by
    calc ∑ d ∈ range nd with healthy d, row d * W d
        = ∑ d ∈ range nd with healthy d, ∑ i ∈ range ne, S k i * (G i d * D d) := by
          refine Finset.sum_congr rfl fun d hd => ?_
          obtain ⟨hd, hok⟩ := mem_filter.mp hd
          rw [hrowHealthy d (mem_range.mp hd) hok, hWhealthy d (mem_range.mp hd) hok,
            Finset.sum_mul]
          simp_rw [mul_assoc]
      _ = ∑ i ∈ range ne, S k i * known i := by
          rw [Finset.sum_comm]
          simp_rw [known, Finset.mul_sum]
  have herased : ∑ r ∈ range ne, row (erased r) * W (erased r)
      = ∑ i ∈ range ne, S k i * (known i + ∑ r ∈ range ne, G i (erased r) * D (erased r)) := by
    refine Finset.sum_congr rfl fun r hr => ?_
    have hr := mem_range.mp hr
    rw [hrowErased r hr, hWerased r hr, hparity r hr, sum_units_split hinj hrange honto]
  rw [sum_units_split hinj hrange honto, hhealthy, herased, ← Finset.sum_add_distrib]
  calc ∑ i ∈ range ne, (S k i * known i
          + S k i * (known i + ∑ r ∈ range ne, G i (erased r) * D (erased r)))
      = ∑ i ∈ range ne, S k i * ∑ r ∈ range ne, G i (erased r) * D (erased r) := by
        refine Finset.sum_congr rfl fun i _ => ?_
        rw [mul_add, ← add_assoc, CharTwo.add_self_eq_zero, zero_add]
    _ = ∑ r ∈ range ne, (∑ i ∈ range ne, S k i * G i (erased r)) * D (erased r) := by
        simp_rw [Finset.mul_sum, Finset.sum_mul]
        rw [Finset.sum_comm]
        simp_rw [mul_assoc]
    _ = D (erased k) := by
        rw [Finset.sum_eq_single_of_mem k (mem_range.mpr hk)]
        · rw [hS k hk, if_pos rfl, one_mul]
        · intro r hr hrk
          rw [hS r (mem_range.mp hr), if_neg (Ne.symm hrk), zero_mul]

end Recovery

end CauchyErasure
