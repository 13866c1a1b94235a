import Mathlib

/-!
# In-place LU inversion over machine words that stand for a field

`invert` factors a square matrix in place with a search for a nonzero pivot,
then solves one triangular system pair for every unit vector.  The entries are
machine words: `FieldOps` lists the word operations and `Represents` says that
they compute in a field of characteristic two.

The result is total correctness on the nonsingular inputs: `invert` does not
fail there and returns a right inverse.
-/

namespace LuInversion

open Finset

/-- The word operations that the elimination uses.  `add` is also subtraction. -/
structure FieldOps (α : Type*) where
  zero : α
  one : α
  add : α → α → α
  mul : α → α → α
  inv : α → α

/-- The words that satisfy `valid` represent elements of the field `K`. -/
structure Represents {α K : Type*} [Field K] (ops : FieldOps α) (valid : α → Prop)
    (φ : α → K) : Prop where
  zero_valid : valid ops.zero
  one_valid : valid ops.one
  add_valid : ∀ {a b}, valid a → valid b → valid (ops.add a b)
  mul_valid : ∀ {a b}, valid a → valid b → valid (ops.mul a b)
  inv_valid : ∀ {a}, valid a → valid (ops.inv a)
  map_zero : φ ops.zero = 0
  map_one : φ ops.one = 1
  map_add : ∀ {a b}, valid a → valid b → φ (ops.add a b) = φ a + φ b
  map_mul : ∀ {a b}, valid a → valid b → φ (ops.mul a b) = φ a * φ b
  map_inv : ∀ {a}, valid a → φ (ops.inv a) = (φ a)⁻¹
  eq_zero : ∀ {a}, valid a → φ a = 0 → a = ops.zero

section Algorithm

variable {α : Type*} [DecidableEq α] (ops : FieldOps α)

/-- The working matrix, with the input row that each working row came from. -/
structure LuState (α : Type*) where
  lu : Nat → Nat → α
  originalRow : Nat → Nat

/-- Exchange two working rows. -/
def LuState.swapRows (s : LuState α) (a b : Nat) : LuState α where
  lu := fun row => s.lu (Equiv.swap a b row)
  originalRow := fun row => s.originalRow (Equiv.swap a b row)

/-- First row at or below `col` whose entry in column `col` is nonzero. -/
def pivotRow (lu : Nat → Nat → α) (n col : Nat) : Option Nat :=
  (List.range' col (n - col)).find? fun sel => lu sel col ≠ ops.zero

/-- Clear column `col` below the pivot and leave the factors in its place.
Every row writes only itself and reads only itself and the pivot row, so the row
loop and the column loop are one pointwise update. -/
def eliminateBelow (lu : Nat → Nat → α) (n col : Nat) : Nat → Nat → α := fun row j =>
  let pivotInverse := ops.inv (lu col col)
  let factor := ops.mul (lu row col) pivotInverse
  if col < row ∧ row < n then
    if j = col then factor
    else if factor = ops.zero then lu row j
    else if col < j ∧ j < n then ops.add (lu row j) (ops.mul factor (lu col j))
    else lu row j
  else lu row j

/-- One column of the factorisation. -/
def luColumn (n col : Nat) (s : LuState α) : Option (LuState α) :=
  match pivotRow ops s.lu n col with
  | none => none
  | some sel =>
    let s := if sel ≠ col then s.swapRows sel col else s
    some { s with lu := eliminateBelow ops s.lu n col }

/-- Factor the first `k` columns. -/
def luFactor (m : Nat → Nat → α) (n : Nat) : Nat → Option (LuState α)
  | 0 => some { lu := m, originalRow := id }
  | col + 1 => (luFactor m n col).bind (luColumn ops n col)

/-- Subtract the products `a j * b j` over the listed indices from `acc`. -/
def subtractProducts (a b : Nat → α) (js : List Nat) (acc : α) : α :=
  js.foldl (fun acc j => ops.add acc (ops.mul (a j) (b j))) acc

/-- Forward substitution against the unit vector `c`, first `rows` rows. -/
def forwardSolve (s : LuState α) (c : Nat) : Nat → Nat → α
  | 0 => fun _ => ops.zero
  | row + 1 =>
    let interim := forwardSolve s c row
    let rhs := if s.originalRow row = c then ops.one else ops.zero
    Function.update interim row
      (subtractProducts ops (s.lu row) interim (List.range row) rhs)

/-- Back substitution, the last `rows` rows. -/
def backSolve (s : LuState α) (n : Nat) (interim : Nat → α) : Nat → Nat → α
  | 0 => fun _ => ops.zero
  | k + 1 =>
    let solved := backSolve s n interim k
    let row := n - 1 - k
    Function.update solved row
      (ops.mul
        (subtractProducts ops (s.lu row) solved (List.range' (row + 1) (n - (row + 1)))
          (interim row))
        (ops.inv (s.lu row row)))

/-- Invert the `n × n` matrix `m`; `none` when a column has no pivot. -/
def invert (m : Nat → Nat → α) (n : Nat) : Option (Nat → Nat → α) :=
  (luFactor ops m n n).map fun s row c =>
    backSolve ops s n (forwardSolve ops s c n) n row

end Algorithm

section Correct

variable {α K : Type*} [Field K] {ops : FieldOps α} {valid : α → Prop} {φ : α → K}

/-- The part of a packed factor on or above the diagonal. -/
def upper (a : Nat → Nat → K) (j c : Nat) : K :=
  if j ≤ c then a j c else 0

/-- What holds after `k` columns: the first `k` rows of `lu` hold the upper
factor, the entries left of the diagonal hold the multipliers, and the rest is
what remains to be factored. -/
structure LuInvariant (valid : α → Prop) (φ : α → K) (A : Nat → Nat → K) (n k : Nat)
    (s : LuState α) : Prop where
  entries : ∀ r < n, ∀ c < n, valid (s.lu r c)
  onto : ∀ i < n, ∃ r < n, s.originalRow r = i
  pivots : ∀ j < k, φ (s.lu j j) ≠ 0
  factor : ∀ r < n, ∀ c < n,
    A (s.originalRow r) c
      = ∑ j ∈ range (min r k), φ (s.lu r j) * upper (fun r c => φ (s.lu r c)) j c
        + if min r k ≤ c then φ (s.lu r c) else 0

/-- A matrix is nonsingular when only the zero vector is sent to zero. -/
def Nonsingular (A : Nat → Nat → K) (n : Nat) : Prop :=
  ∀ x : Nat → K, (∀ r < n, ∑ c ∈ range n, A r c * x c = 0) → ∀ c < n, x c = 0

variable {n k : Nat} {A : Nat → Nat → K}

theorem luInvariant_zero {m : Nat → Nat → α} (hm : ∀ r < n, ∀ c < n, valid (m r c)) :
    LuInvariant valid φ (fun r c => φ (m r c)) n 0 { lu := m, originalRow := id } where
  entries := hm
  onto := fun i hi => ⟨i, hi, rfl⟩
  pivots := fun j hj => absurd hj (Nat.not_lt_zero j)
  factor := by
    simp

variable {s : LuState α} {r : Nat} {lu : Nat → Nat → α}

/-- Exchanging two rows that are still to be factored keeps the invariant. -/
theorem LuInvariant.swapRows {sel : Nat} (h : LuInvariant valid φ A n k s)
    (hk : k < n) (hsel : sel < n) (hle : k ≤ sel) :
    LuInvariant valid φ A n k (s.swapRows sel k) := by
  have hlow : ∀ j < k, Equiv.swap sel k j = j := fun j hj =>
    Equiv.swap_apply_of_ne_of_ne (by omega) (by omega)
  have hmaps : ∀ r < n, Equiv.swap sel k r < n := by
    intro r hr
    rw [Equiv.swap_apply_def]
    split_ifs <;> omega
  have hmin : ∀ r, min (Equiv.swap sel k r) k = min r k := by
    intro r
    rw [Equiv.swap_apply_def]
    split_ifs <;> omega
  refine ⟨fun r hr c hc => h.entries _ (hmaps r hr) c hc, ?_, ?_, ?_⟩
  · intro i hi
    obtain ⟨r, hr, hri⟩ := h.onto i hi
    refine ⟨Equiv.swap sel k r, hmaps r hr, ?_⟩
    simp [LuState.swapRows, hri]
  · intro j hj
    simpa [LuState.swapRows, hlow j hj] using h.pivots j hj
  · intro r hr c hc
    have hf := h.factor _ (hmaps r hr) c hc
    rw [hmin] at hf
    simp only [LuState.swapRows]
    rw [hf]
    congr 1
    refine Finset.sum_congr rfl fun j hj => ?_
    have hjk : j < k := lt_of_lt_of_le (mem_range.mp hj) (min_le_right _ _)
    simp [upper, hlow j hjk]

/-- `k + 1` unknowns and `k` homogeneous equations have a nonzero solution. -/
private theorem exists_ne_zero_of_fewer_equations (u : Nat → Nat → K) (k : Nat) :
    ∃ x : Nat → K, (∀ j < k, ∑ c ∈ range (k + 1), u j c * x c = 0) ∧
      (∀ c, k < c → x c = 0) ∧ ∃ c ≤ k, x c ≠ 0 := by
  let f : (Fin (k + 1) → K) →ₗ[K] (Fin k → K) :=
    Matrix.mulVecLin (Matrix.of fun (j : Fin k) (c : Fin (k + 1)) => u j c)
  have hker : LinearMap.ker f ≠ ⊥ := by
    apply LinearMap.ker_ne_bot_of_finrank_lt
    simp
  obtain ⟨v, hv, hv0⟩ := Submodule.exists_mem_ne_zero_of_ne_bot hker
  obtain ⟨c, hc⟩ := Function.ne_iff.mp hv0
  refine ⟨fun c => if hc : c < k + 1 then v ⟨c, hc⟩ else 0, ?_, ?_, c, by omega, ?_⟩
  · intro j hj
    have hrow := congrFun (LinearMap.mem_ker.mp hv) ⟨j, hj⟩
    rw [Finset.sum_range]
    simpa [f, Matrix.mulVec, dotProduct, Nat.lt_succ_iff.mp (Fin.is_lt _)] using hrow
  · intro c hc
    simp [show ¬ c < k + 1 by omega]
  · simpa [Nat.lt_succ_iff.mp c.is_lt] using hc

/-- A row of the matrix, applied to a vector through the factors. -/
theorem LuInvariant.apply (h : LuInvariant valid φ A n k s) (hr : r < n) (x : Nat → K) :
    ∑ c ∈ range n, A (s.originalRow r) c * x c =
      ∑ j ∈ range (min r k), φ (s.lu r j)
          * ∑ c ∈ range n, upper (fun r c => φ (s.lu r c)) j c * x c
        + ∑ c ∈ range n, (if min r k ≤ c then φ (s.lu r c) else 0) * x c := by
  rw [Finset.sum_congr rfl fun c hc => congrArg (· * x c) (h.factor r hr c (mem_range.mp hc))]
  simp_rw [add_mul, Finset.sum_add_distrib, Finset.sum_mul, Finset.mul_sum]
  rw [Finset.sum_comm]
  simp_rw [mul_assoc]

/-- In a nonsingular matrix every column still has a pivot. -/
theorem LuInvariant.exists_pivot (h : LuInvariant valid φ A n k s)
    (hA : Nonsingular A n) (hk : k < n) :
    ∃ r, k ≤ r ∧ r < n ∧ φ (s.lu r k) ≠ 0 := by
  by_contra hnone
  push Not at hnone
  obtain ⟨x, hx, hbeyond, c, hck, hcx⟩ :=
    exists_ne_zero_of_fewer_equations (upper fun r c => φ (s.lu r c)) k
  refine hcx (hA x ?_ c (by omega))
  intro i hi
  obtain ⟨r, hr, rfl⟩ := h.onto i hi
  -- the vector kills every finished row of the upper factor
  have hupper : ∀ j < k, ∑ c ∈ range n, upper (fun r c => φ (s.lu r c)) j c * x c = 0 := by
    intro j hj
    rw [← hx j hj]
    refine (Finset.sum_subset (by simpa using hk) fun c _ hc => ?_).symm
    rw [hbeyond c (by simpa using hc), mul_zero]
  have hrest : ∑ c ∈ range n, (if min r k ≤ c then φ (s.lu r c) else 0) * x c = 0 := by
    by_cases hrk : r < k
    · simpa [min_eq_left hrk.le, upper] using hupper r hrk
    · refine Finset.sum_eq_zero fun c hc => ?_
      rw [min_eq_right (by omega)]
      rcases lt_trichotomy c k with hlt | rfl | hgt
      · simp [show ¬ k ≤ c by omega]
      · simp [hnone r (by omega) hr]
      · simp [hbeyond c hgt]
  rw [h.apply hr, hrest, add_zero]
  refine Finset.sum_eq_zero fun j hj => ?_
  rw [hupper j (lt_of_lt_of_le (mem_range.mp hj) (min_le_right _ _)), mul_zero]

variable (rep : Represents ops valid φ)

include rep

/-- The pivot search returns a row whose entry is nonzero, and finds one when
there is one. -/
theorem pivotRow_spec [DecidableEq α] (hlu : ∀ r < n, ∀ c < n, valid (lu r c)) (hk : k < n)
    (hex : ∃ r, k ≤ r ∧ r < n ∧ φ (lu r k) ≠ 0) :
    ∃ sel, pivotRow ops lu n k = some sel ∧ k ≤ sel ∧ sel < n ∧ φ (lu sel k) ≠ 0 := by
  obtain ⟨r, hkr, hrn, hr⟩ := hex
  have hmem : r ∈ List.range' k (n - k) := by
    simp only [List.mem_range'_1]
    omega
  have hsome : (pivotRow ops lu n k).isSome := by
    rw [pivotRow, List.find?_isSome]
    refine ⟨r, hmem, ?_⟩
    simp only [decide_not, Bool.not_eq_true', decide_eq_false_iff_not]
    intro hzero
    exact hr (by rw [hzero, rep.map_zero])
  obtain ⟨sel, hsel⟩ := Option.isSome_iff_exists.mp hsome
  have hrange := List.mem_range'_1.mp (List.mem_of_find?_eq_some hsel)
  have hne : lu sel k ≠ ops.zero := by simpa using List.find?_some hsel
  refine ⟨sel, hsel, hrange.1, by omega, fun hzero => hne ?_⟩
  exact rep.eq_zero (hlu sel (by omega) k hk) hzero

variable [CharP K 2]

theorem map_subtractProducts {a b : Nat → α}
    (js : List Nat) {acc : α} (ha : ∀ j ∈ js, valid (a j)) (hb : ∀ j ∈ js, valid (b j))
    (hacc : valid acc) :
    valid (subtractProducts ops a b js acc) ∧
      φ (subtractProducts ops a b js acc)
        = φ acc - (js.map fun j => φ (a j) * φ (b j)).sum := by
  induction js generalizing acc with
  | nil => simp [subtractProducts, hacc]
  | cons j js ih =>
    have hja := ha j (by simp)
    have hjb := hb j (by simp)
    have hprod := rep.mul_valid hja hjb
    obtain ⟨hvalid, hvalue⟩ := ih (fun i hi => ha i (by simp [hi]))
      (fun i hi => hb i (by simp [hi])) (rep.add_valid hacc hprod)
    refine ⟨hvalid, ?_⟩
    have hstep : subtractProducts ops a b (j :: js) acc
        = subtractProducts ops a b js (ops.add acc (ops.mul (a j) (b j))) := rfl
    rw [hstep, hvalue, rep.map_add hacc hprod, rep.map_mul hja hjb, List.map_cons,
      List.sum_cons, ← CharTwo.sub_eq_add]
    ring

/-- Forward substitution solves `L y = P e_c` on the rows done so far. -/
theorem forwardSolve_spec
    (hlu : ∀ r < n, ∀ c < n, valid (s.lu r c)) (c rows : Nat) (hrows : rows ≤ n) :
    (∀ r < rows, valid (forwardSolve ops s c rows r)) ∧
      ∀ r < rows, φ (forwardSolve ops s c rows r)
          + ∑ j ∈ range r, φ (s.lu r j) * φ (forwardSolve ops s c rows j)
        = if s.originalRow r = c then 1 else 0 := by
  induction rows with
  | zero => simp
  | succ row ih =>
    obtain ⟨hvalid, hsolved⟩ := ih (by omega)
    have hrhs : valid (if s.originalRow row = c then ops.one else ops.zero) := by
      split
      · exact rep.one_valid
      · exact rep.zero_valid
    obtain ⟨hnew, hvalue⟩ := map_subtractProducts rep (List.range row)
      (fun j hj => hlu row hrows j (by have := List.mem_range.mp hj; omega))
      (fun j hj => hvalid j (List.mem_range.mp hj)) hrhs
    have hold : ∀ j < row, forwardSolve ops s c (row + 1) j = forwardSolve ops s c row j := by
      intro j hj
      simp [forwardSolve, show j ≠ row by omega]
    have hlast : forwardSolve ops s c (row + 1) row
        = subtractProducts ops (s.lu row) (forwardSolve ops s c row) (List.range row)
            (if s.originalRow row = c then ops.one else ops.zero) := by
      simp [forwardSolve]
    have hsum : ∀ r ≤ row,
        ∑ j ∈ range r, φ (s.lu r j) * φ (forwardSolve ops s c (row + 1) j)
          = ∑ j ∈ range r, φ (s.lu r j) * φ (forwardSolve ops s c row j) := by
      intro r hr
      refine Finset.sum_congr rfl fun j hj => ?_
      rw [hold j (by have := mem_range.mp hj; omega)]
    refine ⟨fun r hr => ?_, fun r hr => ?_⟩
    · rcases Nat.lt_succ_iff_lt_or_eq.mp hr with hr | rfl
      · rw [hold r hr]
        exact hvalid r hr
      · rw [hlast]
        exact hnew
    · rcases Nat.lt_succ_iff_lt_or_eq.mp hr with hr | rfl
      · rw [hold r hr, hsum r hr.le]
        exact hsolved r hr
      · rw [hlast, hvalue, hsum r le_rfl]
        change _ - (∑ j ∈ range r, _) + _ = _
        split <;> simp [rep.map_one, rep.map_zero]

/-- Back substitution solves `U x = y` on the rows done so far. -/
theorem backSolve_spec {interim : Nat → α} (hlu : ∀ r < n, ∀ c < n, valid (s.lu r c))
    (hpivots : ∀ r < n, φ (s.lu r r) ≠ 0) (hinterim : ∀ r < n, valid (interim r))
    (k : Nat) (hk : k ≤ n) :
    (∀ r, n - k ≤ r → r < n → valid (backSolve ops s n interim k r)) ∧
      ∀ r, n - k ≤ r → r < n →
        ∑ j ∈ Ico r n, φ (s.lu r j) * φ (backSolve ops s n interim k j) = φ (interim r) := by
  induction k with
  | zero =>
    refine ⟨fun r _ _ => ?_, fun r _ _ => ?_⟩ <;> omega
  | succ k ih =>
    obtain ⟨hvalid, hsolved⟩ := ih (by omega)
    obtain ⟨row, hrow⟩ : ∃ row, row = n - 1 - k := ⟨_, rfl⟩
    have hrown : row < n := by omega
    obtain ⟨hacc, hvalue⟩ := map_subtractProducts rep
      (List.range' (row + 1) (n - (row + 1)))
      (a := s.lu row) (b := backSolve ops s n interim k)
      (fun j hj => hlu row hrown j (by have := List.mem_range'_1.mp hj; omega))
      (fun j hj => by
        have := List.mem_range'_1.mp hj
        exact hvalid j (by omega) (by omega))
      (hinterim row hrown)
    have hinv := rep.inv_valid (hlu row hrown row hrown)
    have hold : ∀ j, row < j →
        backSolve ops s n interim (k + 1) j = backSolve ops s n interim k j := by
      intro j hj
      simp [backSolve, ← hrow, show j ≠ row by omega]
    have hlast : backSolve ops s n interim (k + 1) row
        = ops.mul (subtractProducts ops (s.lu row) (backSolve ops s n interim k)
            (List.range' (row + 1) (n - (row + 1))) (interim row))
          (ops.inv (s.lu row row)) := by
      simp [backSolve, ← hrow]
    have hsum : ∀ a r, row < a →
        ∑ j ∈ Ico a n, φ (s.lu r j) * φ (backSolve ops s n interim (k + 1) j)
          = ∑ j ∈ Ico a n, φ (s.lu r j) * φ (backSolve ops s n interim k j) := by
      intro a r ha
      refine Finset.sum_congr rfl fun j hj => ?_
      rw [hold j (by have := mem_Ico.mp hj; omega)]
    refine ⟨fun r hlo hr => ?_, fun r hlo hr => ?_⟩
    · rcases (show row = r ∨ row < r by omega) with rfl | hlt
      · rw [hlast]
        exact rep.mul_valid hacc hinv
      · rw [hold r hlt]
        exact hvalid r (by omega) hr
    · rcases (show row = r ∨ row < r by omega) with rfl | hlt
      · rw [Finset.sum_eq_sum_Ico_succ_bot hr, hsum _ _ (Nat.lt_succ_self row), hlast,
          rep.map_mul hacc hinv, rep.map_inv (hlu row hrown row hrown), hvalue]
        change _ * ((_ - ∑ j ∈ Ico (row + 1) n, _) * _) + _ = _
        field_simp [hpivots row hrown]
        ring
      · rw [hsum r r hlt]
        exact hsolved r (by omega) hr

variable [DecidableEq α]

/-- Entries of the eliminated matrix, read in the field. -/
theorem map_eliminateBelow
    (hlu : ∀ r < n, ∀ c < n, valid (lu r c)) (hk : k < n) {c : Nat} (hr : r < n)
    (hc : c < n) :
    valid (eliminateBelow ops lu n k r c) ∧
      φ (eliminateBelow ops lu n k r c)
        = if k < r then
            if c = k then φ (lu r k) / φ (lu k k)
            else if k < c then φ (lu r c) - φ (lu r k) / φ (lu k k) * φ (lu k c)
            else φ (lu r c)
          else φ (lu r c) := by
  have hinv : valid (ops.inv (lu k k)) := rep.inv_valid (hlu k hk k hk)
  have hfactor : valid (ops.mul (lu r k) (ops.inv (lu k k))) :=
    rep.mul_valid (hlu r hr k hk) hinv
  have hvalue : φ (ops.mul (lu r k) (ops.inv (lu k k))) = φ (lu r k) / φ (lu k k) := by
    rw [rep.map_mul (hlu r hr k hk) hinv, rep.map_inv (hlu k hk k hk), div_eq_mul_inv]
  have hprod := rep.mul_valid hfactor (hlu k hk c hc)
  unfold eliminateBelow
  by_cases hkr : k < r
  · by_cases hck : c = k
    · simp [hkr, hr, hck, hfactor, hvalue]
    · by_cases hzero : ops.mul (lu r k) (ops.inv (lu k k)) = ops.zero
      · have hz : φ (lu r k) / φ (lu k k) = 0 := by rw [← hvalue, hzero, rep.map_zero]
        simp [hck, hzero, hz, hlu r hr c hc]
      · by_cases hkc : k < c
        · simp [hkr, hr, hck, hzero, hkc, hc, rep.add_valid (hlu r hr c hc) hprod,
            rep.map_add (hlu r hr c hc) hprod, rep.map_mul hfactor (hlu k hk c hc), hvalue,
            CharTwo.sub_eq_add]
        · simp [hck, hkc, hlu r hr c hc]
  · simp [hkr, hlu r hr c hc]

/-- Eliminating below a nonzero pivot finishes one more column. -/
theorem LuInvariant.eliminateBelow (h : LuInvariant valid φ A n k s)
    (hk : k < n) (hpivot : φ (s.lu k k) ≠ 0) :
    LuInvariant valid φ A n (k + 1) { s with lu := eliminateBelow ops s.lu n k } := by
  have hentry := fun {r c} (hr : r < n) (hc : c < n) =>
    map_eliminateBelow rep h.entries hk hr hc
  -- rows up to the pivot are untouched
  have hkeep : ∀ {r c}, r ≤ k → c < n →
      φ (LuInversion.eliminateBelow ops s.lu n k r c) = φ (s.lu r c) := by
    intro r c hr hc
    rw [(hentry (by omega) hc).2, if_neg (by omega)]
  refine ⟨fun r hr c hc => (hentry hr hc).1, h.onto, ?_, ?_⟩
  · intro j hj
    rw [hkeep (by omega) (by omega)]
    rcases Nat.lt_succ_iff_lt_or_eq.mp hj with hj | rfl
    · exact h.pivots j hj
    · exact hpivot
  · intro r hr c hc
    rw [h.factor r hr c hc]
    by_cases hrk : r ≤ k
    · rw [show min r (k + 1) = r by omega, min_eq_left hrk]
      simp only [hkeep hrk hc]
      congr 1
      refine Finset.sum_congr rfl fun j hj => ?_
      have hjr := mem_range.mp hj
      simp [upper, hkeep hrk (show j < n by omega), hkeep (show j ≤ k by omega) hc]
    · have hkr : k < r := by omega
      rw [show min r (k + 1) = k + 1 by omega, show min r k = k by omega, Finset.sum_range_succ,
        add_assoc]
      congr 1
      · refine Finset.sum_congr rfl fun j hj => ?_
        have hjk := mem_range.mp hj
        rw [(hentry hr (show j < n by omega)).2]
        simp [upper, hkeep (show j ≤ k by omega) hc, if_neg (show j ≠ k by omega),
          if_neg (show ¬ k < j by omega)]
      · simp only [upper, hkeep le_rfl hc, (hentry hr hk).2, (hentry hr hc).2, if_pos hkr]
        rcases lt_trichotomy c k with hck | rfl | hck
        · simp [show ¬ k ≤ c by omega, show ¬ k + 1 ≤ c by omega]
        · simp [hpivot]
        · simp [hck.le, hck, hck.ne']

theorem luColumn_step (h : LuInvariant valid φ A n k s) (hA : Nonsingular A n) (hk : k < n) :
    ∃ s', luColumn ops n k s = some s' ∧ LuInvariant valid φ A n (k + 1) s' := by
  obtain ⟨sel, hsel, hle, hlt, hne⟩ := pivotRow_spec rep h.entries hk (h.exists_pivot hA hk)
  simp only [luColumn, hsel]
  by_cases hswap : sel = k
  · subst hswap
    simpa using h.eliminateBelow rep hk hne
  · have hpivot : φ ((s.swapRows sel k).lu k k) ≠ 0 := by simpa [LuState.swapRows] using hne
    simpa [hswap] using (h.swapRows hk hlt hle).eliminateBelow rep hk hpivot

section

variable {m : Nat → Nat → α} (hm : ∀ r < n, ∀ c < n, valid (m r c))
    (hA : Nonsingular (fun r c => φ (m r c)) n)
include hm hA

/-- All columns: the factorisation of a nonsingular matrix succeeds. -/
theorem luFactor_run (k : Nat) (hk : k ≤ n) : ∃ s, luFactor ops m n k = some s ∧
      LuInvariant valid φ (fun r c => φ (m r c)) n k s := by
  induction k with
  | zero => exact ⟨_, rfl, luInvariant_zero hm⟩
  | succ k ih =>
    obtain ⟨s, hs, hinv⟩ := ih (by omega)
    obtain ⟨s', hs', hinv'⟩ := luColumn_step rep hinv hA hk
    exact ⟨s', by simp [luFactor, hs, hs'], hinv'⟩

/-- **Inversion is totally correct on nonsingular matrices.** -/
theorem invert_spec : ∃ inverse, invert ops m n = some inverse ∧
      (∀ r < n, ∀ c < n, valid (inverse r c)) ∧
      ∀ r < n, ∀ c < n,
        ∑ j ∈ range n, φ (m r j) * φ (inverse j c) = if r = c then 1 else 0 := by
  obtain ⟨s, hs, hinv⟩ := luFactor_run rep hm hA n le_rfl
  refine ⟨_, by simp [invert, hs]; rfl, ?_, ?_⟩
  · intro r hr c _
    have hforward := forwardSolve_spec rep hinv.entries c n le_rfl
    exact (backSolve_spec rep hinv.entries hinv.pivots hforward.1 n le_rfl).1 r (by omega) hr
  · intro i hi c _
    obtain ⟨r, hr, rfl⟩ := hinv.onto i hi
    obtain ⟨hyvalid, hy⟩ := forwardSolve_spec rep hinv.entries c n le_rfl
    obtain ⟨_, hx⟩ := backSolve_spec rep hinv.entries hinv.pivots hyvalid n le_rfl
    set y := forwardSolve ops s c n
    set x := backSolve ops s n y n
    -- rows of the upper factor applied to the solution
    have hupper : ∀ j < n,
        ∑ c ∈ range n, upper (fun r c => φ (s.lu r c)) j c * φ (x c) = φ (y j) := by
      intro j hj
      rw [← hx j (by omega) hj, Finset.range_eq_Ico,
        ← Finset.sum_Ico_consecutive _ (Nat.zero_le j) hj.le, Finset.sum_eq_zero, zero_add]
      · refine Finset.sum_congr rfl fun c hc => ?_
        simp [upper, (mem_Ico.mp hc).1]
      · intro c hc
        simp [upper, Nat.not_le.mpr (mem_Ico.mp hc).2]
    rw [hinv.apply hr (fun j => φ (x j)), ← hy r hr, min_eq_left hr.le, add_comm]
    refine congrArg₂ (· + ·) (hupper r hr) (Finset.sum_congr rfl fun i hi => ?_)
    rw [hupper i (lt_trans (mem_range.mp hi) hr)]

end

end Correct

end LuInversion
