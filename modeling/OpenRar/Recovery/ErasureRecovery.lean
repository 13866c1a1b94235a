import OpenRar.Recovery.FoldKernels

/-!
# Erased units are recovered

The encoder folds the data units into parity units, the decoder folds the unit
vector in which parity units stand in for the erased data units.  Word by word
both are sums of field products, so the elimination algebra of the Cauchy
generator applies: output `e` of the decoder is the `e`-th erased data unit.
-/

namespace OpenRar.Recovery

open BinaryField LuInversion CauchyErasure Finset OpenRar.Core ReedSolomon16

/-! ## A run of folds is a sum of products -/

/-- Word `w` of a block. -/
def wordOf (block : List UInt8) (w : Nat) : Nat := (toWords block).getD w 0

theorem wordOf_lt (block : List UInt8) (w : Nat) : wordOf block w < 65536 := by
  unfold wordOf
  rw [List.getD_eq_getElem?_getD]
  cases h : (toWords block)[w]? with
  | none => simp
  | some v => simpa using toWords_lt block v (List.mem_of_getElem? h)

theorem wordOf_replicate_zero (n w : Nat) : wordOf (List.replicate n 0) w = 0 := by
  have hzero : ∀ n, toWords (List.replicate n 0) = List.replicate (n / 2) 0 := by
    intro n
    induction n using Nat.twoStepInduction with
    | zero => simp [toWords]
    | one => simp [toWords]
    | more n ih _ =>
      simp [List.replicate_succ, toWords, ih]
  rw [wordOf, hzero, List.getD_eq_getElem?_getD, List.getElem?_replicate]
  split <;> rfl

section

variable (rs : ReedSolomon16) (kernel : FoldKernel) {dataNum eccNum : Nat}
    (hcoeff : rs.mx eccNum dataNum < 65536) {data ecc : List UInt8}
    (hlen : data.length = ecc.length) (heven : Even ecc.length)
include hcoeff hlen heven

/-- One fold adds one product to every word. -/
theorem toGf_wordOf_updateEcc {w : Nat} (hw : w < ecc.length / 2) :
    toGf (wordOf (rs.updateEcc kernel dataNum eccNum data ecc) w)
      = toGf (wordOf (foldBase dataNum ecc) w)
        + toGf (rs.mx eccNum dataNum) * toGf (wordOf data w) := by
  have hmul : ∀ b < 65536, gfMul (rs.mx eccNum dataNum) b < 65536 := fun b hb =>
    (gfMul_spec hcoeff hb).1
  have hdata : w < (toWords data).length := by rw [toWords_length, hlen]; exact hw
  have hbase : w < (toWords (foldBase dataNum ecc)).length := by
    rw [toWords_length, foldBase_length]; exact hw
  rw [← (gfMul_spec hcoeff (wordOf_lt data w)).2, ← toGf_gfAdd]
  rw [updateEcc_eq rs kernel hcoeff hlen heven, wordOf,
    toWords_foldWords hmul (by simpa using hlen) (by simpa using heven)]
  simp [wordOf, gfAdd, hdata, hbase]

theorem updateEcc_length : (rs.updateEcc kernel dataNum eccNum data ecc).length = ecc.length := by
  rw [updateEcc_eq rs kernel hcoeff hlen heven, foldWords_length, foldBase_length]

end

variable {bs d i : Nat}

/-- Folding units from slot `dataNum` on adds their products; a fold into slot zero starts
from nothing. -/
theorem foldUnits_run (rs : ReedSolomon16) (kernel : FoldKernel) {eccNum : Nat}
    (heven : Even bs) (units : List (List UInt8)) (dataNum : Nat)
    (hcoeff : ∀ i < units.length, rs.mx eccNum (dataNum + i) < 65536)
    (hunits : ∀ u ∈ units, u.length = bs) (ecc : List UInt8) (hecc : ecc.length = bs) :
    (rs.foldUnits kernel eccNum dataNum units ecc).length = bs ∧
      ∀ w < bs / 2, toGf (wordOf (rs.foldUnits kernel eccNum dataNum units ecc) w)
        = toGf (wordOf (if units = [] then ecc else foldBase dataNum ecc) w)
          + ∑ i ∈ range units.length,
            toGf (rs.mx eccNum (dataNum + i)) * toGf (wordOf (units.getD i []) w) := by
  induction units generalizing dataNum ecc with
  | nil => exact ⟨hecc, fun w _ => by simp [foldUnits]⟩
  | cons data units ih =>
    have hdata : data.length = ecc.length := by rw [hecc, hunits data (by simp)]
    have heccEven : Even ecc.length := by rwa [hecc]
    have hfirst : rs.mx eccNum dataNum < 65536 := hcoeff 0 (by simp)
    have hlen := updateEcc_length rs kernel hfirst hdata heccEven
    obtain ⟨hlength, hsum⟩ := ih (dataNum + 1)
      (fun i hi => by
        have := hcoeff (i + 1) (by simpa using hi)
        rwa [show dataNum + 1 + i = dataNum + (i + 1) by omega])
      (fun u hu => hunits u (by simp [hu]))
      (rs.updateEcc kernel dataNum eccNum data ecc) (by rw [hlen, hecc])
    refine ⟨hlength, fun w hw => ?_⟩
    rw [foldUnits, hsum w hw, foldBase, if_neg (Nat.succ_ne_zero dataNum), ite_self,
      toGf_wordOf_updateEcc rs kernel hfirst hdata heccEven (by rwa [hecc]),
      if_neg (List.cons_ne_nil _ _), List.length_cons, Finset.sum_range_succ']
    simp only [List.getD_cons_zero, List.getD_cons_succ, Nat.add_zero]
    rw [add_assoc, add_comm (toGf (rs.mx eccNum dataNum) * toGf (wordOf data w))]
    simp [Nat.add_assoc, Nat.add_comm 1]

/-- **A whole fold is a matrix row applied to the units**, whatever the output
buffer held before. -/
theorem foldUnits_spec (rs : ReedSolomon16) (kernel : FoldKernel) (eccNum : Nat)
    (heven : Even bs) {units : List (List UInt8)} (hne : units ≠ [])
    (hcoeff : ∀ i < units.length, rs.mx eccNum i < 65536)
    (hunits : ∀ u ∈ units, u.length = bs) {ecc : List UInt8} (hecc : ecc.length = bs) :
    (rs.foldUnits kernel eccNum 0 units ecc).length = bs ∧
      ∀ w < bs / 2, toGf (wordOf (rs.foldUnits kernel eccNum 0 units ecc) w)
        = ∑ i ∈ range units.length,
            toGf (rs.mx eccNum i) * toGf (wordOf (units.getD i []) w) := by
  have hrun := foldUnits_run rs kernel heven units 0 (by simpa using hcoeff) hunits ecc hecc
  simpa [hne, foldBase, wordOf_replicate_zero] using hrun

/-- Blocks of the same even length that agree in every word of the field are
equal. -/
theorem block_ext {a b : List UInt8} (ha : a.length = bs) (hb : b.length = bs)
    (heven : Even bs) (h : ∀ w < bs / 2, toGf (wordOf a w) = toGf (wordOf b w)) : a = b := by
  refine toWords_injective (by rw [ha, hb]) (by rwa [ha]) ?_
  refine List.ext_getElem (by rw [toWords_length, toWords_length, ha, hb]) fun w hwa hwb => ?_
  have hword := toGf_injective (wordOf_lt a w) (wordOf_lt b w)
    (h w (by rw [toWords_length, ha] at hwa; exact hwa))
  rwa [wordOf, wordOf, List.getD_eq_getElem _ _ hwa, List.getD_eq_getElem _ _ hwb] at hword

/-! ## Slots -/

theorem mem_erasedSlots {nd : Nat} {flags : List Bool} :
    d ∈ erasedSlots nd flags ↔ d < nd ∧ flags.getD d false = false := by
  simp [erasedSlots]

theorem mem_validParitySlots {nd nr p : Nat} {flags : List Bool} :
    p ∈ validParitySlots nd nr flags ↔ (nd ≤ p ∧ p < nd + nr) ∧ flags.getD p false = true := by
  simp [validParitySlots]

theorem erasedSlots_nodup (nd : Nat) (flags : List Bool) : (erasedSlots nd flags).Nodup :=
  List.nodup_range.filter _

theorem not_mem_erasedSlots {nd : Nat} {flags : List Bool} (hflag : flags.getD d false = true) :
    d ∉ erasedSlots nd flags := by
  intro h
  rw [(mem_erasedSlots.mp h).2] at hflag
  exact absurd hflag (by decide)

theorem exists_erasedSlot {nd : Nat} {flags : List Bool} (hd : d < nd)
    (hflag : ¬ flags.getD d false = true) :
    ∃ r < (erasedSlots nd flags).length, (erasedSlots nd flags).getD r 0 = d := by
  obtain ⟨r, hr, rfl⟩ := List.getElem_of_mem
    (mem_erasedSlots.mpr ⟨hd, Bool.eq_false_iff.mpr hflag⟩)
  exact ⟨r, hr, List.getD_eq_getElem _ _ hr⟩

theorem idxOf_erasedSlots {nd r : Nat} {flags : List Bool}
    (hr : r < (erasedSlots nd flags).length) :
    (erasedSlots nd flags).idxOf ((erasedSlots nd flags).getD r 0) = r := by
  rw [List.getD_eq_getElem _ _ hr, (erasedSlots_nodup nd flags).idxOf_getElem]

theorem validParitySlots_nodup (nd nr : Nat) (flags : List Bool) :
    (validParitySlots nd nr flags).Nodup := by
  have hrange : (List.range' nd nr).Nodup := List.nodup_range'
  exact hrange.filter _

/-- Positions in a list without repetitions are determined by their entries. -/
theorem getD_injOn {l : List Nat} (h : l.Nodup) {n : Nat} (hn : n ≤ l.length) :
    Set.InjOn (fun i => l.getD i 0) (range n) := by
  intro i hi j hj hij
  have hi' : i < l.length := (mem_range.mp hi).trans_le hn
  have hj' : j < l.length := (mem_range.mp hj).trans_le hn
  simp only [List.getD_eq_getElem _ _ hi', List.getD_eq_getElem _ _ hj'] at hij
  exact (h.getElem_inj_iff).mp hij

theorem toGf_xor_inv {a b : Nat} (ha : a < 65536) (hb : b < 65536) :
    gfInv (gfAdd a b) < 65536 ∧ toGf (gfInv (gfAdd a b)) = (toGf a - toGf b)⁻¹ := by
  have hlt : gfAdd a b < 65536 := Nat.xor_lt_two_pow (n := 16) ha hb
  rw [CharTwo.sub_eq_add, ← toGf_gfAdd]
  exact gfInv_spec hlt

/-- Xor of a run of words, read in the field. -/
theorem toGf_foldl_xor {f : Nat → Nat} (l : List Nat) (hf : ∀ i ∈ l, f i < 65536) (acc : Nat)
    (hacc : acc < 65536) :
    l.foldl (fun acc i => acc ^^^ f i) acc < 65536 ∧
      toGf (l.foldl (fun acc i => acc ^^^ f i) acc)
        = toGf acc + (l.map fun i => toGf (f i)).sum := by
  induction l generalizing acc with
  | nil => simp [hacc]
  | cons i l ih =>
    have hfi := hf i (by simp)
    obtain ⟨hlt, hsum⟩ := ih (fun j hj => hf j (by simp [hj])) (acc ^^^ f i)
      (Nat.xor_lt_two_pow (n := 16) hacc hfi)
    refine ⟨hlt, ?_⟩
    have hxor : toGf (acc ^^^ f i) = toGf acc + toGf (f i) := toGf_gfAdd _ _
    rw [List.foldl_cons, hsum, hxor, List.map_cons, List.sum_cons, add_assoc]

/-! ## The decoder matrix -/

section Decoder

variable {nd nr : Nat} {flags : List Bool}

/-- Everything the decoder matrix is built from, for one validity vector. -/
structure DecoderFacts (nd nr : Nat) (flags : List Bool) (solved : Nat → Nat → Nat) : Prop where
  valid : ∀ k < (erasedSlots nd flags).length, ∀ i < (erasedSlots nd flags).length,
    solved k i < 65536
  leftInverse : ∀ k < (erasedSlots nd flags).length, ∀ c < (erasedSlots nd flags).length,
    ∑ i ∈ range (erasedSlots nd flags).length, toGf (solved k i)
        * (toGf ((validParitySlots nd nr flags).getD i 0)
            - toGf ((erasedSlots nd flags).getD c 0))⁻¹
      = if k = c then 1 else 0
  rowErased : ∀ k r, r < (erasedSlots nd flags).length →
    deriveRecoveryCoefficients nd nr (erasedSlots nd flags).length flags k
      ((erasedSlots nd flags).getD r 0) = solved k r
  rowHealthy : ∀ k d, d < nd → flags.getD d false = true →
    deriveRecoveryCoefficients nd nr (erasedSlots nd flags).length flags k d
      = (List.range (erasedSlots nd flags).length).foldl
          (fun acc i => acc ^^^ gfMul (solved k i)
            (gfInv (gfAdd ((validParitySlots nd nr flags).getD i 0) d))) 0

theorem erasedSlots_getD_mem {r : Nat} (hr : r < (erasedSlots nd flags).length) :
    (erasedSlots nd flags).getD r 0 < nd ∧
      flags.getD ((erasedSlots nd flags).getD r 0) false = false := by
  rw [← mem_erasedSlots, List.getD_eq_getElem _ _ hr]
  exact List.getElem_mem hr

theorem validParitySlots_getD_mem {i : Nat} (hi : i < (validParitySlots nd nr flags).length) :
    nd ≤ (validParitySlots nd nr flags).getD i 0 ∧
      (validParitySlots nd nr flags).getD i 0 < nd + nr := by
  rw [List.getD_eq_getElem _ _ hi]
  exact (mem_validParitySlots.mp (List.getElem_mem hi)).1

/-- **The decoder's system is solvable**: it is a Cauchy matrix with distinct
coordinates, so the inversion succeeds. -/
theorem decoderFacts_exist (hsum : nd + nr ≤ 65535)
    (hle : (erasedSlots nd flags).length ≤ (validParitySlots nd nr flags).length) :
    ∃ solved, DecoderFacts nd nr flags solved := by
  set ne := (erasedSlots nd flags).length with hne
  have hsub : ∀ i < ne, (validParitySlots nd nr flags).getD i 0 < 65536 := fun i hi => by
    have := validParitySlots_getD_mem (hi.trans_le hle)
    omega
  have hera : ∀ r < ne, (erasedSlots nd flags).getD r 0 < 65536 := fun r hr => by
    have := (erasedSlots_getD_mem hr).1
    omega
  have htake : ∀ i < ne, ((validParitySlots nd nr flags).take ne).getD i 0
      = (validParitySlots nd nr flags).getD i 0 := fun i hi => by
    simp [hi]
  let system : Nat → Nat → Nat := fun i r =>
    gfInv (gfAdd (((validParitySlots nd nr flags).take ne).getD i 0)
      ((erasedSlots nd flags).getD r 0))
  have hentry : ∀ i < ne, ∀ r < ne, system i r < 65536 ∧
      toGf (system i r) = (toGf ((validParitySlots nd nr flags).getD i 0)
        - toGf ((erasedSlots nd flags).getD r 0))⁻¹ := fun i hi r hr => by
    simp only [system, htake i hi]
    exact toGf_xor_inv (hsub i hi) (hera r hr)
  have hcauchy : Nonsingular (fun i r => toGf (system i r)) ne := by
    have hdistinct := cauchy_nonsingular
      (x := fun i => toGf ((validParitySlots nd nr flags).getD i 0))
      (y := fun r => toGf ((erasedSlots nd flags).getD r 0)) (n := ne)
      (fun i hi j hj h => getD_injOn (validParitySlots_nodup nd nr flags) hle hi hj
        (toGf_injective (hsub i (mem_range.mp hi)) (hsub j (mem_range.mp hj)) h))
      (fun i hi j hj h => getD_injOn (erasedSlots_nodup nd flags) le_rfl hi hj
        (toGf_injective (hera i (mem_range.mp hi)) (hera j (mem_range.mp hj)) h))
      (fun i hi r hr h => by
        have hp := validParitySlots_getD_mem (hi.trans_le hle)
        have hd := (erasedSlots_getD_mem hr).1
        have := toGf_injective (hsub i hi) (hera r hr) h
        omega)
    intro x hx
    refine hdistinct x fun r hr => ?_
    rw [← hx r hr]
    refine Finset.sum_congr rfl fun c hc => ?_
    simp [(hentry r hr c (mem_range.mp hc)).2]
  obtain ⟨solved, hinvert, hvalid, hright⟩ :=
    invert_spec gfOps_represents (fun i hi r hr => (hentry i hi r hr).1) hcauchy
  have hderive : deriveRecoveryCoefficients nd nr ne flags = fun k d =>
      if d ∈ erasedSlots nd flags then solved k ((erasedSlots nd flags).idxOf d)
      else if flags.getD d false then
        (List.range ne).foldl (fun acc i => acc ^^^ gfMul (solved k i)
          (gfInv (gfAdd (((validParitySlots nd nr flags).take ne).getD i 0) d))) 0
      else 0 := by
    have htakeE : (erasedSlots nd flags).take ne = erasedSlots nd flags := by
      rw [hne, List.take_length]
    have hlenP : ((validParitySlots nd nr flags).take ne).length = ne := by
      rw [List.length_take]
      omega
    simp only [deriveRecoveryCoefficients, htakeE, hlenP, ← hne, ne_eq, not_true_eq_false, or_self,
      if_false]
    rw [show invertSquare (fun i r => gfInv (gfAdd
        (((validParitySlots nd nr flags).take ne).getD i 0)
      ((erasedSlots nd flags).getD r 0))) ne = some solved from hinvert]
  refine ⟨solved, hvalid, ?_, ?_, ?_⟩
  · intro k hk c hc
    rw [← left_inverse_of_right_inverse hright hk hc]
    refine Finset.sum_congr rfl fun i hi => ?_
    rw [(hentry i (mem_range.mp hi) c hc).2]
  · intro k r hr
    have hmem : (erasedSlots nd flags).getD r 0 ∈ erasedSlots nd flags :=
      mem_erasedSlots.mpr (erasedSlots_getD_mem hr)
    rw [hderive]
    simp only [hmem, if_true, idxOf_erasedSlots hr]
  · intro k d hd hflag
    rw [hderive]
    simp only [not_mem_erasedSlots hflag, hflag]
    refine List.foldl_ext _ _ _ fun acc i hi => ?_
    rw [htake i (List.mem_range.mp hi)]

variable {solved : Nat → Nat → Nat} {k : Nat} (h : DecoderFacts nd nr flags solved)
  (hsum : nd + nr ≤ 65535)
  (hle : (erasedSlots nd flags).length ≤ (validParitySlots nd nr flags).length)

include h hsum hle

/-- The decoder's coefficients are field words, and in the field the row of a
healthy unit is its merged contribution. -/
theorem DecoderFacts.row_spec {d : Nat} (hk : k < (erasedSlots nd flags).length) (hd : d < nd)
    (hflag : flags.getD d false = true) :
    deriveRecoveryCoefficients nd nr (erasedSlots nd flags).length flags k d < 65536 ∧
      toGf (deriveRecoveryCoefficients nd nr (erasedSlots nd flags).length flags k d)
        = ∑ i ∈ range (erasedSlots nd flags).length, toGf (solved k i)
            * (toGf ((validParitySlots nd nr flags).getD i 0) - toGf d)⁻¹ := by
  have hinv : ∀ i < (erasedSlots nd flags).length,
      gfInv (gfAdd ((validParitySlots nd nr flags).getD i 0) d) < 65536 ∧
        toGf (gfInv (gfAdd ((validParitySlots nd nr flags).getD i 0) d))
          = (toGf ((validParitySlots nd nr flags).getD i 0) - toGf d)⁻¹ := fun i hi => by
    have hp := validParitySlots_getD_mem (hi.trans_le hle)
    exact toGf_xor_inv (by omega) (by omega)
  rw [h.rowHealthy k d hd hflag]
  obtain ⟨hlt, hval⟩ := toGf_foldl_xor (List.range (erasedSlots nd flags).length)
    (fun i hi => (gfMul_spec (h.valid k hk i (List.mem_range.mp hi))
      (hinv i (List.mem_range.mp hi)).1).1) 0 (by decide)
  refine ⟨hlt, ?_⟩
  rw [hval, toGf_zero, zero_add]
  change ∑ i ∈ range (erasedSlots nd flags).length, _ = _
  refine Finset.sum_congr rfl fun i hi => ?_
  have hi := mem_range.mp hi
  rw [(gfMul_spec (h.valid k hk i hi) (hinv i hi).1).2, (hinv i hi).2]

theorem DecoderFacts.row_lt {d : Nat} (hk : k < (erasedSlots nd flags).length) (hd : d < nd) :
    deriveRecoveryCoefficients nd nr (erasedSlots nd flags).length flags k d < 65536 := by
  by_cases hflag : flags.getD d false = true
  · exact (h.row_spec hsum hle hk hd hflag).1
  · obtain ⟨r, hr, rfl⟩ := exists_erasedSlot hd hflag
    rw [h.rowErased k r hr]
    exact h.valid k hk r hr

/-- **One decoder row returns the erased unit**, for one word of every unit: `D`
holds the data words, `W` the words of the substituted vector. -/
theorem DecoderFacts.recover_word {D W : Nat → GfRing}
    (hhealthy : ∀ d < nd, flags.getD d false = true → W d = D d)
    (hsubst : ∀ r < (erasedSlots nd flags).length, W ((erasedSlots nd flags).getD r 0)
      = ∑ d ∈ range nd, (toGf ((validParitySlots nd nr flags).getD r 0) - toGf d)⁻¹ * D d)
    (hk : k < (erasedSlots nd flags).length) :
    ∑ d ∈ range nd,
        toGf (deriveRecoveryCoefficients nd nr (erasedSlots nd flags).length flags k d) * W d
      = D ((erasedSlots nd flags).getD k 0) := by
  have hrange : ∀ r < (erasedSlots nd flags).length,
      (erasedSlots nd flags).getD r 0 < nd ∧
        ¬ flags.getD ((erasedSlots nd flags).getD r 0) false = true := fun r hr => by
    refine ⟨(erasedSlots_getD_mem hr).1, ?_⟩
    rw [(erasedSlots_getD_mem hr).2]
    decide
  exact @recovery_row GfRing _ nd _ (fun d => flags.getD d false = true) _ _ _
    (getD_injOn (erasedSlots_nodup nd flags) le_rfl) hrange
    (fun _ => exists_erasedSlot)
    (fun i d => (toGf ((validParitySlots nd nr flags).getD i 0) - toGf d)⁻¹)
    (fun k i => toGf (solved k i)) D _ _ W k hk (fun _ _ => rfl) (h.leftInverse k hk)
    (fun d hd hflag => (h.row_spec hsum hle hk hd hflag).2)
    (fun r hr => by rw [h.rowErased k r hr]) hhealthy hsubst

end Decoder

/-! ## Recovery -/

/-- The encoder's matrix row is the Cauchy row of its parity slot. -/
theorem fillParityCoefficients_spec {nd nr : Nat} (hsum : nd + nr ≤ 65535) (hi : i < nr)
    (hd : d < nd) :
    fillParityCoefficients nd i d < 65536 ∧
      toGf (fillParityCoefficients nd i d) = (toGf (nd + i) - toGf d)⁻¹ :=
  toGf_xor_inv (by omega) (by omega)

theorem init_guards {nd nr : Nat} (hnd : 1 ≤ nd) (hnr : 1 ≤ nr) (hsum : nd + nr ≤ 65535) :
    ¬ (nd = 0 ∨ nr = 0 ∨ (nd + nr) % 2 ^ 32 > gfSize) ∧ ∀ n ≤ 65535, ¬ n > sizeMax / nd := by
  constructor
  · simp only [gfSize]
    omega
  · intro n hn
    refine Nat.not_lt.mpr ((Nat.le_div_iff_mul_le hnd).mpr ?_)
    calc n * nd ≤ 65535 * 65535 := Nat.mul_le_mul hn (by omega)
      _ ≤ sizeMax := by decide

theorem init_encoder {nd nr : Nat} (hnd : 1 ≤ nd) (hnr : 1 ≤ nr) (hsum : nd + nr ≤ 65535) :
    init nd nr none
      = some
        { nd := nd, nr := nr, ne := 0, validFlags := [], mx := fillParityCoefficients nd } := by
  obtain ⟨hguard, hfit⟩ := init_guards hnd hnr hsum
  simp only [init, if_neg hguard, if_neg (hfit nr (by omega))]

theorem init_decoder {nd nr : Nat} {flags : List Bool} (hnd : 1 ≤ nd) (hnr : 1 ≤ nr)
    (hsum : nd + nr ≤ 65535) (herased : 1 ≤ (erasedSlots nd flags).length)
    (hle : (erasedSlots nd flags).length ≤ (validParitySlots nd nr flags).length) :
    init nd nr (some flags)
      = some
          { nd := nd, nr := nr, ne := (erasedSlots nd flags).length, validFlags := flags
            mx := deriveRecoveryCoefficients nd nr (erasedSlots nd flags).length flags } := by
  obtain ⟨hguard, hfit⟩ := init_guards hnd hnr hsum
  have hcount : (erasedSlots nd flags).length ≤ nd :=
    (List.length_filter_le _ _).trans (by simp)
  simp only [init, if_neg hguard]
  rw [if_neg (by omega), if_neg (hfit _ (by omega))]

/-- The parity units that an encoder folds from the data units, in output
buffers that may hold anything. -/
def encodeParity (enc : ReedSolomon16) (kernel : FoldKernel) (units : List (List UInt8))
    (buffers : Nat → List UInt8) : List (List UInt8) :=
  (List.range enc.nr).map fun i => enc.foldUnits kernel i 0 units (buffers i)

section SubstituteUnits

variable {nd nr : Nat} {flags : List Bool} {units parity : List (List UInt8)}

theorem substituteUnits_length : (substituteUnits nd nr flags units parity).length = nd := by
  simp [substituteUnits]

theorem substituteUnits_healthy {d : Nat} (hd : d < nd) (hflag : flags.getD d false = true) :
    (substituteUnits nd nr flags units parity).getD d [] = units.getD d [] := by
  simp [substituteUnits, hd, not_mem_erasedSlots hflag]

theorem substituteUnits_erased {r : Nat} (hr : r < (erasedSlots nd flags).length) :
    (substituteUnits nd nr flags units parity).getD ((erasedSlots nd flags).getD r 0) []
      = parity.getD ((validParitySlots nd nr flags).getD r 0 - nd) [] := by
  have hd := (erasedSlots_getD_mem hr).1
  have hmem : (erasedSlots nd flags).getD r 0 ∈ erasedSlots nd flags :=
    mem_erasedSlots.mpr (erasedSlots_getD_mem hr)
  have hidx := idxOf_erasedSlots hr
  rw [List.getD_eq_getElem _ _ (by rw [substituteUnits_length]; exact hd)]
  simp only [substituteUnits, List.getElem_map, List.getElem_range, if_pos hmem, hidx]

end SubstituteUnits

theorem encodeParity_spec {nd nr : Nat} (hnd : 1 ≤ nd) (hsum : nd + nr ≤ 65535)
    (heven : Even bs) {units : List (List UInt8)} (hcount : units.length = nd)
    (hsize : ∀ u ∈ units, u.length = bs) {enc : ReedSolomon16} (hnr : enc.nr = nr)
    (hmx : enc.mx = fillParityCoefficients nd) (kernel : FoldKernel) {buffers : Nat → List UInt8}
    (hbuffers : ∀ i, (buffers i).length = bs) (hi : i < nr) :
    ((encodeParity enc kernel units buffers).getD i []).length = bs ∧ ∀ w < bs / 2,
      toGf (wordOf ((encodeParity enc kernel units buffers).getD i []) w)
        = ∑ d ∈ range nd, (toGf (nd + i) - toGf d)⁻¹ * toGf (wordOf (units.getD d []) w) := by
  have hunits : units ≠ [] := by
    rintro rfl
    simp at hcount
    omega
  have hget : (encodeParity enc kernel units buffers).getD i []
      = enc.foldUnits kernel i 0 units (buffers i) := by
    simp [encodeParity, hnr, hi]
  have hrow := fun d (hd : d < nd) => fillParityCoefficients_spec (i := i) hsum hi hd
  obtain ⟨hlen, hval⟩ := foldUnits_spec enc kernel i heven hunits
    (fun d hd => by rw [hmx]; exact (hrow d (by omega)).1) hsize (hbuffers i)
  rw [hget]
  refine ⟨hlen, fun w hw => ?_⟩
  rw [hval w hw, hcount]
  refine Finset.sum_congr rfl fun d hd => ?_
  rw [hmx, (hrow d (mem_range.mp hd)).2]

/-- **Erasure recovery.**  With at least one erased data unit and no more of
them than valid parity units, output `e` of the decoder is the `e`-th erased
data unit. -/
theorem erasure_recovery (nd nr bs : Nat) (hnd : 1 ≤ nd) (hnr : 1 ≤ nr)
    (hsum : nd + nr ≤ 65535) (heven : Even bs) (units : List (List UInt8))
    (hcount : units.length = nd) (hsize : ∀ u ∈ units, u.length = bs) (flags : List Bool)
    (herased : 1 ≤ (erasedSlots nd flags).length)
    (hle : (erasedSlots nd flags).length ≤ (validParitySlots nd nr flags).length)
    (encKernel decKernel : FoldKernel) (buffers : Nat → List UInt8)
    (hbuffers : ∀ i, (buffers i).length = bs) :
    ∃ enc dec, init nd nr none = some enc ∧
      init nd nr (some flags) = some dec ∧
      dec.ne = (erasedSlots nd flags).length ∧
      ∀ e < dec.ne, ∀ out : List UInt8, out.length = bs →
        dec.foldUnits decKernel e 0
            (substituteUnits nd nr flags units (encodeParity enc encKernel units buffers)) out
          = units.getD ((erasedSlots nd flags).getD e 0) [] := by
  obtain ⟨solved, facts⟩ := decoderFacts_exist hsum hle
  refine ⟨_, _, init_encoder hnd hnr hsum, init_decoder hnd hnr hsum herased hle, rfl, ?_⟩
  intro e he out hout
  generalize hencoder : mk nd nr 0 [] (fillParityCoefficients nd) = enc
  have hpar := fun {i} (hi : i < nr) => encodeParity_spec hnd hsum heven hcount hsize
    (by rw [← hencoder] : enc.nr = nr) (by rw [← hencoder]) encKernel hbuffers hi
  generalize encodeParity enc encKernel units buffers = parity at hpar ⊢
  have hlenUnit : ∀ d < nd, (units.getD d []).length = bs := fun d hd => by
    rw [List.getD_eq_getElem _ _ (by omega)]
    exact hsize _ (List.getElem_mem _)
  -- the slot of an erased unit holds a parity unit, any other slot its own unit
  have hslot : ∀ r, r < (erasedSlots nd flags).length →
      ∃ i < nr, (validParitySlots nd nr flags).getD r 0 = nd + i ∧
        (substituteUnits nd nr flags units parity).getD ((erasedSlots nd flags).getD r 0) []
          = parity.getD i [] := by
    intro r hr
    have hp := validParitySlots_getD_mem (hr.trans_le hle)
    refine ⟨(validParitySlots nd nr flags).getD r 0 - nd, by omega, by omega, ?_⟩
    exact substituteUnits_erased hr
  have hsubLen : ∀ u ∈ substituteUnits nd nr flags units parity, u.length = bs := by
    intro u hu
    obtain ⟨d, hd', rfl⟩ := List.getElem_of_mem hu
    have hd : d < nd := by rwa [substituteUnits_length] at hd'
    rw [← List.getD_eq_getElem _ [] hd']
    by_cases hflag : flags.getD d false = true
    · rw [substituteUnits_healthy hd hflag]
      exact hlenUnit d hd
    · obtain ⟨r, hr, rfl⟩ := exists_erasedSlot hd hflag
      obtain ⟨i, hi, _, hget⟩ := hslot r hr
      rw [hget]
      exact (hpar hi).1
  obtain ⟨hlen, hval⟩ := foldUnits_spec
    { nd := nd, nr := nr, ne := (erasedSlots nd flags).length, validFlags := flags
      mx := deriveRecoveryCoefficients nd nr (erasedSlots nd flags).length flags }
    decKernel e heven
    (by
      rw [ne_eq, ← List.length_eq_zero_iff, substituteUnits_length]
      omega : substituteUnits nd nr flags units parity ≠ [])
    (fun d hd => facts.row_lt hsum hle he (by rwa [substituteUnits_length] at hd)) hsubLen hout
  refine block_ext hlen (hlenUnit _ (erasedSlots_getD_mem he).1) heven fun w hw => ?_
  rw [hval w hw, substituteUnits_length]
  refine facts.recover_word (D := fun d => toGf (wordOf (units.getD d []) w))
    (W := fun d => toGf (wordOf ((substituteUnits nd nr flags units parity).getD d []) w))
    hsum hle (fun d hd hflag => ?_) (fun r hr => ?_) he
  · rw [substituteUnits_healthy hd hflag]
  · obtain ⟨i, hi, hslotEq, hget⟩ := hslot r hr
    rw [hget, (hpar hi).2 w hw, hslotEq]

/-- Two data units and two parity units, the first unit of each kind lost. -/
theorem erasure_recovery_two_two :
    ∃ enc dec, init 2 2 none = some enc ∧
      init 2 2 (some [false, true, false, true]) = some dec ∧ dec.ne = 1 ∧
      ∀ e < dec.ne, ∀ out : List UInt8, out.length = 2 →
        dec.foldUnits .avx2 e 0
            (substituteUnits 2 2 [false, true, false, true] [[1, 2], [3, 4]]
              (encodeParity enc .scalar [[1, 2], [3, 4]] fun _ => [7, 7])) out
          = [[1, 2], [3, 4]].getD ((erasedSlots 2 [false, true, false, true]).getD e 0) [] :=
  erasure_recovery 2 2 2 (by decide) (by decide) (by decide) (by decide) [[1, 2], [3, 4]] rfl
    (by decide) [false, true, false, true] (by decide) (by decide) .scalar .avx2 (fun _ => [7, 7])
    (fun _ => rfl)

end OpenRar.Recovery
