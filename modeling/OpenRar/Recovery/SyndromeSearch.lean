import OpenRar.Recovery.ErasureRecovery

/-!
# Localisation by syndromes

Embedding of the first tier of `RecoveryWriter::repair`: the parity of the chunks on
disk is computed again, the syndromes are its differences from the stored parity, and
a chunk is a candidate if its column of the generator explains all syndromes at once.

An error in one chunk gives syndromes that are multiples of one column.  Two columns
of a Cauchy matrix are independent in any two rows, so no other chunk explains them.
-/

namespace OpenRar.Recovery

open BinaryField LuInversion CauchyErasure Finset OpenRar.Core

/-! ## The search -/

/-- `recomputed_parity[j]`: all chunks folded into a zeroed buffer. -/
def recomputedParity (rs : ReedSolomon16) (kernel : FoldKernel) (groupCount : Nat)
    (chunks : List (List UInt8)) (j : Nat) : List UInt8 :=
  rs.foldUnits kernel j 0 chunks (List.replicate groupCount 0)

/-- `syndromes[j]` -/
def syndrome (stored recomputed : List UInt8) : List UInt8 :=
  List.zipWith (fun p r => p ^^^ r) stored recomputed

/-- What the search reads: the flags of the shards and chunks, and the syndromes of
the valid parity shards. -/
structure SyndromeScan where
  d : Nat
  nr : Nat
  groupCount : Nat
  parityValid : List Bool
  dataValid : List Bool
  syndromes : Nat → List UInt8

namespace SyndromeScan

variable (scan : SyndromeScan)

/-- `parity_valid[j]` -/
def usable (j : Nat) : Bool := scan.parityValid.getD j false

/-- `parity_valid_count` -/
def parityValidCount : Nat :=
  ((List.range scan.nr).filter scan.usable).length

/-- `missing_data` -/
def missingData : Nat :=
  scan.d - ((List.range scan.d).filter fun i => scan.dataValid.getD i false).length

/-- `first_non_zero_j` -/
def firstNonZero : Option Nat :=
  (List.range scan.nr).find? fun j => scan.usable j && (scan.syndromes j).any (· != 0)

/-- The coefficient of chunk `e` in parity shard `j`. -/
def column (j e : Nat) : Nat := gfInv (gfAdd (j + scan.d) e)

/-- `candidate_matches` -/
def candidateMatches (j0 e : Nat) : Bool :=
  (List.range scan.nr).all fun j =>
    !scan.usable j || j == j0 ||
      (List.range (scan.groupCount / 2)).all fun w =>
        gfMul (wordOf (scan.syndromes j) w) (scan.column j0 e)
          == gfMul (wordOf (scan.syndromes j0) w) (scan.column j e)

/-- `matching_candidates` -/
def matchingCandidates : List Nat :=
  if scan.parityValidCount ≥ 2 ∧ scan.missingData = 0 then
    match scan.firstNonZero with
    | none => []
    | some j0 => (List.range scan.d).filter fun e =>
      scan.dataValid.getD e false && scan.candidateMatches j0 e
  else []

end SyndromeScan

/-- The scan of the chunks on disk against the stored parity. -/
def scanDisk (rs : ReedSolomon16) (kernel : FoldKernel) (d nr groupCount : Nat)
    (parityValid dataValid : List Bool) (stored : Nat → List UInt8) (chunks : List (List UInt8)) :
    SyndromeScan where
  d := d
  nr := nr
  groupCount := groupCount
  parityValid := parityValid
  dataValid := dataValid
  syndromes := fun j => syndrome (stored j) (recomputedParity rs kernel groupCount chunks j)

/-- The search over the chunks on disk; `none` if the encoder refuses the shape. -/
def tier1Candidates (kernel : FoldKernel) (d nr groupCount : Nat)
    (parityValid dataValid : List Bool)
    (stored : Nat → List UInt8) (chunks : List (List UInt8)) : Option (List Nat) :=
  (ReedSolomon16.init d nr none).map fun rs =>
    (scanDisk rs kernel d nr groupCount parityValid dataValid stored chunks).matchingCandidates

/-! ## The encoder of a record -/

/-- The encoder of `d` chunks and `nr` parity shards. -/
def parityEncoder (d nr : Nat) : ReedSolomon16 where
  nd := d
  nr := nr
  ne := 0
  validFlags := []
  mx := fillParityCoefficients d

theorem init_parityEncoder {d nr : Nat} (hd : 0 < d) (hnr : 0 < nr) (hsum : d + nr ≤ 65535) :
    ReedSolomon16.init d nr none = some (parityEncoder d nr) := by
  have hmod : (d + nr) % 2 ^ 32 = d + nr := Nat.mod_eq_of_lt (by omega)
  have hfit : ¬ nr > sizeMax / d := by
    rw [gt_iff_lt, Nat.div_lt_iff_lt_mul hd, Nat.not_lt]
    have hle : nr * d ≤ 65535 * 65535 := Nat.mul_le_mul (by omega) (by omega)
    exact hle.trans (by decide)
  unfold ReedSolomon16.init
  rw [hmod, if_neg (by unfold gfSize; omega)]
  simp only [if_neg hfit]
  rfl

section Columns

variable {d nr : Nat}

theorem column_lt (hsum : d + nr ≤ 65535) {j i : Nat} (hj : j < nr) (hi : i < d) :
    fillParityCoefficients d j i < 65536 ∧
      toGf (fillParityCoefficients d j i) = (toGf (d + j) - toGf i)⁻¹ :=
  toGf_xor_inv (by omega) (by omega)

theorem slots_ne {p q : Nat} (hp : p < 65536) (hq : q < 65536) (hne : p ≠ q) :
    toGf p - toGf q ≠ 0 := by
  intro h
  exact hne (toGf_injective hp hq (sub_eq_zero.mp h))

/-- **Two columns of the generator are independent in any two rows.** -/
theorem minor_ne_zero (hsum : d + nr ≤ 65535) {j k e f : Nat} (hj : j < nr) (hk : k < nr)
    (hjk : j ≠ k) (he : e < d) (hf : f < d) (hef : e ≠ f) :
    (toGf (d + j) - toGf e)⁻¹ * (toGf (d + k) - toGf f)⁻¹
      ≠ (toGf (d + k) - toGf e)⁻¹ * (toGf (d + j) - toGf f)⁻¹ := by
  have hrows := slots_ne (p := d + j) (q := d + k) (by omega) (by omega) (by omega)
  have hcols := slots_ne (p := e) (q := f) (by omega) (by omega) hef
  intro h
  rw [← mul_inv, ← mul_inv, inv_inj] at h
  -- The difference of the two products is the product of the differences.
  have hfactor : (toGf (d + j) - toGf (d + k)) * (toGf e - toGf f) = 0 := by
    linear_combination h
  rcases mul_eq_zero.mp hfactor with hzero | hzero
  · exact hrows hzero
  · exact hcols hzero

end Columns

/-! ## Syndromes of an error in one chunk -/

theorem toWords_zipWith_xor : ∀ a b : List UInt8, a.length = b.length →
    toWords (List.zipWith (fun p r => p ^^^ r) a b)
      = List.zipWith (fun p r => p ^^^ r) (toWords a) (toWords b)
  | [], [], _ => rfl
  | [_], [_], _ => rfl
  | a0 :: a1 :: a, b0 :: b1 :: b, h => by
      have ih := toWords_zipWith_xor a b (by simpa using h)
      simp only [List.zipWith_cons_cons, toWords]
      congr 1
      apply Nat.eq_of_testBit_eq
      intro i
      by_cases hi : i < 8
      · simp [Nat.not_le.mpr hi]
      · have hlow : ∀ x : UInt8, x.toNat.testBit i = false := fun x =>
          Nat.testBit_lt_two_pow (lt_of_lt_of_le x.toNat_lt (Nat.pow_le_pow_right (by decide)
            (Nat.not_lt.mp hi)))
        simp [hlow, Nat.not_lt.mp hi]

theorem toGf_wordOf_syndrome {a b : List UInt8} (h : a.length = b.length) {w : Nat}
    (hw : w < a.length / 2) :
    toGf (wordOf (syndrome a b) w) = toGf (wordOf a w) + toGf (wordOf b w) := by
  have ha : w < (toWords a).length := by rwa [toWords_length]
  have hb : w < (toWords b).length := by rwa [toWords_length, ← h]
  rw [← toGf_gfAdd]
  rw [wordOf, syndrome, toWords_zipWith_xor a b h]
  simp [wordOf, gfAdd, ha, hb]

section Single

variable {d nr groupCount : Nat} {chunks : List (List UInt8)}

variable {j w : Nat} {bad : List UInt8}

theorem recomputed_spec (hsum : d + nr ≤ 65535) (kernel : FoldKernel) (heven : Even groupCount)
    (hd : chunks.length = d) (hpos : 0 < d) (hlen : ∀ u ∈ chunks, u.length = groupCount)
    (hj : j < nr) :
    (recomputedParity (parityEncoder d nr) kernel groupCount chunks j).length = groupCount ∧
      ∀ w < groupCount / 2,
        toGf (wordOf (recomputedParity (parityEncoder d nr) kernel groupCount chunks j) w)
          = ∑ i ∈ range d, (toGf (d + j) - toGf i)⁻¹ * toGf (wordOf (chunks.getD i []) w) := by
  have hne : chunks ≠ [] := by
    rintro rfl
    rw [List.length_nil] at hd
    omega
  obtain ⟨hlength, hwords⟩ := foldUnits_spec (parityEncoder d nr) kernel j heven hne
    (fun i hi => (column_lt hsum hj (by omega)).1) hlen (List.length_replicate (n := groupCount))
  refine ⟨hlength, fun w hw => ?_⟩
  rw [recomputedParity, hwords w hw, hd]
  refine Finset.sum_congr rfl fun i hi => ?_
  have hcolumn := (column_lt hsum hj (mem_range.mp hi)).2
  change toGf (fillParityCoefficients d j i) * _ = _
  rw [hcolumn]

/-- The error in chunk `e`, word by word. -/
noncomputable def errorWord (chunks : List (List UInt8)) (e : Nat) (bad : List UInt8) (w : Nat) :
    GfRing :=
  toGf (wordOf (chunks.getD e []) w) + toGf (wordOf bad w)

/-- **The syndromes of an error in one chunk are multiples of its column.** -/
theorem toGf_syndrome (hsum : d + nr ≤ 65535) (kernel writer : FoldKernel)
    (heven : Even groupCount) (hd : chunks.length = d)
    (hlen : ∀ u ∈ chunks, u.length = groupCount) {e : Nat} (he : e < d)
    (hbad : bad.length = groupCount) (hj : j < nr) (hw : w < groupCount / 2) :
    toGf (wordOf (syndrome (recomputedParity (parityEncoder d nr) writer groupCount chunks j)
        (recomputedParity (parityEncoder d nr) kernel groupCount (chunks.set e bad) j)) w)
      = (toGf (d + j) - toGf e)⁻¹ * errorWord chunks e bad w := by
  have hpos : 0 < d := by omega
  obtain ⟨hstored, hstoredWord⟩ := recomputed_spec hsum writer heven hd hpos hlen hj
  have hsetLen : ∀ u ∈ chunks.set e bad, u.length = groupCount := by
    intro u hu
    rcases List.mem_or_eq_of_mem_set hu with hmem | rfl
    · exact hlen u hmem
    · exact hbad
  obtain ⟨hagain, hagainWord⟩ := recomputed_spec hsum kernel heven
    (by rw [List.length_set, hd]) hpos hsetLen hj
  rw [toGf_wordOf_syndrome (by rw [hstored, hagain]) (by rw [hstored]; exact hw), hstoredWord w hw,
    hagainWord w hw, ← Finset.sum_add_distrib, Finset.sum_eq_single e]
  · have hget : (chunks.set e bad).getD e [] = bad := by
      rw [List.getD_eq_getElem?_getD, List.getElem?_set_self (by omega)]
      rfl
    rw [hget, ← mul_add, errorWord]
  · -- The other chunks cancel.
    intro i _ hne
    have hget : (chunks.set e bad).getD i [] = chunks.getD i [] := by
      rw [List.getD_eq_getElem?_getD, List.getElem?_set_ne (Ne.symm hne),
        List.getD_eq_getElem?_getD]
    rw [hget, CharTwo.add_self_eq_zero]
  · intro hnot
    exact absurd (mem_range.mpr he) hnot

theorem exists_errorWord_ne_zero (heven : Even groupCount) (hd : chunks.length = d)
    (hlen : ∀ u ∈ chunks, u.length = groupCount) {e : Nat} (he : e < d)
    (hbad : bad.length = groupCount) (herror : bad ≠ chunks.getD e []) :
    ∃ w < groupCount / 2, errorWord chunks e bad w ≠ 0 := by
  by_contra hnone
  have hzero : ∀ w < groupCount / 2, errorWord chunks e bad w = 0 := by
    intro w hw
    by_contra hne
    exact hnone ⟨w, hw, hne⟩
  have htrue : (chunks.getD e []).length = groupCount := by
    have hlt : e < chunks.length := by omega
    rw [List.getD_eq_getElem _ _ hlt]
    exact hlen _ (List.getElem_mem hlt)
  apply herror
  apply block_ext hbad htrue heven
  intro w hw
  exact (CharTwo.add_eq_zero.mp (hzero w hw)).symm

theorem any_ne_zero_of_wordOf {block : List UInt8} (h : toGf (wordOf block w) ≠ 0) :
    block.any (· != 0) = true := by
  by_contra hnone
  have hzero : block = List.replicate block.length 0 := by
    rw [List.eq_replicate_iff]
    refine ⟨rfl, fun b hb => ?_⟩
    by_contra hne
    exact hnone (List.any_eq_true.mpr ⟨b, hb, by simpa using hne⟩)
  apply h
  rw [hzero, wordOf_replicate_zero, toGf_zero]

end Single

/-! ## The search finds the chunk -/

theorem filter_range_eq_singleton {d e : Nat} (he : e < d) {p : Nat → Bool}
    (hself : p e = true) (hother : ∀ i < d, i ≠ e → p i = false) :
    (List.range d).filter p = [e] := by
  have hsame : (List.range d).filter p = (List.range d).filter (· == e) := by
    apply List.filter_congr
    intro i hi
    by_cases hie : i = e
    · rw [hie, hself]
      simp
    · rw [hother i (List.mem_range.mp hi) hie]
      simp [hie]
  have hcount : (List.range d).count e = 1 :=
    List.count_eq_one_of_mem List.nodup_range (List.mem_range.mpr he)
  rw [hsame, List.filter_beq, hcount]
  rfl

/-- With two usable shards there is one besides any given shard. -/
theorem exists_other_usable {scan : SyndromeScan} (hcount : 2 ≤ scan.parityValidCount) (j0 : Nat) :
    ∃ j < scan.nr, scan.usable j = true ∧ j ≠ j0 := by
  by_contra hnone
  have hall : ∀ j ∈ (List.range scan.nr).filter scan.usable, j = j0 := by
    intro j hj
    obtain ⟨hrange, huse⟩ := List.mem_filter.mp hj
    by_contra hne
    exact hnone ⟨j, List.mem_range.mp hrange, huse, hne⟩
  have hnodup : ((List.range scan.nr).filter scan.usable).Nodup := List.nodup_range.filter _
  have hreplicate := List.eq_replicate_iff.mpr ⟨rfl, hall⟩
  rw [hreplicate, List.nodup_replicate] at hnodup
  unfold SyndromeScan.parityValidCount at hcount
  omega

section Locate

variable {scan : SyndromeScan} {e : Nat} {err : Nat → GfRing}

/-- The syndromes of the usable shards are multiples of the column of chunk `e`. -/
def ErrorIn (scan : SyndromeScan) (e : Nat) (err : Nat → GfRing) : Prop :=
  ∀ j < scan.nr, scan.usable j = true → ∀ w < scan.groupCount / 2,
    toGf (wordOf (scan.syndromes j) w) = (toGf (scan.d + j) - toGf e)⁻¹ * err w

section

variable (hsum : scan.d + scan.nr ≤ 65535)
include hsum

variable {j j0 f w : Nat}

theorem scan_column {i : Nat} (hj : j < scan.nr) (hi : i < scan.d) :
    scan.column j i < 65536 ∧ toGf (scan.column j i) = (toGf (scan.d + j) - toGf i)⁻¹ := by
  unfold SyndromeScan.column
  rw [Nat.add_comm j]
  exact column_lt hsum hj hi

/-- One comparison of the search, in the field. -/
theorem cross_products_eq_iff (herr : ErrorIn scan e err) (hj : j < scan.nr) (hj0 : j0 < scan.nr)
    (huse : scan.usable j = true)
    (huse0 : scan.usable j0 = true) (hf : f < scan.d) (hw : w < scan.groupCount / 2) :
    gfMul (wordOf (scan.syndromes j) w) (scan.column j0 f)
        = gfMul (wordOf (scan.syndromes j0) w) (scan.column j f) ↔
      (toGf (scan.d + j) - toGf e)⁻¹ * err w * (toGf (scan.d + j0) - toGf f)⁻¹
        = (toGf (scan.d + j0) - toGf e)⁻¹ * err w * (toGf (scan.d + j) - toGf f)⁻¹ := by
  obtain ⟨hlt0, hcol0⟩ := scan_column hsum hj0 hf
  obtain ⟨hlt, hcol⟩ := scan_column hsum hj hf
  obtain ⟨hleft, hleftGf⟩ := gfMul_spec (wordOf_lt (scan.syndromes j) w) hlt0
  obtain ⟨hright, hrightGf⟩ := gfMul_spec (wordOf_lt (scan.syndromes j0) w) hlt
  rw [← herr j hj huse w hw, ← herr j0 hj0 huse0 w hw, ← hcol0, ← hcol, ← hleftGf, ← hrightGf]
  constructor
  · intro h
    rw [h]
  · exact toGf_injective hleft hright

theorem candidateMatches_self (herr : ErrorIn scan e err)
    (he : e < scan.d) (hj0 : j0 < scan.nr) (huse0 : scan.usable j0 = true) :
    scan.candidateMatches j0 e = true := by
  unfold SyndromeScan.candidateMatches
  rw [List.all_eq_true]
  intro j hj
  rw [List.mem_range] at hj
  cases huse : scan.usable j with
  | false => rfl
  | true =>
    rw [Bool.or_eq_true]
    right
    rw [List.all_eq_true]
    intro w hw
    rw [List.mem_range] at hw
    rw [beq_iff_eq, cross_products_eq_iff hsum herr hj hj0 huse huse0 he hw]
    ring

theorem candidateMatches_other (herr : ErrorIn scan e err)
    (he : e < scan.d) (hj0 : j0 < scan.nr) (huse0 : scan.usable j0 = true)
    (hcount : 2 ≤ scan.parityValidCount) (hw : w < scan.groupCount / 2)
    (hne : err w ≠ 0) (hf : f < scan.d) (hfe : f ≠ e) :
    scan.candidateMatches j0 f = false := by
  obtain ⟨j, hj, huse, hjj0⟩ := exists_other_usable hcount j0
  by_contra hmatch
  rw [Bool.not_eq_false, SyndromeScan.candidateMatches, List.all_eq_true] at hmatch
  have hshard := hmatch j (List.mem_range.mpr hj)
  have hskip : (!scan.usable j || j == j0) = false := by
    rw [huse, Bool.or_eq_false_iff, beq_eq_false_iff_ne]
    exact ⟨rfl, hjj0⟩
  rw [hskip, Bool.false_or, List.all_eq_true] at hshard
  have hword := hshard w (List.mem_range.mpr hw)
  rw [beq_iff_eq, cross_products_eq_iff hsum herr hj hj0 huse huse0 hf hw] at hword
  apply minor_ne_zero hsum hj hj0 hjj0 he hf (Ne.symm hfe)
  apply mul_right_cancel₀ hne
  linear_combination hword

/-- **Exactly the damaged chunk is a candidate.** -/
theorem matchingCandidates_eq (herr : ErrorIn scan e err)
    (he : e < scan.d) (hcount : 2 ≤ scan.parityValidCount)
    (hw : w < scan.groupCount / 2) (hne : err w ≠ 0)
    (hvalid : ∀ i < scan.d, scan.dataValid.getD i false = true) :
    scan.matchingCandidates = [e] := by
  have hmissing : scan.missingData = 0 := by
    unfold SyndromeScan.missingData
    rw [List.filter_eq_self.mpr fun i hi => hvalid i (List.mem_range.mp hi), List.length_range]
    omega
  -- Some usable shard has a syndrome that is not zero.
  obtain ⟨j, hj, huse, -⟩ := exists_other_usable hcount scan.nr
  have hnonzero : (scan.syndromes j).any (· != 0) = true := by
    apply any_ne_zero_of_wordOf (w := w)
    rw [herr j hj huse w hw]
    exact mul_ne_zero (inv_ne_zero (slots_ne (by omega) (by omega) (by omega))) hne
  unfold SyndromeScan.matchingCandidates
  rw [if_pos ⟨hcount, hmissing⟩]
  cases hfirst : scan.firstNonZero with
  | none =>
    have := List.find?_eq_none.mp hfirst j (List.mem_range.mpr hj)
    simp [huse, hnonzero] at this
  | some j0 =>
    have hj0 : j0 < scan.nr := List.mem_range.mp (List.mem_of_find?_eq_some hfirst)
    have huse0 : scan.usable j0 = true := by
      have := List.find?_some hfirst
      rw [Bool.and_eq_true] at this
      exact this.1
    apply filter_range_eq_singleton he
    · rw [hvalid e he, candidateMatches_self hsum herr he hj0 huse0]
      rfl
    · intro f hf hfe
      rw [candidateMatches_other hsum herr he hj0 huse0 hcount hw hne hf hfe, Bool.and_false]

end

end Locate

/-- **Syndrome localisation of one bad chunk.**  The chunks on disk differ from the
protected data in chunk `e` only, at least two parity shards are valid, and the valid
ones hold the parity of the data: the search yields chunk `e` and no other. -/
theorem tier1_locates_chunk {d nr groupCount : Nat} (hsum : d + nr ≤ 65535)
    (kernel writer : FoldKernel) (heven : Even groupCount) {chunks : List (List UInt8)}
    (hd : chunks.length = d) (hlen : ∀ u ∈ chunks, u.length = groupCount) {e : Nat} (he : e < d)
    {bad : List UInt8} (hbad : bad.length = groupCount) (herror : bad ≠ chunks.getD e [])
    {parityValid : List Bool}
    (hcount : 2 ≤ ((List.range nr).filter fun j => parityValid.getD j false).length)
    {stored : Nat → List UInt8}
    (htrue : ∀ j < nr, parityValid.getD j false = true →
      stored j = recomputedParity (parityEncoder d nr) writer groupCount chunks j) :
    tier1Candidates kernel d nr groupCount parityValid (List.replicate d true) stored
      (chunks.set e bad) = some [e] := by
  have hnr : 0 < nr := by
    rcases Nat.eq_zero_or_pos nr with rfl | hpos
    · simp at hcount
    · exact hpos
  obtain ⟨w, hw, hne⟩ := exists_errorWord_ne_zero heven hd hlen he hbad herror
  have herr : ErrorIn (scanDisk (parityEncoder d nr) kernel d nr groupCount parityValid
      (List.replicate d true) stored (chunks.set e bad)) e (errorWord chunks e bad) := by
    intro j hj huse w hw
    change toGf (wordOf (syndrome (stored j) _) w) = _
    rw [htrue j hj huse]
    exact toGf_syndrome hsum kernel writer heven hd hlen he hbad hj hw
  have hvalid : ∀ i < d, (List.replicate d true).getD i false = true := by
    intro i hi
    rw [List.getD_eq_getElem?_getD, List.getElem?_replicate, if_pos hi]
    rfl
  unfold tier1Candidates
  rw [init_parityEncoder (by omega) hnr hsum, Option.map_some,
    matchingCandidates_eq hsum herr he hcount hw hne hvalid]

/-- Three chunks of four bytes. -/
def threeChunks : List (List UInt8) := [[1, 2, 3, 4], [5, 6, 7, 8], [9, 10, 11, 12]]

/-- Two parity shards for them, and one byte of the middle chunk changed. -/
theorem tier1_locates_middle_chunk :
    tier1Candidates .scalar 3 2 4 [true, true] (List.replicate 3 true)
      (recomputedParity (parityEncoder 3 2) .avx2 4 threeChunks) (threeChunks.set 1 [5, 6, 0, 8])
      = some [1] := by
  have hlen : ∀ u ∈ threeChunks, u.length = 4 := by decide
  have hne : ([5, 6, 0, 8] : List UInt8) ≠ threeChunks.getD 1 [] := by decide
  exact tier1_locates_chunk (by decide) .scalar .avx2 (by decide) rfl hlen (by decide) rfl hne
    (by decide) (fun _ _ _ => rfl)

end OpenRar.Recovery
