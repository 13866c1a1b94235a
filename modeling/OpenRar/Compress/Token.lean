import OpenRar.Compress.Decompressor50

/-!
# Encoder tokens and their slots

Embedding of the token type of `compress/compressor50.hpp` and of the two slot
maps of `compress/compressor50.cpp`.  A length or a distance is coded as a slot
and extra bits; `slotLength` and `slotDistance` are what the decoder makes of
them, and the maps of the encoder are right inverses of these.
-/

namespace OpenRar.Compress

open List

/-- The tokens of a block.  The source keeps literals, matches and filters in three
arrays and their order in a fourth. -/
inductive Token
  | literal (b : UInt8)
  | match_ (lenSlot lenExtra distSlot distExtra : Nat)
  | rep (index lenSlot lenExtra : Nat)
  | lastLen
  | filter (blockStart blockLength type channels : Nat)
  deriving DecidableEq, Repr

/-- `MAX_LZ_MATCH` -/
def maxLzMatch : Nat := 0x1001

/-- `get_len_bits` -/
def lenBits (slot : Nat) : Nat :=
  if slot < 8 then 0 else slot / 4 - 1

/-- `get_dist_bits` -/
def distBits (slot : Nat) : Nat :=
  if slot < 4 then 0 else slot / 2 - 1

/-- Length of a slot and its extra bits. -/
def slotLength (slot extra : Nat) : Nat :=
  if slot < 8 then 2 + slot else 2 + (4 + slot % 4) * 2 ^ lenBits slot + extra

/-- Distance of a slot and its extra bits. -/
def slotDistance (slot extra : Nat) : Nat :=
  if slot < 4 then 1 + slot else 1 + (2 + slot % 2) * 2 ^ distBits slot + extra

/-! ## Lengths -/

/-- First value behind the range of a slot of the length table. -/
def lengthSlotEnd (slot : Nat) : Nat :=
  (4 + slot % 4) * 2 ^ (slot / 4 - 1) + 2 ^ (slot / 4 - 1)

/-- `length_to_slot`: the slot, its extra value and the number of extra bits.  The
source precomputes the search for every length. -/
def lengthToSlot (length : Nat) : Nat × Nat × Nat :=
  let v := length - 2
  if v < 8 then (v, 0, 0)
  else
    match (List.range' 8 36).find? (fun slot => v < lengthSlotEnd slot) with
    | some slot => (slot, v - (4 + slot % 4) * 2 ^ (slot / 4 - 1), slot / 4 - 1)
    | none => (0, 0, 0)

/-- The ranges of the length slots follow each other without gaps. -/
theorem lengthSlotEnd_succ :
    ∀ slot ∈ List.range' 8 35,
      (4 + (slot + 1) % 4) * 2 ^ ((slot + 1) / 4 - 1) = lengthSlotEnd slot := by
  decide

theorem exists_lengthSlot {v : Nat} (hge : 8 ≤ v) (hle : v ≤ maxLzMatch - 2) :
    ∃ slot, (List.range' 8 36).find? (fun slot => v < lengthSlotEnd slot) = some slot ∧
      8 ≤ slot ∧ slot < 44 ∧ (4 + slot % 4) * 2 ^ (slot / 4 - 1) ≤ v ∧ v < lengthSlotEnd slot := by
  cases hfind : (List.range' 8 36).find? (fun slot => v < lengthSlotEnd slot) with
  | none =>
    rw [List.find?_eq_none] at hfind
    have hlast := hfind 43 (by decide)
    have hend : lengthSlotEnd 43 = 4096 := by decide
    simp only [decide_eq_true_eq] at hlast
    unfold maxLzMatch at hle
    omega
  | some slot =>
    obtain ⟨hlt, i, hi, hslot, hbefore⟩ := List.find?_eq_some_iff_getElem.mp hfind
    rw [length_range'] at hi
    simp only [getElem_range', Nat.one_mul] at hslot
    refine ⟨slot, rfl, by omega, by omega, ?_, by simpa using hlt⟩
    -- The slot before the first one that fits ends at or below the value.
    cases i with
    | zero =>
      subst hslot
      exact hge
    | succ i =>
      have hprev := hbefore i (by omega)
      simp only [getElem_range', Nat.one_mul, Bool.not_eq_true', decide_eq_false_iff_not,
        Nat.not_lt] at hprev
      rw [← hslot, show 8 + (i + 1) = (8 + i) + 1 by omega,
        lengthSlotEnd_succ (8 + i) (by rw [mem_range'_1]; omega)]
      exact hprev

/-- **The length map is inverted by the decoder's rule.** -/
theorem lengthToSlot_spec {length : Nat} (hmin : 2 ≤ length) (hmax : length ≤ maxLzMatch) :
    (lengthToSlot length).1 < 44 ∧
      (lengthToSlot length).2.1 < 2 ^ lenBits (lengthToSlot length).1 ∧
      slotLength (lengthToSlot length).1 (lengthToSlot length).2.1 = length := by
  unfold lengthToSlot
  by_cases hv : length - 2 < 8
  · rw [if_pos hv]
    simp only [lenBits, slotLength, hv, if_true]
    refine ⟨by omega, by decide, by omega⟩
  · rw [if_neg hv]
    obtain ⟨slot, hfind, hge, hlt, hbase, hend⟩ :=
      exists_lengthSlot (v := length - 2) (by omega) (by omega)
    unfold lengthSlotEnd at hend
    simp only [hfind, lenBits, slotLength, if_neg (Nat.not_lt.mpr hge)]
    refine ⟨hlt, by omega, by omega⟩

/-! ## Distances -/

/-- `distance_to_slot`: the slot, its extra value and the number of extra bits. -/
def distanceToSlot (distance : Nat) : Nat × Nat × Nat :=
  if distance ≤ 4 then (distance - 1, 0, 0)
  else
    let dbits := Nat.log2 (distance - 1) - 1
    let bit := (distance - 1) / 2 ^ dbits % 2
    ((dbits + 1) * 2 + bit, distance - ((2 + bit) * 2 ^ dbits + 1), dbits)

theorem top_two_bits {n : Nat} (hn : 4 ≤ n) :
    1 ≤ Nat.log2 n - 1 ∧
      (2 + n / 2 ^ (Nat.log2 n - 1) % 2) * 2 ^ (Nat.log2 n - 1) ≤ n ∧
      n < (2 + n / 2 ^ (Nat.log2 n - 1) % 2) * 2 ^ (Nat.log2 n - 1) + 2 ^ (Nat.log2 n - 1) := by
  have hne : n ≠ 0 := by omega
  have hlog : 2 ≤ Nat.log2 n := (Nat.le_log2 hne).mpr hn
  obtain ⟨k, hk⟩ : ∃ k, Nat.log2 n = k + 1 := ⟨Nat.log2 n - 1, by omega⟩
  have hlow : 2 ^ (k + 1) ≤ n := by
    rw [← hk]
    exact Nat.log2_self_le hne
  have hhigh : n < 2 ^ (k + 2) := by
    have := Nat.lt_log2_self (n := n)
    rwa [hk] at this
  have hquot : n / 2 ^ k = 2 + n / 2 ^ k % 2 := by
    have h2 : 2 ≤ n / 2 ^ k := by
      rw [Nat.le_div_iff_mul_le (by positivity)]
      omega
    have h4 : n / 2 ^ k < 4 := by
      rw [Nat.div_lt_iff_lt_mul (by positivity)]
      rw [pow_add] at hhigh
      omega
    omega
  rw [hk, Nat.add_sub_cancel, ← hquot]
  have hdecomp := Nat.div_add_mod n (2 ^ k)
  rw [mul_comm] at hdecomp
  omega

/-- **The distance map is inverted by the decoder's rule.** -/
theorem distanceToSlot_spec {distance : Nat} (hpos : 0 < distance) :
    (distanceToSlot distance).2.1 < 2 ^ distBits (distanceToSlot distance).1 ∧
      (distanceToSlot distance).2.2 = distBits (distanceToSlot distance).1 ∧
      slotDistance (distanceToSlot distance).1 (distanceToSlot distance).2.1 = distance := by
  unfold distanceToSlot
  by_cases hsmall : distance ≤ 4
  · rw [if_pos hsmall]
    simp only [distBits, slotDistance, if_pos (show distance - 1 < 4 by omega)]
    refine ⟨by decide, trivial, by omega⟩
  · rw [if_neg hsmall]
    obtain ⟨hbits, hlow, hhigh⟩ := top_two_bits (n := distance - 1) (by omega)
    simp only
    generalize Nat.log2 (distance - 1) - 1 = dbits at hbits hlow hhigh ⊢
    have hbit : (distance - 1) / 2 ^ dbits % 2 < 2 := Nat.mod_lt _ (by decide)
    generalize (distance - 1) / 2 ^ dbits % 2 = bit at hlow hhigh hbit ⊢
    have hslot : ¬ (dbits + 1) * 2 + bit < 4 := by omega
    have hhalf : ((dbits + 1) * 2 + bit) / 2 - 1 = dbits := by omega
    have hlowbit : ((dbits + 1) * 2 + bit) % 2 = bit := by omega
    simp only [distBits, slotDistance, if_neg hslot, hhalf, hlowbit]
    refine ⟨by omega, trivial, by omega⟩

theorem distanceToSlot_lt {distance : Nat} (hmax : distance ≤ 2 ^ 32) :
    (distanceToSlot distance).1 < 64 := by
  unfold distanceToSlot
  split
  · omega
  · have hlog : Nat.log2 (distance - 1) < 32 := by
      rw [Nat.log2_lt (by omega)]
      omega
    simp only
    omega

end OpenRar.Compress
