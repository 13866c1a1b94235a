import OpenRar.Compress.BitReader
import OpenRar.Foundation.CanonicalCode

/-!
# The table-driven symbol decoder

Embedding of `HuffmanDecoder` of `compress/decompressor50.cpp`.  `build` turns a
list of code lengths into the four tables of the source; `decode` looks the next
ten bits up in the quick table and falls back to a search over the longer code
lengths.

The main result is that a decoder built from a list of code lengths reads the
canonical codeword of every used symbol.
-/

namespace OpenRar.Compress

open CanonicalCode List

/-- `HuffmanDecoder`: the tables are functions of their index.  A quick entry is
a code length, zero for none, and a symbol. -/
structure HuffmanDecoder where
  decodeLen : Nat → Nat
  decodePos : Nat → Nat
  decodeNum : Nat → Nat
  maxNum : Nat
  quickTable : Nat → Nat × Nat

namespace HuffmanDecoder

def maxSymbols : Nat := 306
def maxCodeBits : Nat := 15
def quickBits : Nat := 10

/-- Code length of a left-aligned 16-bit window, at most `bound`; the ends of the
ranges ascend, so the running search of the source stops at the same length. -/
def searchLength (decodeLen : Nat → Nat) (bitfield : Nat) : Nat → Nat → Nat
  | 0, from_ => from_
  | steps + 1, from_ =>
    if bitfield < decodeLen from_ then from_ else searchLength decodeLen bitfield steps (from_ + 1)

/-- The position of a window in the symbol table. -/
def position (decodeLen decodePos : Nat → Nat) (bits bitfield : Nat) : Nat :=
  decodePos bits + (bitfield - decodeLen (bits - 1)) / 2 ^ (16 - bits)

/-- `build`: refuses too many symbols, too long codes, and lengths that
oversubscribe the code space. -/
def build (lens : List Nat) : Option HuffmanDecoder :=
  if lens.length > maxSymbols then none
  else if ¬ ∀ l ∈ lens, l ≤ maxCodeBits then none
  else if ¬ Fits lens maxCodeBits then none
  else
    let decodeLen := fun i => upper lens i * 2 ^ (16 - i)
    let decodePos := start lens
    let decodeNum := fillSymbols decodePos (fun _ => 0) 0 lens
    some
      { decodeLen := decodeLen
        decodePos := decodePos
        decodeNum := decodeNum
        maxNum := lens.length
        quickTable := fun code =>
          let bitfield := code * 2 ^ (16 - quickBits)
          let curLen := searchLength decodeLen bitfield maxCodeBits 1
          if curLen > quickBits then (0, 0)
          else
            let pos := position decodeLen decodePos curLen bitfield
            (curLen, if pos < lens.length then decodeNum pos else 0) }

/-- `decode` -/
def decode (decoder : HuffmanDecoder) (reader : BitReader) : Nat × BitReader :=
  let entry := decoder.quickTable (reader.peekBits quickBits)
  if entry.1 ≠ 0 then (entry.2, reader.consumeBits entry.1)
  else
    -- The slow path left-aligns fifteen bits in sixteen.
    let bitfield := reader.peekBits maxCodeBits * 2
    let bits := searchLength decoder.decodeLen bitfield (maxCodeBits - quickBits - 1)
      (quickBits + 1)
    let pos := position decoder.decodeLen decoder.decodePos bits bitfield
    (decoder.decodeNum (if pos ≥ decoder.maxNum then 0 else pos), reader.consumeBits bits)

/-! ## The search -/

variable {decodeLen : Nat → Nat} {bitfield steps from_ : Nat}

theorem searchLength_eq {l : Nat} (hfrom : from_ ≤ l) (hsteps : l ≤ from_ + steps)
    (hbelow : ∀ i, from_ ≤ i → i < l → decodeLen i ≤ bitfield)
    (hlast : l = from_ + steps ∨ bitfield < decodeLen l) :
    searchLength decodeLen bitfield steps from_ = l := by
  induction steps generalizing from_ with
  | zero =>
    rw [searchLength]
    omega
  | succ steps ih =>
    rw [searchLength]
    by_cases hl : from_ = l
    · subst hl
      have hlt : bitfield < decodeLen from_ := by
        cases hlast with
        | inl h => omega
        | inr h => exact h
      rw [if_pos hlt]
    · have hge := hbelow from_ le_rfl (by omega)
      rw [if_neg (by omega)]
      apply ih
      · omega
      · omega
      · intro i hi hil
        exact hbelow i (by omega) hil
      · cases hlast with
        | inl h => exact Or.inl (by omega)
        | inr h => exact Or.inr h

theorem le_searchLength {k : Nat}
    (hk : k ≤ from_ + steps) (hbelow : ∀ i, from_ ≤ i → i < k → decodeLen i ≤ bitfield) :
    k ≤ searchLength decodeLen bitfield steps from_ := by
  induction steps generalizing from_ with
  | zero => exact hk
  | succ steps ih =>
    rw [searchLength]
    split
    · by_contra hlt
      have := hbelow from_ le_rfl (by omega)
      omega
    · exact ih (by omega) fun i hi => hbelow i (by omega)

/-! ## Correctness -/

/-- What `build` has checked. -/
structure Buildable (lens : List Nat) : Prop where
  count : lens.length ≤ maxSymbols
  bits : ∀ l ∈ lens, l ≤ maxCodeBits
  fits : Fits lens maxCodeBits

theorem build_isSome {lens : List Nat} (h : Buildable lens) : ∃ d, build lens = some d := by
  unfold build
  rw [if_neg (Nat.not_lt.mpr h.count), if_neg (not_not.mpr h.bits), if_neg (not_not.mpr h.fits)]
  exact ⟨_, rfl⟩

theorem buildable_of_build {lens : List Nat} {decoder : HuffmanDecoder}
    (hbuild : build lens = some decoder) : Buildable lens := by
  unfold build at hbuild
  split_ifs at hbuild with hcount hbits hfits
  exact ⟨Nat.not_lt.mp hcount, hbits, hfits⟩

section Decode

variable {lens : List Nat} {s : Nat}

variable {bitfield : Nat} {reader : BitReader} {rest : List Bool}

/-- The length of a used symbol is found in a window of sixteen bits that starts
with its code. -/
theorem searchLength_window (hs : s < lens.length) (hused : lens.getD s 0 ≠ 0) (steps from_ : Nat)
    (hfrom : from_ ≤ lens.getD s 0)
    (hsteps : lens.getD s 0 ≤ from_ + steps) (hlen : lens.getD s 0 ≤ 16)
    (hwindow : bitfield / 2 ^ (16 - lens.getD s 0) = codeOf lens s) :
    searchLength (fun i => upper lens i * 2 ^ (16 - i)) bitfield steps from_ = lens.getD s 0 := by
  apply searchLength_eq hfrom hsteps
  · intro i _ hi
    exact upper_le_window hlen hwindow hi
  · exact Or.inr (window_lt_upper hs hused hwindow)

theorem position_window (hused : lens.getD s 0 ≠ 0) (hlen : lens.getD s 0 ≤ 16)
    (hwindow : bitfield / 2 ^ (16 - lens.getD s 0) = codeOf lens s) :
    position (fun i => upper lens i * 2 ^ (16 - i)) (start lens) (lens.getD s 0) bitfield
      = start lens (lens.getD s 0) + rank lens s := by
  rw [position, window_offset hused hlen hwindow]

/-- The symbol table holds the symbol there. -/
theorem decodeNum_window (hs : s < lens.length) (hused : lens.getD s 0 ≠ 0) :
    fillSymbols (start lens) (fun _ => 0) 0 lens (start lens (lens.getD s 0) + rank lens s) =
      s := by
  rw [fillSymbols_eq (start_disjoint lens) hs hused, Nat.zero_add]

/-- The first bits of a window of `width` bits, left-aligned in sixteen. -/
theorem aligned_window (width : Nat)
    (hbits : reader.bits = codeword lens s ++ rest) (hcode : codeOf lens s < 2 ^ lens.getD s 0)
    (hlen : lens.getD s 0 ≤ width) (hwidth : width ≤ 16) :
    reader.window width * 2 ^ (16 - width) / 2 ^ (16 - lens.getD s 0) = codeOf lens s := by
  have hpre : (codeword lens s).length ≤ width := by rwa [codeword_length]
  have hdiv := BitReader.window_div hbits hpre
  rw [toNat_codeword hcode, codeword_length] at hdiv
  have hsplit : 16 - lens.getD s 0 = (width - lens.getD s 0) + (16 - width) := by omega
  rw [hsplit, pow_add, Nat.mul_div_mul_right _ _ (by positivity), hdiv]

/-- Ten bits do not reach a longer code. -/
theorem quick_window_ge
    (hbits : reader.bits = codeword lens s ++ rest) (hcode : codeOf lens s < 2 ^ lens.getD s 0)
    (hlong : quickBits < lens.getD s 0) {i : Nat} (hi : i < quickBits + 1) :
    upper lens i * 2 ^ (16 - i) ≤ reader.window quickBits * 2 ^ (16 - quickBits) := by
  unfold quickBits at *
  have hle : upper lens i * 2 ^ (lens.getD s 0 - i) ≤ codeOf lens s :=
    upper_le_window le_rfl (by simp) (by omega)
  have htop : reader.window 10 = codeOf lens s / 2 ^ (lens.getD s 0 - 10) := by
    have hpre : reader.bits
        = (codeword lens s).take 10 ++ ((codeword lens s).drop 10 ++ rest) := by
      rw [hbits, ← append_assoc, take_append_drop]
    have hlen : ((codeword lens s).take 10).length = 10 := by
      rw [length_take, codeword_length]
      omega
    have hdiv := BitReader.window_div hpre hlen.le
    rw [hlen, Nat.sub_self, pow_zero, Nat.div_one, BitString.toNat_take, toNat_codeword hcode,
      codeword_length] at hdiv
    exact hdiv
  have hsplit : ∀ m, i ≤ 10 → 10 ≤ m → 2 ^ (m - i) = 2 ^ (10 - i) * 2 ^ (m - 10) := by
    intro m h1 h2
    rw [← pow_add]
    congr 1
    omega
  rw [hsplit _ (by omega) (by omega), ← mul_assoc] at hle
  rw [hsplit 16 (by omega) (by omega), ← mul_assoc, htop]
  exact Nat.mul_le_mul_right _ ((Nat.le_div_iff_mul_le (by positivity)).mpr hle)

end Decode

section

variable {lens : List Nat} {decoder : HuffmanDecoder} (hbuild : build lens = some decoder) {s : Nat}
    (hs : s < lens.length) (hused : lens.getD s 0 ≠ 0)
include hbuild hs hused

theorem used_symbol : lens.getD s 0 ≤ maxCodeBits ∧ codeOf lens s < 2 ^ lens.getD s 0 := by
  have hok := buildable_of_build hbuild
  have hl : lens.getD s 0 ≤ maxCodeBits := by
    apply hok.bits
    rw [getD_eq_getElem _ _ hs]
    exact getElem_mem hs
  exact ⟨hl, codeOf_lt_two_pow hok.fits hs hused hl⟩

/-- **The quick table answers for codes of at most ten bits**, and for no others. -/
theorem quickTable_codeword {reader : BitReader} {rest : List Bool}
    (hbits : reader.bits = codeword lens s ++ rest) :
    decoder.quickTable (reader.peekBits quickBits)
      = if lens.getD s 0 ≤ quickBits then (lens.getD s 0, s) else (0, 0) := by
  obtain ⟨hl, hcode⟩ := used_symbol hbuild hs hused
  have hquick : reader.peekBits quickBits = reader.window quickBits := rfl
  unfold maxCodeBits at hl
  unfold build at hbuild
  split_ifs at hbuild
  cases hbuild
  split_ifs with hshort
  · have hwindow := aligned_window quickBits hbits hcode hshort (by decide)
    have hfound := searchLength_window hs hused maxCodeBits 1 (by omega)
      (by unfold maxCodeBits; omega) (by omega) hwindow
    simp only [hquick, hfound, if_neg (Nat.not_lt.mpr hshort),
      position_window hused (by omega) hwindow, if_pos (start_add_rank_lt_length hs hused),
      decodeNum_window hs hused]
  · have hmiss : quickBits < searchLength (fun i => upper lens i * 2 ^ (16 - i))
        (reader.window quickBits * 2 ^ (16 - quickBits)) maxCodeBits 1 :=
      le_searchLength (by decide) fun i _ hi =>
        quick_window_ge hbits hcode (Nat.not_le.mp hshort) hi
    simp [hquick, if_pos hmiss]

/-- **A decoder reads the codeword of every used symbol.** -/
theorem decode_codeword (rest : List Bool) (consumed : Nat) (truncated : Bool) :
    decoder.decode ⟨codeword lens s ++ rest, consumed, truncated⟩
      = (s, ⟨rest, consumed + lens.getD s 0, truncated⟩) := by
  obtain ⟨hl, hcode⟩ := used_symbol hbuild hs hused
  have hconsume := BitReader.consumeBits_append (codeword lens s) rest consumed truncated
    (codeword_length lens s)
  generalize hreader : BitReader.mk (codeword lens s ++ rest) consumed truncated = reader
    at hconsume
  have hbits : reader.bits = codeword lens s ++ rest := by rw [← hreader]
  have hentry := quickTable_codeword hbuild hs hused hbits
  unfold maxCodeBits at hl
  by_cases hshort : lens.getD s 0 ≤ quickBits
  · rw [if_pos hshort] at hentry
    simp only [decode, hentry, hused, ne_eq, not_false_eq_true, if_true, hconsume]
  · -- Codes of more than ten bits take the slow path.
    rw [if_neg hshort] at hentry
    have hwindow := aligned_window 15 hbits hcode hl (by decide)
    have hslow : reader.peekBits maxCodeBits * 2 = reader.window 15 * 2 ^ (16 - 15) := rfl
    have hfound := searchLength_window hs hused (maxCodeBits - quickBits - 1)
      (quickBits + 1) (by omega)
      (by unfold maxCodeBits quickBits at *; omega) (by omega) hwindow
    have hpos := start_add_rank_lt_length hs hused
    simp only [decode, hentry, ne_eq, not_true_eq_false, if_false]
    unfold build at hbuild
    split_ifs at hbuild
    cases hbuild
    simp only [hslow, hfound, position_window hused (by omega) hwindow,
      if_neg (Nat.not_le.mpr hpos), decodeNum_window hs hused, hconsume]

end

end HuffmanDecoder

end OpenRar.Compress
