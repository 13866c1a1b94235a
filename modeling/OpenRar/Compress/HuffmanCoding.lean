import OpenRar.Compress.HuffmanBuilder
import OpenRar.Compress.HuffmanDecoder

/-!
# Code construction against decoding

The builder of the encoder and the table-driven decoder meet in the list of code
lengths.  This module puts the two together: the lengths built from any frequencies
describe a prefix code for exactly the used symbols, the decoder accepts them, and it
reads every code word back, through the quick table or past it.

The source fills the quick table in one pass with a running code length; the model
searches anew for every entry.  `runningLength` is the running form, and it finds the
same length.
-/

namespace OpenRar.Compress

open CanonicalCode List HuffmanBuilder HuffmanDecoder

namespace HuffmanDecoder

/-- `cur_len` of the loop that fills the quick table, at the entry `code`: the search goes
on where the entry before it stopped. -/
def runningLength (decodeLen : Nat → Nat) : Nat → Nat
  | 0 => searchLength decodeLen 0 maxCodeBits 1
  | code + 1 =>
    let curLen := runningLength decodeLen code
    searchLength decodeLen ((code + 1) * 2 ^ (16 - quickBits)) (maxCodeBits + 1 - curLen) curLen

theorem searchLength_le (decodeLen : Nat → Nat) (bitfield steps from_ : Nat) :
    searchLength decodeLen bitfield steps from_ ≤ from_ + steps := by
  induction steps generalizing from_ with
  | zero => exact Nat.le_refl _
  | succ steps ih =>
    unfold searchLength
    split
    · omega
    · have := ih (from_ + 1)
      omega

variable {decodeLen : Nat → Nat} {bitfield steps from_ : Nat}

theorem searchLength_below {i : Nat} (hfrom : from_ ≤ i)
    (hi : i < searchLength decodeLen bitfield steps from_) : decodeLen i ≤ bitfield := by
  induction steps generalizing from_ with
  | zero =>
    unfold searchLength at hi
    omega
  | succ steps ih =>
    unfold searchLength at hi
    split at hi
    · omega
    · rcases Nat.eq_or_lt_of_le hfrom with rfl | hlt
      · exact Nat.not_lt.mp ‹_›
      · exact ih hlt hi

/-- A search may start behind lengths that the window is known to lie past. -/
theorem searchLength_skip {skip : Nat}
    (hskip : skip ≤ steps) (hbelow : ∀ i, from_ ≤ i → i < from_ + skip → decodeLen i ≤ bitfield) :
    searchLength decodeLen bitfield steps from_
      = searchLength decodeLen bitfield (steps - skip) (from_ + skip) := by
  induction skip generalizing from_ steps with
  | zero => rfl
  | succ skip ih =>
    obtain ⟨steps, rfl⟩ : ∃ k, steps = k + 1 := ⟨steps - 1, by omega⟩
    rw [searchLength, if_neg (Nat.not_lt.mpr (hbelow from_ (Nat.le_refl _) (by omega))),
      ih (by omega) fun i hi hlt => hbelow i (by omega) (by omega)]
    congr 1 <;> omega

/-- **The running search of the source finds the length of the search from the start.** -/
theorem runningLength_eq (decodeLen : Nat → Nat) (code : Nat) :
    runningLength decodeLen code
      = searchLength decodeLen (code * 2 ^ (16 - quickBits)) maxCodeBits 1 := by
  induction code with
  | zero => rw [runningLength, Nat.zero_mul]
  | succ code ih =>
    have hle := searchLength_le decodeLen (code * 2 ^ (16 - quickBits)) maxCodeBits 1
    have hpos : 1 ≤ searchLength decodeLen (code * 2 ^ (16 - quickBits)) maxCodeBits 1 :=
      le_searchLength (by decide) fun i h1 h2 => absurd h1 (Nat.not_le.mpr h2)
    have hmono : code * 2 ^ (16 - quickBits) ≤ (code + 1) * 2 ^ (16 - quickBits) :=
      Nat.mul_le_mul_right _ (Nat.le_succ code)
    rw [runningLength, ih]
    generalize hlen : searchLength decodeLen (code * 2 ^ (16 - quickBits)) maxCodeBits 1 = curLen
    have hbelow : ∀ i, 1 ≤ i → i < 1 + (curLen - 1) →
        decodeLen i ≤ (code + 1) * 2 ^ (16 - quickBits) := fun i h1 h2 =>
      (searchLength_below h1 (show i < _ by rw [hlen]; omega)).trans hmono
    rw [searchLength_skip (by omega) hbelow]
    congr 1 <;> omega

end HuffmanDecoder

/-- The code word of a symbol as the encoder puts it out. -/
def builtWord (lens : List Nat) (s : Nat) : List Bool :=
  BitString.ofNat (lens.getD s 0) ((buildCodes lens).getD s 0)

theorem builtWord_eq {lens : List Nat} {s : Nat} (hs : s < lens.length)
    (hused : lens.getD s 0 ≠ 0) : builtWord lens s = codeword lens s := by
  rw [builtWord, buildCodes_getD hs hused, codeword]

theorem buildLengths_getD {freq : List Nat} {m : Nat} (hm : 1 ≤ m) (hsize : freq.length ≤ 2 ^ m)
    {s : Nat} (hs : s < freq.length) :
    (freq.getD s 0 ≠ 0 → 1 ≤ (buildLengths freq m).getD s 0 ∧
      (buildLengths freq m).getD s 0 ≤ m) ∧
    (freq.getD s 0 = 0 → (buildLengths freq m).getD s 0 = 0) := by
  obtain ⟨writes, hwrites, heq⟩ := buildLengths_lengthsFor hm hsize
  have hget : (buildLengths freq m).getD s 0
      = writeAll (fun _ => 0) writes s := by
    rw [heq, getD_eq_getElem _ _ (by simpa using hs), getElem_map, getElem_range]
  rw [hget]
  constructor
  · intro hfreq
    exact (hwrites.written s).1 ⟨hs, hfreq⟩
  · intro hfreq
    exact (hwrites.written s).2 fun h => h.2 hfreq

/-- **Construction and decoding agree.**  For every frequency vector of an alphabet that
the decoder can hold, exactly the used symbols get a code length, between 1 and 15, with a
Kraft sum of at most one; the decoder accepts the lengths; and whatever follows the code
word of a used symbol, the decoder returns the symbol and consumes the code word, from the
quick table when it has at most ten bits and by the search over the longer lengths
otherwise. -/
theorem buildLengths_decode (freq : List Nat) (hsize : freq.length ≤ maxSymbols) :
    (buildLengths freq 15).length = freq.length ∧
    (∀ s < freq.length,
      (freq.getD s 0 ≠ 0 → 1 ≤ (buildLengths freq 15).getD s 0 ∧
        (buildLengths freq 15).getD s 0 ≤ 15) ∧
      (freq.getD s 0 = 0 → (buildLengths freq 15).getD s 0 = 0)) ∧
    kraft 15 (buildLengths freq 15) ≤ 2 ^ 15 ∧
    ∃ decoder, build (buildLengths freq 15) = some decoder ∧
      ∀ s < freq.length, freq.getD s 0 ≠ 0 → ∀ (rest : List Bool) (consumed : Nat)
        (truncated : Bool),
        let lens := buildLengths freq 15
        let reader : BitReader := ⟨builtWord lens s ++ rest, consumed, truncated⟩
        decoder.decode reader = (s, ⟨rest, consumed + lens.getD s 0, truncated⟩) ∧
        decoder.quickTable (reader.peekBits quickBits)
          = if lens.getD s 0 ≤ quickBits then (lens.getD s 0, s) else (0, 0) := by
  have hfit : freq.length ≤ 2 ^ 15 := by
    unfold maxSymbols at hsize
    omega
  have hgood := buildLengths_good (show 1 ≤ 15 by decide) hfit
  obtain ⟨writes, hwrites, heq⟩ := buildLengths_lengthsFor (show 1 ≤ 15 by decide) hfit
  refine ⟨hgood.count, fun s hs => buildLengths_getD (by decide) hfit hs, ?_, ?_⟩
  · rw [heq]
    exact hwrites.kraft_le
  · obtain ⟨decoder, hbuild⟩ := build_isSome
      ⟨by rw [hgood.count]; exact hsize, hgood.bits, hgood.fits⟩
    refine ⟨decoder, hbuild, fun s hs hfreq rest consumed truncated => ?_⟩
    have hlt : s < (buildLengths freq 15).length := by
      rw [hgood.count]
      exact hs
    have hused := hgood.used s hfreq
    simp only [builtWord_eq hlt hused]
    exact ⟨decode_codeword hbuild hlt hused rest consumed truncated,
      quickTable_codeword hbuild hlt hused rfl⟩

/-- Three symbols of which one is unused. -/
theorem buildLengths_decode_three :
    (buildLengths [5, 0, 1] 15).length = [5, 0, 1].length ∧
      kraft 15 (buildLengths [5, 0, 1] 15) ≤ 2 ^ 15 :=
  ⟨(buildLengths_decode [5, 0, 1] (by decide)).1, (buildLengths_decode [5, 0, 1] (by decide)).2.2.1⟩

end OpenRar.Compress
