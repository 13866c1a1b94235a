import OpenRar.Compress.InflateInput
import OpenRar.Foundation.Deflate

/-!
# Code tables of the DEFLATE decoder

Embedding of `HuffmanTable` and `read_dynamic_tables` of `compress/inflate.cpp`.  A table
holds the canonical first codes and symbol indices of every length, and a root table for
the next nine bits of the stream.

Two results stand here.  A table built from code lengths resolves the code word of every
used symbol, through the root table or past it.  And a dynamic header is accepted only with
the literal/length codes of the format; for the distance codes the check falls short of its
own comment, which asks for a single code of length one and tests that one code has length
one.
-/

namespace OpenRar.Compress

open CanonicalCode List Option

/-- `InflateError`, without `Ok`. -/
inductive InflateError where
  | truncatedInput
  | badBlockType
  | badStoredLen
  | badCodeLengths
  | badHuffmanCode
  | oversubscribedCode
  | badLiteralCode
  | distanceTooFar
  | outputCapExceeded
  | sinkFailed
  deriving DecidableEq, Repr

/-- `Inflate::HuffmanTable`.  A root entry is a length, zero for the slow path, and a
symbol. -/
structure InflateTable where
  counts : Nat → Nat
  symbols : Nat → Nat
  firstCode : Nat → Nat
  firstIndex : Nat → Nat
  complete : Bool
  root : Nat → Nat × Nat

namespace InflateTable

def rootBits : Nat := 9
def maxBits : Nat := 15
def maxSymbols : Nat := 288

/-- `reverse_bits` -/
def reverseBits (value : Nat) : Nat → Nat
  | 0 => 0
  | nbits + 1 => 2 * reverseBits value nbits + (value.testBit nbits).toNat

/-- `first_code` -/
def firstCodes (counts : Nat → Nat) : Nat → Nat
  | 0 => 0
  | len + 1 => if len = 0 then 0 else (firstCodes counts len + counts len) * 2

/-- The root table: a code of at most nine bits takes every index that ends in its reversed
bits. -/
def fillRoot (root : Nat → Nat × Nat) (sym : Nat) : List (Nat × Nat) → Nat → Nat × Nat
  | [] => root
  | (len, code) :: rest =>
    if len = 0 ∨ len > rootBits then fillRoot root (sym + 1) rest
    else
      fillRoot (fun idx => if idx % 2 ^ len = reverseBits code len then (len, sym) else root idx)
        (sym + 1) rest

/-- The tables of a list of code lengths. -/
def tablesOf (lengths : List Nat) : InflateTable where
  counts := lengths.count
  symbols := fillSymbols (start lengths) (fun _ => 0) 0 lengths
  firstCode := firstCodes lengths.count
  firstIndex := start lengths
  complete := decide (kraft maxBits lengths = 2 ^ maxBits)
  root := fillRoot (fun _ => (0, 0)) 0 (lengths.zip (assign (firstCodes lengths.count) lengths))

@[simp]
theorem tablesOf_counts (lengths : List Nat) (l : Nat) :
    (tablesOf lengths).counts l = lengths.count l := rfl

@[simp]
theorem tablesOf_complete (lengths : List Nat) :
    (tablesOf lengths).complete = decide (kraft 15 lengths = 2 ^ 15) := rfl

/-- `build` -/
def build (lengths : List Nat) (allowIncomplete : Bool) : Option InflateTable :=
  if lengths.length > maxSymbols then none
  else if ¬ ∀ l ∈ lengths, l ≤ maxBits then none
  else if kraft maxBits lengths > 2 ^ maxBits then none
  else if kraft maxBits lengths ≠ 2 ^ maxBits ∧ ¬ allowIncomplete then none
  else some (tablesOf lengths)

/-- The loop of `decode_canonical`, before the length `len` is tried. -/
def canonicalLoop (t : InflateTable) (peek : Nat) : Nat → Nat → Nat → Nat × Nat
  | 0, _, _ => (0, 0)
  | steps + 1, len, code =>
    let code := 2 * code + (peek.testBit (len - 1)).toNat
    if code ≥ t.firstCode len ∧ code - t.firstCode len < t.counts len then
      (len, t.symbols (t.firstIndex len + (code - t.firstCode len)))
    else canonicalLoop t peek steps (len + 1) code

/-- `decode_canonical` -/
def decodeCanonical (t : InflateTable) (peek15 : Nat) : Nat × Nat :=
  canonicalLoop t peek15 maxBits 1 0

/-- The lookup at the start of `next_symbol` and of the code-length loop. -/
def resolve (t : InflateTable) (r : InflateInput) : (Nat × Nat) × InflateInput :=
  let p := r.peekZeroFill rootBits
  if (t.root p.1).1 = 0 then
    let q := p.2.peekZeroFill maxBits
    (t.decodeCanonical q.1, q.2)
  else (t.root p.1, p.2)

/-- `next_symbol`; `none` is the source's `false`. -/
def nextSymbol (t : InflateTable) (r : InflateInput) : Option Nat × InflateInput :=
  let p := t.resolve r
  if p.1.1 = 0 then (none, p.2)
  else if p.1.1 > p.2.realBits then (none, { p.2 with truncated := true })
  else (some p.1.2, p.2.consume p.1.1)

end InflateTable

/-! ## Dynamic headers -/

namespace InflateInput

/-- `get_bits` and the test of `truncated_` behind it. -/
def field (count : Nat) (r : InflateInput) : Except InflateError (Nat × InflateInput) :=
  let p := r.getBits count
  if p.2.truncated then .error .truncatedInput else .ok p

/-- `CODE_LENGTH_ORDER` -/
def codeLengthOrder : List Nat :=
  [16, 17, 18, 0, 8, 7, 9, 6, 10, 5, 11, 4, 12, 3, 13, 2, 14, 1, 15]

/-- The lengths of the code-length code, in the order of their transmission. -/
def readClenLengths : List Nat → List Nat → InflateInput →
    Except InflateError (List Nat × InflateInput)
  | [], lens, r => .ok (lens, r)
  | sym :: order, lens, r =>
    (r.field 3).bind fun p => readClenLengths order (lens.set sym p.1) p.2

/-- A repeat item: its count, checked against the number of lengths to come. -/
def readRepeat (base count total have_ : Nat) (r : InflateInput) :
    Except InflateError (Nat × InflateInput) :=
  (r.field count).bind fun p =>
    if have_ + (base + p.1) > total then .error .badCodeLengths else .ok (base + p.1, p.2)

/-- The code-length loop.  Every pass writes a length, so `total` passes are enough. -/
def readLengths (clen : InflateTable) (total : Nat) : Nat → Nat → List Nat → InflateInput →
    Except InflateError (List Nat × InflateInput)
  | 0, _, lens, r => .ok (lens, r)
  | fuel + 1, prev, lens, r =>
    if lens.length ≥ total then .ok (lens, r)
    else
      let p := clen.resolve r
      if p.1.1 = 0 then .error .badCodeLengths
      else if p.1.1 > p.2.realBits then .error .badCodeLengths
      else
        let r := p.2.consume p.1.1
        let sym := p.1.2
        if sym < 16 then readLengths clen total fuel sym (lens ++ [sym]) r
        else if sym = 16 then
          if lens.length = 0 then .error .badCodeLengths
          else
            (r.readRepeat 3 2 total lens.length).bind fun q =>
              readLengths clen total fuel prev (lens ++ List.replicate q.1 prev) q.2
        else if sym = 17 then
          (r.readRepeat 3 3 total lens.length).bind fun q =>
            readLengths clen total fuel 0 (lens ++ List.replicate q.1 0) q.2
        else
          (r.readRepeat 11 7 total lens.length).bind fun q =>
            readLengths clen total fuel 0 (lens ++ List.replicate q.1 0) q.2

/-- The first part of `read_dynamic_tables`: the literal/length and the distance code
lengths. -/
def readCodeLengths (r : InflateInput) :
    Except InflateError ((List Nat × List Nat) × InflateInput) :=
  (r.field 5).bind fun a => (a.2.field 5).bind fun b => (b.2.field 4).bind fun c =>
    let hlit := a.1 + 257
    let hdist := b.1 + 1
    let hclen := c.1 + 4
    if hlit > 286 ∨ hdist > 30 then .error .badCodeLengths
    else
      (readClenLengths (codeLengthOrder.take hclen) (List.replicate 19 0) c.2).bind fun p =>
        match InflateTable.build p.1 false with
        | none => .error .badCodeLengths
        | some clen =>
          (readLengths clen (hlit + hdist) (hlit + hdist) 0 [] p.2).map fun q =>
            ((q.1.take hlit, q.1.drop hlit), q.2)

/-- The second part: the tables and the checks of incomplete codes. -/
def acceptTables (litLengths distLengths : List Nat) : Option (InflateTable × InflateTable) :=
  (InflateTable.build litLengths true).bind fun lit =>
    (InflateTable.build distLengths true).bind fun dist =>
      if ¬ lit.complete ∧ (lit.counts 1 ≠ 1 ∨ litLengths.length ≤ 256 ∨
          litLengths.getD 256 0 ≠ 1 ∨ ∃ l ∈ List.range' 2 14, lit.counts l ≠ 0) then none
      else if ¬ dist.complete ∧ ¬ dist.counts 1 = 1 ∧
          ¬ ∀ l ∈ List.range' 1 15, dist.counts l = 0 then none
      else some (lit, dist)

/-- `read_dynamic_tables`; what the caller reports stands for the source's `false`. -/
def readDynamicTables (r : InflateInput) :
    Except InflateError ((InflateTable × InflateTable) × InflateInput) :=
  (readCodeLengths r).bind fun p =>
    match acceptTables p.1.1 p.1.2 with
    | none => .error .badCodeLengths
    | some tables => .ok (tables, p.2)

end InflateInput

/-! ## What is accepted -/

namespace InflateTable

theorem build_eq_some {lengths : List Nat} {allowIncomplete : Bool} {t : InflateTable}
    (h : build lengths allowIncomplete = some t) :
    t = tablesOf lengths ∧ Deflate.Usable lengths := by
  unfold build at h
  split_ifs at h with hsize hbits hkraft hcomplete
  cases h
  push Not at hkraft
  exact ⟨rfl, hbits, hkraft⟩

theorem build_usable {lengths : List Nat} (h : Deflate.Usable lengths)
    (hsize : lengths.length ≤ maxSymbols) {allowIncomplete : Bool}
    (hcomplete : allowIncomplete = false → kraft 15 lengths = 2 ^ 15) :
    build lengths allowIncomplete = some (tablesOf lengths) := by
  have hbits : ∀ l ∈ lengths, l ≤ maxBits := h.bits
  have hkraft : ¬ kraft maxBits lengths > 2 ^ maxBits := Nat.not_lt.mpr h.kraft_le
  have hallow : ¬ (kraft maxBits lengths ≠ 2 ^ maxBits ∧ ¬ allowIncomplete = true) := by
    rintro ⟨hne, hfalse⟩
    exact hne (hcomplete (by simpa using hfalse))
  rw [build, if_neg (Nat.not_lt.mpr hsize), if_neg (not_not.mpr hbits), if_neg hkraft,
    if_neg hallow]

end InflateTable

variable {lens : List Nat}

/-- Lengths of one bit at most, by their counts. -/
theorem usedLengths_eq_replicate (h : ∀ l ∈ lens, l ≤ 1) :
    Deflate.usedLengths lens = List.replicate (lens.count 1) 1 := by
  induction lens with
  | nil => rfl
  | cons l lens ih =>
    obtain ⟨hl, hlens⟩ := forall_mem_cons.mp h
    have hrest := ih hlens
    rw [Deflate.usedLengths] at hrest ⊢
    interval_cases l
    · simpa using hrest
    · simpa [replicate_succ] using hrest

/-- The lengths of a usable code that are not counted are not there. -/
theorem le_of_count_eq_zero (hbits : ∀ l ∈ lens, l ≤ 15) {from_ : Nat}
    (hcount : ∀ l, from_ ≤ l → l ≤ 15 → lens.count l = 0) {l : Nat} (hl : l ∈ lens) :
    l < from_ := by
  by_contra hge
  exact absurd (hcount l (by omega) (hbits l hl)) (count_pos_iff.mpr hl).ne'

theorem usedLengths_length_le_one (hone : lens.count 1 = 1)
    (hlen : (Deflate.usedLengths lens).length ≤ 1) : Deflate.usedLengths lens = [1] := by
  have hmem : 1 ∈ Deflate.usedLengths lens :=
    mem_filter.mpr ⟨count_pos_iff.mp (by omega), by decide⟩
  match hused : Deflate.usedLengths lens with
  | [] => simp [hused] at hmem
  | [l] =>
    rw [hused, mem_singleton] at hmem
    rw [← hmem]
  | _ :: _ :: _ => simp [hused] at hlen

namespace InflateInput

/-- What the checks of `read_dynamic_tables` come to. -/
theorem acceptTables_spec {litLengths distLengths : List Nat} {tables : InflateTable × InflateTable}
    (h : acceptTables litLengths distLengths = some tables) :
    Deflate.LitLenCode litLengths ∧ Deflate.Usable distLengths ∧
      (kraft 15 distLengths = 2 ^ 15 ∨ distLengths.count 1 = 1 ∨
        Deflate.usedLengths distLengths = []) := by
  obtain ⟨lit, hlit, h⟩ := bind_eq_some_iff.mp h
  obtain ⟨dist, hdist, h⟩ := bind_eq_some_iff.mp h
  obtain ⟨rfl, hlitUsable⟩ := InflateTable.build_eq_some hlit
  obtain ⟨rfl, hdistUsable⟩ := InflateTable.build_eq_some hdist
  split_ifs at h with hlitCheck hdistCheck
  simp only [InflateTable.tablesOf_complete, InflateTable.tablesOf_counts, decide_eq_true_eq]
    at hlitCheck hdistCheck
  refine ⟨?_, hdistUsable, ?_⟩
  · by_cases hcomplete : kraft 15 litLengths = 2 ^ 15
    · exact Or.inl ⟨hlitUsable.bits, hcomplete⟩
    · push Not at hlitCheck
      obtain ⟨hone, -, hend, hlong⟩ := hlitCheck hcomplete
      have hshort : ∀ l ∈ litLengths, l ≤ 1 := fun l hl =>
        Nat.le_of_lt_succ (le_of_count_eq_zero hlitUsable.bits
          (fun k hk hk' => hlong k (by simp; omega)) hl)
      rw [Deflate.LitLenCode, usedLengths_eq_replicate hshort, hone]
      exact Or.inr ⟨rfl, hend⟩
  · by_cases hcomplete : kraft 15 distLengths = 2 ^ 15
    · exact Or.inl hcomplete
    · push Not at hdistCheck
      by_cases hone : distLengths.count 1 = 1
      · exact Or.inr (Or.inl hone)
      · have hnone := hdistCheck hcomplete hone
        refine Or.inr (Or.inr (filter_eq_nil_iff.mpr fun l hl => ?_))
        have := @le_of_count_eq_zero distLengths hdistUsable.bits 1
          (fun k hk hk' => hnone k (by simp; omega)) _ hl
        simp
        omega

/-- **What a dynamic header is accepted with.**  The literal/length code is complete, or the
end of block alone with one bit.  The distance code is one of the format exactly if it is
complete or has at most one code: a single code of one bit is not told from one code of one
bit among longer ones. -/
theorem readDynamicTables_codes {r r' : InflateInput} {tables : InflateTable × InflateTable}
    (h : r.readDynamicTables = .ok (tables, r')) :
    ∃ litLengths distLengths, r.readCodeLengths = .ok ((litLengths, distLengths), r') ∧
      Deflate.LitLenCode litLengths ∧
      (Deflate.DistCode distLengths ↔
        kraft 15 distLengths = 2 ^ 15 ∨ (Deflate.usedLengths distLengths).length ≤ 1) := by
  unfold readDynamicTables at h
  cases hlengths : r.readCodeLengths with
  | error e => simp [hlengths, Except.bind] at h
  | ok p =>
    obtain ⟨⟨litLengths, distLengths⟩, next⟩ := p
    simp only [hlengths, Except.bind] at h
    split at h
    · cases h
    · rename_i accepted haccept
      cases h
      obtain ⟨hlit, husable, hdist⟩ := acceptTables_spec haccept
      refine ⟨litLengths, distLengths, rfl, hlit, ?_, ?_⟩
      · rintro (hcomplete | hnone | hone)
        · exact Or.inl hcomplete.2
        · exact Or.inr (by rw [hnone]; decide)
        · exact Or.inr (by rw [hone]; decide)
      · rintro (hcomplete | hfew)
        · exact Or.inl ⟨husable.bits, hcomplete⟩
        · rcases hdist with hcomplete | hone | hnone
          · exact Or.inl ⟨husable.bits, hcomplete⟩
          · exact Or.inr (Or.inr (usedLengths_length_le_one hone hfew))
          · exact Or.inr (Or.inl hnone)

/-- A header with 257 literal/length codes, of which the end of block is used, and one
distance code of one bit. -/
def singleDistHeader : List UInt8 := [0, 0x38, 0x10, 0, 0, 0, 0, 0, 0xF2, 0x7F, 0x0D]

theorem readDynamicTables_codes_single :
    ∃ tables r', (start singleDistHeader).readDynamicTables = .ok (tables, r') ∧
      ∃ litLengths distLengths,
        (start singleDistHeader).readCodeLengths = .ok ((litLengths, distLengths), r') ∧
        Deflate.LitLenCode litLengths ∧
        (Deflate.DistCode distLengths ↔
          kraft 15 distLengths = 2 ^ 15 ∨ (Deflate.usedLengths distLengths).length ≤ 1) := by
  have hread : (start singleDistHeader).readDynamicTables.toOption.isSome = true := by
    decide +kernel
  cases htables : (start singleDistHeader).readDynamicTables with
  | error e =>
    rw [htables] at hread
    cases hread
  | ok p => exact ⟨p.1, p.2, rfl, readDynamicTables_codes htables⟩

/-- A header with 257 literal/length codes, of which the end of block is used, and two
distance codes of lengths one and two. -/
def incompleteDistHeader : List UInt8 := [0x20, 0x38, 0x10, 0, 0, 0, 0, 0x10, 0xE4, 0x6F, 0x5D, 3]

/-- The Kraft sum of its distance code is three quarters, and the header is accepted. -/
theorem readDynamicTables_accepts_incomplete :
    ∃ tables r' litLengths,
      (start incompleteDistHeader).readDynamicTables = .ok (tables, r') ∧
      (start incompleteDistHeader).readCodeLengths = .ok ((litLengths, [1, 2]), r') ∧
      ¬ Deflate.DistCode [1, 2] := by
  have hread : ((start incompleteDistHeader).readCodeLengths.toOption.map fun p => p.1)
      = some (List.replicate 256 0 ++ [1], [1, 2]) := by
    decide +kernel
  have haccept : (acceptTables (List.replicate 256 0 ++ [1]) [1, 2]).isSome = true := by
    decide +kernel
  obtain ⟨tables, htables⟩ := isSome_iff_exists.mp haccept
  cases hlengths : (start incompleteDistHeader).readCodeLengths with
  | error e =>
    rw [hlengths] at hread
    cases hread
  | ok p =>
    obtain ⟨lengths, r'⟩ := p
    rw [hlengths] at hread
    obtain rfl : lengths = _ := Option.some.inj hread
    refine ⟨tables, r', _, ?_, rfl, by decide⟩
    rw [readDynamicTables, hlengths]
    simp only [Except.bind, htables]

end InflateInput

/-! ## Code words are resolved -/

namespace InflateTable

theorem reverseBits_eq (value nbits : Nat) :
    reverseBits value nbits = LsbBits.toNat (BitString.ofNat nbits value) := by
  induction nbits with
  | zero => rfl
  | succ nbits ih =>
    rw [reverseBits, BitString.ofNat, LsbBits.toNat, ih]
    omega

theorem firstCodes_succ (lengths : List Nat) (len : Nat) :
    firstCodes lengths.count (len + 1) = 2 * upper lengths len := by
  induction len with
  | zero => rfl
  | succ len ih =>
    rw [firstCodes, if_neg (Nat.succ_ne_zero len), ih, upper]
    ring

/-- The codes that the loop hands out are the canonical ones. -/
theorem assign_firstCodes {lengths : List Nat} {s : Nat} (hs : s < lengths.length)
    (hused : lengths.getD s 0 ≠ 0) :
    (assign (firstCodes lengths.count) lengths).getD s 0 = codeOf lengths s := by
  obtain ⟨len, hlen⟩ := Nat.exists_eq_succ_of_ne_zero hused
  rw [assign_getD _ _ hs, hlen, firstCodes_succ, codeOf, hlen, Nat.succ_sub_one]

/-- A root index ends in the reversed bits of a short code. -/
def RootMatch (idx : Nat) (entry : Nat × Nat) : Prop :=
  entry.1 ≠ 0 ∧ entry.1 ≤ rootBits ∧ idx % 2 ^ entry.1 = reverseBits entry.2 entry.1

variable {root : Nat → Nat × Nat} {sym idx : Nat}

theorem fillRoot_of_none {entries : List (Nat × Nat)}
    (h : ∀ entry ∈ entries, ¬ RootMatch idx entry) :
    fillRoot root sym entries idx = root idx := by
  induction entries generalizing root sym with
  | nil => rfl
  | cons entry entries ih =>
    obtain ⟨hentry, hrest⟩ := forall_mem_cons.mp h
    rw [fillRoot]
    split
    · exact ih hrest
    · rename_i hshort
      push Not at hshort
      rw [ih hrest, if_neg fun hidx => hentry ⟨hshort.1, hshort.2, hidx⟩]

/-- The last entry that matches an index stays. -/
theorem fillRoot_append {before after : List (Nat × Nat)}
    {entry : Nat × Nat} (hentry : RootMatch idx entry)
    (hafter : ∀ later ∈ after, ¬ RootMatch idx later) :
    fillRoot root sym (before ++ entry :: after) idx = (entry.1, sym + before.length) := by
  induction before generalizing root sym with
  | nil =>
    obtain ⟨hused, hshort, hidx⟩ := hentry
    rw [nil_append, fillRoot, if_neg (by push Not; exact ⟨hused, hshort⟩),
      fillRoot_of_none hafter, if_pos hidx]
    rfl
  | cons first before ih =>
    rw [cons_append, fillRoot, length_cons, Nat.add_comm before.length 1,
      ← Nat.add_assoc]
    split <;> exact ih

section Resolve

variable {lengths : List Nat} {s : Nat} {bits : List Bool}

theorem peek_eq_lookahead (m : Nat) (bits : List Bool) :
    LsbBits.toNat (bits.take m) = LsbBits.toNat (lookahead m bits) := by
  rw [lookahead, take_append, take_replicate, LsbBits.toNat_append_zeros]

/-- The indices that match a symbol are those of the streams that start with its code
word. -/
theorem rootMatch_iff (hs : s < lengths.length) :
    RootMatch (LsbBits.toNat (lookahead rootBits bits))
        (lengths.getD s 0, (assign (firstCodes lengths.count) lengths).getD s 0) ↔
      lengths.getD s 0 ≠ 0 ∧ lengths.getD s 0 ≤ rootBits ∧
        lookahead (lengths.getD s 0) bits = codeword lengths s := by
  refine and_congr_right fun hused => and_congr_right fun hshort => ?_
  rw [← LsbBits.toNat_take, take_lookahead hshort, assign_firstCodes hs hused, reverseBits_eq]
  exact ⟨fun h => LsbBits.eq_of_toNat_eq (by simp) h, fun h => by rw [h, codeword]⟩

theorem usable_fits (husable : Deflate.Usable lengths) : Fits lengths 15 :=
  fits_of_kraft husable.kraft_le

theorem getD_le (husable : Deflate.Usable lengths) (s : Nat) : lengths.getD s 0 ≤ 15 := by
  rcases Nat.lt_or_ge s lengths.length with hs | hs
  · rw [getD_eq_getElem _ _ hs]
    exact husable.bits _ (getElem_mem hs)
  · rw [getD_eq_default _ _ hs]
    omega

/-- The entries of the root table, symbol by symbol. -/
theorem getElem_entries {t : Nat}
    (ht : t < (lengths.zip (assign (firstCodes lengths.count) lengths)).length) :
    (lengths.zip (assign (firstCodes lengths.count) lengths))[t]
      = (lengths.getD t 0, (assign (firstCodes lengths.count) lengths).getD t 0) := by
  have hlen : t < lengths.length := by simpa using ht
  rw [getElem_zip, getD_eq_getElem _ _ hlen,
    getD_eq_getElem _ _ (by simpa using hlen)]

/-- **The root table answers for code words of at most nine bits**, and for no others. -/
theorem root_codeword (husable : Deflate.Usable lengths) (hs : s < lengths.length)
    (hused : lengths.getD s 0 ≠ 0)
    (hstarts : lookahead (lengths.getD s 0) bits = codeword lengths s) :
    (tablesOf lengths).root (LsbBits.toNat (lookahead rootBits bits))
      = if lengths.getD s 0 ≤ rootBits then (lengths.getD s 0, s) else (0, 0) := by
  have hunique : ∀ t (ht : t < (lengths.zip (assign (firstCodes lengths.count) lengths)).length),
      RootMatch (LsbBits.toNat (lookahead rootBits bits))
        (lengths.zip (assign (firstCodes lengths.count) lengths))[t] → s = t := by
    intro t ht hmatch
    have hlen : t < lengths.length := by simpa using ht
    rw [getElem_entries ht, rootMatch_iff hlen] at hmatch
    exact codeword_unique (usable_fits husable) hs hused (getD_le husable s) hlen hmatch.1
      (getD_le husable t) hstarts hmatch.2.2
  have hslen : s < (lengths.zip (assign (firstCodes lengths.count) lengths)).length := by
    simpa using hs
  simp only [tablesOf]
  split
  · rename_i hshort
    have hmatch : RootMatch (LsbBits.toNat (lookahead rootBits bits))
        (lengths.zip (assign (firstCodes lengths.count) lengths))[s] := by
      rw [getElem_entries hslen, rootMatch_iff hs]
      exact ⟨hused, hshort, hstarts⟩
    -- the entry of the symbol, and those of the symbols behind it, which do not match
    have hsplit := take_append_drop s (lengths.zip (assign (firstCodes lengths.count) lengths))
    rw [drop_eq_getElem_cons hslen] at hsplit
    rw [← hsplit, fillRoot_append hmatch, getElem_entries hslen, length_take_of_le hslen.le,
      Nat.zero_add]
    intro later hlater hlaterMatch
    obtain ⟨t, ht, rfl⟩ := getElem_of_mem hlater
    rw [getElem_drop] at hlaterMatch
    have := hunique _ _ hlaterMatch
    omega
  · rename_i hlong
    refine fillRoot_of_none fun entry hentry hmatch => ?_
    obtain ⟨t, ht, rfl⟩ := getElem_of_mem hentry
    obtain rfl := hunique t ht hmatch
    rw [getElem_entries ht] at hmatch
    exact hlong hmatch.2.1

/-- One more bit of a code. -/
theorem toNat_take_succ {w : List Bool} {i : Nat} (hi : i < w.length) :
    2 * BitString.toNat (w.take i) + ((LsbBits.toNat w).testBit i).toNat
      = BitString.toNat (w.take (i + 1)) := by
  rw [take_succ_eq_append_getElem hi, BitString.toNat_append, LsbBits.testBit_toNat,
    getD_eq_getElem _ _ hi, length_singleton, BitString.toNat_cons]
  simp only [length_nil, BitString.toNat_nil]
  omega

/-- The search of `decode_canonical` passes the shorter lengths and stops at the code. -/
theorem canonicalLoop_codeword (husable : Deflate.Usable lengths) (hs : s < lengths.length)
    (hused : lengths.getD s 0 ≠ 0) (hstart : lookahead (lengths.getD s 0) bits = codeword lengths s)
    {i : Nat} (hi : i < lengths.getD s 0) :
    canonicalLoop (tablesOf lengths) (LsbBits.toNat (lookahead 15 bits)) (15 - i) (i + 1)
        (BitString.toNat ((lookahead 15 bits).take i))
      = (lengths.getD s 0, s) := by
  have hlen := getD_le husable s
  have hcode := codeOf_lt_two_pow (usable_fits husable) hs hused hlen
  have hwindow := lookahead_codeword hcode hlen hstart
  -- by the number of lengths up to that of the code
  induction hsteps : lengths.getD s 0 - i - 1 generalizing i with
  | zero =>
    have hlast : lengths.getD s 0 = i + 1 := by omega
    have hword : BitString.toNat ((lookahead 15 bits).take (i + 1)) = codeOf lengths s := by
      rw [take_lookahead (by omega), ← hlast, hstart, toNat_codeword hcode]
    have hrank := rank_lt hs
    have hvalue : codeOf lengths s = 2 * upper lengths i + rank lengths s := by
      rw [codeOf, hlast, Nat.add_sub_cancel]
    rw [show 15 - i = 15 - (i + 1) + 1 by omega, canonicalLoop, Nat.add_sub_cancel]
    simp only [toNat_take_succ (show i < (lookahead 15 bits).length by simp; omega), hword,
      tablesOf, firstCodes_succ, hvalue, Nat.add_sub_cancel_left]
    rw [hlast] at hrank
    rw [if_pos ⟨Nat.le_add_right _ _, hrank⟩, ← hlast,
      fillSymbols_eq (start_disjoint lengths) hs hused, Nat.zero_add]
  | succ n ih =>
    have hbelow : i + 1 < lengths.getD s 0 := by omega
    have hpast : upper lengths (i + 1) ≤ BitString.toNat ((lookahead 15 bits).take (i + 1)) := by
      rw [BitString.toNat_take, lookahead_length, Nat.le_div_iff_mul_le (Nat.two_pow_pos _)]
      exact upper_le_window hlen hwindow hbelow
    rw [upper] at hpast
    rw [show 15 - i = 15 - (i + 1) + 1 by omega, canonicalLoop, Nat.add_sub_cancel]
    simp only [toNat_take_succ (show i < (lookahead 15 bits).length by simp; omega)]
    rw [if_neg]
    · exact ih hbelow (by omega)
    · simp only [tablesOf, firstCodes_succ]
      omega

end Resolve

section

variable {lengths : List Nat} (husable : Deflate.Usable lengths) {s : Nat} (hs : s < lengths.length)
    (hused : lengths.getD s 0 ≠ 0) {r : InflateInput} (h : r.Sound) {rest : List Bool}
    (hbits : r.bits = codeword lengths s ++ rest)
include husable hs hused h hbits

/-- **A table resolves the code word of every used symbol**, and all its bits are in the
accumulator. -/
theorem resolve_codeword : ((tablesOf lengths).resolve r).1 = (lengths.getD s 0, s) ∧
      InflateInput.Refilled r ((tablesOf lengths).resolve r).2 ∧
      lengths.getD s 0 ≤ ((tablesOf lengths).resolve r).2.bitCount := by
  have hlen := getD_le husable s
  have hthere : lengths.getD s 0 ≤ r.bits.length := by
    rw [hbits, length_append, codeword_length]
    omega
  have hstarts : lookahead (lengths.getD s 0) r.bits = codeword lengths s := by
    rw [hbits, lookahead_append (codeword_length lengths s)]
  obtain ⟨hpeek, hvalue, hheld⟩ := InflateInput.peekZeroFill_spec h (show rootBits ≤ 32 by decide)
  have hroot := root_codeword husable hs hused hstarts
  rw [← peek_eq_lookahead, ← hvalue] at hroot
  by_cases hshort : lengths.getD s 0 ≤ rootBits
  · rw [if_pos hshort] at hroot
    simp only [resolve, hroot, if_neg hused]
    exact ⟨trivial, hpeek, by omega⟩
  · rw [if_neg hshort] at hroot
    obtain ⟨hpeek', hvalue', hheld'⟩ := InflateInput.peekZeroFill_spec hpeek.sound
      (show maxBits ≤ 32 by decide)
    rw [hpeek.bits, peek_eq_lookahead] at hvalue'
    rw [hpeek.bits] at hheld'
    have hloop := canonicalLoop_codeword husable hs hused hstarts (Nat.pos_of_ne_zero hused)
    simp only [maxBits] at hvalue' hheld'
    simp only [resolve, hroot, if_true, maxBits, hvalue']
    exact ⟨hloop, hpeek.trans hpeek', by omega⟩

theorem nextSymbol_codeword : ∃ r', (tablesOf lengths).nextSymbol r = (some s, r') ∧
      InflateInput.Taken r (lengths.getD s 0) r' := by
  obtain ⟨hentry, hrefill, hheld⟩ := resolve_codeword husable hs hused h hbits
  have htaken := hrefill.taken (InflateInput.consume_taken hrefill.sound hheld)
  refine ⟨_, ?_, htaken⟩
  simp only [nextSymbol, hentry, if_neg hused]
  rw [if_neg (by rw [hrefill.sound.real]; omega)]

end

end InflateTable

end OpenRar.Compress
