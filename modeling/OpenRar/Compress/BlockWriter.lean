import OpenRar.Compress.HuffmanBuilder
import OpenRar.Compress.TokenBits

/-!
# Writing a block

Embedding of `make_tables`, `make_table_items`, `emit_table`, `emit_tokens` and
`write_block` of `compress/compressor50.cpp`.

`BitOutput` is given by the bits that were put into it.  The source collects them
in a 64-bit accumulator that it empties in words; the bytes it produces are those
of the bit string, filled up with zero bits.
-/

namespace OpenRar.Compress

open BitString List HuffmanBuilder

/-- The frequency tables of a block. -/
structure Frequencies where
  ld : List Nat
  dd : List Nat
  ldd : List Nat
  rd : List Nat
  deriving DecidableEq, Repr

/-- `put_bits` -/
def putBits (value numBits : Nat) : List Bool := ofNat numBits value

/-- `put_bits64` -/
def putBits64 (value numBits : Nat) : List Bool :=
  if numBits ≤ 32 then putBits value numBits
  else putBits (value >>> 32) (numBits - 32) ++ putBits (value % 2 ^ 32) 32

namespace BlockWriter

/-! ## Code tables -/

/-- The code lengths of `make_tables`; the distance alphabet is cut to the 64 slots
of the emitted flavour. -/
def makeTables (freq : Frequencies) : CodeLengths where
  ld := buildLengths freq.ld 15
  dd := buildLengths (freq.dd.take 64) 15
  ldd := buildLengths freq.ldd 15
  rd := buildLengths freq.rd 15

/-- The codes of `make_tables`. -/
def makeCodes (lens : CodeLengths) : CodeLengths where
  ld := buildCodes lens.ld
  dd := buildCodes lens.dd
  ldd := buildCodes lens.ldd
  rd := buildCodes lens.rd

/-- `table_bits_` -/
def tableLengths (lens : CodeLengths) : List Nat :=
  lens.ld ++ (lens.dd ++ (lens.ldd ++ lens.rd))

/-- `TableItem` -/
structure TableItem where
  sym : Nat
  extra : Nat
  bits : Nat
  deriving DecidableEq, Repr

/-- The item of a run: with seven bits from eleven on, else with three. -/
def runItem (short long chunk : Nat) : TableItem :=
  if chunk ≥ 11 then ⟨long, chunk - 11, 7⟩ else ⟨short, chunk - 3, 3⟩

/-- Length of the run that is taken in one item. -/
def runChunk (r : Nat) : Nat := if r ≥ 11 then min r 138 else r

/-- `make_table_items` on the entries from a place on, with the entry before it.
Every pass takes at least one entry. -/
def makeTableItems : Nat → Option Nat → List Nat → List TableItem
  | 0, _, _ => []
  | _ + 1, _, [] => []
  | fuel + 1, previous, v :: rest =>
    let r := 1 + (rest.takeWhile (· == v)).length
    if v = 0 then
      if r ≥ 3 then
        runItem 18 19 (runChunk r)
          :: makeTableItems fuel (some v) ((v :: rest).drop (runChunk r))
      else ⟨v, 0, 0⟩ :: makeTableItems fuel (some v) rest
    else if previous = some v ∧ r ≥ 3 then
      runItem 16 17 (runChunk r)
        :: makeTableItems fuel (some v) ((v :: rest).drop (runChunk r))
    else ⟨v, 0, 0⟩ :: makeTableItems fuel (some v) rest

/-- First stage of `emit_table`: the lengths of the length code. -/
def emitBitLengths : Nat → List Nat → List Bool
  | 0, _ => []
  | _ + 1, [] => []
  | fuel + 1, len :: rest =>
    if len = 15 then putBits 15 4 ++ (putBits 0 4 ++ emitBitLengths fuel rest)
    else if len = 0 then
      let run := min (1 + (rest.takeWhile (· == 0)).length) 17
      if run ≥ 3 then
        putBits 15 4 ++ (putBits (run - 2) 4 ++ emitBitLengths fuel ((len :: rest).drop run))
      else putBits 0 4 ++ emitBitLengths fuel rest
    else putBits len 4 ++ emitBitLengths fuel rest

/-- `freq_bd_` -/
def itemFreq (items : List TableItem) : List Nat :=
  (List.range 20).map fun sym => (items.map (·.sym)).count sym

/-- A symbol of a code. -/
def putCode (lens codes : List Nat) (sym : Nat) : List Bool :=
  putBits (codes.getD sym 0) (lens.getD sym 0)

/-- `emit_table` -/
def emitTable (table : List Nat) : List Bool :=
  let items := makeTableItems table.length none table
  let lenBd := buildLengths (itemFreq items) 15
  let codeBd := buildCodes lenBd
  emitBitLengths 20 lenBd
    ++ items.flatMap fun item => putCode lenBd codeBd item.sym ++ putBits item.extra item.bits

/-! ## Tokens -/

/-- A code followed by extra bits, packed into one field. -/
def putPacked (code codeLen extra extraLen : Nat) : List Bool :=
  putBits (code <<< extraLen ||| extra) (codeLen + extraLen)

/-- The distance of a match in `emit_tokens`. -/
def emitDistance (lens codes : CodeLengths) (distSlot distExtra : Nat) : List Bool :=
  let distCode := codes.dd.getD distSlot 0
  let distLen := lens.dd.getD distSlot 0
  let dBits := distBits distSlot
  if dBits ≥ 4 then
    let high :=
      if dBits > 4 then
        let extraHigh := distExtra >>> 4
        let extraHighLen := dBits - 4
        if distLen + extraHighLen ≤ 32 then putPacked distCode distLen extraHigh extraHighLen
        else putBits64 (distCode <<< extraHighLen ||| extraHigh) (distLen + extraHighLen)
      else putBits distCode distLen
    high ++ putCode lens.ldd codes.ldd (distExtra % 16)
  else putPacked distCode distLen distExtra dBits

/-- One token of `emit_tokens`. -/
def emitToken (lens codes : CodeLengths) : Token → List Bool
  | .literal b => putCode lens.ld codes.ld b.toNat
  | .filter blockStart blockLength type channels =>
    putCode lens.ld codes.ld 256 ++ (filterDataBits blockStart ++ (filterDataBits blockLength
      ++ (putBits type 3 ++ if type = 0 then putBits (channels - 1) 5 else [])))
  | .lastLen => putCode lens.ld codes.ld 257
  | .match_ lenSlot lenExtra distSlot distExtra =>
    let sym := 262 + lenSlot
    putPacked (codes.ld.getD sym 0) (lens.ld.getD sym 0) lenExtra (lenBits lenSlot)
      ++ emitDistance lens codes distSlot distExtra
  | .rep index lenSlot lenExtra =>
    putCode lens.ld codes.ld (258 + index)
      ++ putPacked (codes.rd.getD lenSlot 0) (lens.rd.getD lenSlot 0) lenExtra (lenBits lenSlot)

/-- `emit_tokens` -/
def emitTokens (lens codes : CodeLengths) (tokens : List Token) : List Bool :=
  tokens.flatMap (emitToken lens codes)

/-! ## The block -/

/-- The data of a block before it is filled up to whole bytes. -/
def blockBits (freq : Frequencies) (tokens : List Token) : List Bool :=
  let lens := makeTables freq
  emitTable (tableLengths lens) ++ emitTokens lens (makeCodes lens) tokens

/-- The header of a block of `dataSize` bytes whose last byte has `bitSize` bits. -/
def blockHeader (dataSize bitSize : Nat) (lastBlock : Bool) : List UInt8 :=
  let byteCount := if dataSize < 0x100 then 1 else if dataSize < 0x10000 then 2 else 3
  let flags := 0x80 ||| (if lastBlock then 0x40 else 0) ||| (byteCount - 1) <<< 3 ||| (bitSize - 1)
  let checkSum := (0x5A ^^^ flags ^^^ dataSize ^^^ dataSize >>> 8 ^^^ dataSize >>> 16) % 256
  ([flags, checkSum] ++ [dataSize, dataSize >>> 8, dataSize >>> 16].take byteCount).map UInt8.ofNat

/-- `write_block`: the bytes appended to the output, `none` where it returns
`false`. -/
def writeBlock (freq : Frequencies) (tokens : List Token) (lastBlock : Bool) :
    Option (List UInt8) :=
  let bits := blockBits freq tokens
  let data := toBytes bits
  let dataSize := data.length
  if dataSize = 0 then
    some (if lastBlock then [0x80 ||| 0x40, 0x5A ^^^ (0x80 ||| 0x40), 0x00] else [])
  else if dataSize ≥ 0x1000000 then none
  else
    let bitSize := min (max (bits.length - (dataSize - 1) * 8) 1) 8
    some (blockHeader dataSize bitSize lastBlock ++ data)

/-! ## The bits are those of the canonical codes -/

open CanonicalCode

theorem putBits64_eq {value numBits : Nat} : putBits64 value numBits = putBits value numBits := by
  unfold putBits64
  split
  · rfl
  · rw [putBits, putBits, putBits, ofNat_mod, ← ofNat_add, Nat.sub_add_cancel (by omega)]

theorem putCode_eq (lens : List Nat) (sym : Nat) :
    putCode lens (buildCodes lens) sym = codeword lens sym := by
  rw [putCode, putBits, codeword]
  by_cases hused : lens.getD sym 0 = 0
  · rw [hused]
    rfl
  · have hsym : sym < lens.length := by
      by_contra hge
      exact hused (getD_eq_default _ _ (Nat.not_lt.mp hge))
    rw [buildCodes_getD hsym hused]

theorem putPacked_eq {code codeLen extra extraLen : Nat} (h : extra < 2 ^ extraLen) :
    putPacked code codeLen extra extraLen = putBits code codeLen ++ putBits extra extraLen :=
  ofNat_pack h

theorem emitDistance_eq (lens : CodeLengths) {distSlot distExtra : Nat}
    (h : distExtra < 2 ^ distBits distSlot) :
    emitDistance lens (makeCodes lens) distSlot distExtra
      = codeword lens.dd distSlot ++ distExtraBits lens.ldd distSlot distExtra := by
  have hcode := putCode_eq lens.dd distSlot
  rw [putCode] at hcode
  simp only [emitDistance, makeCodes, distExtraBits, putBits64_eq, putCode_eq]
  by_cases hlong : distBits distSlot ≥ 4
  · rw [if_pos hlong, if_pos hlong]
    by_cases hmore : distBits distSlot > 4
    · have hhigh : distExtra >>> 4 < 2 ^ (distBits distSlot - 4) := by
        rw [Nat.shiftRight_eq_div_pow, Nat.div_lt_iff_lt_mul (by decide), ← pow_add,
          Nat.sub_add_cancel hlong]
        exact h
      have hpacked := @putPacked_eq ((buildCodes lens.dd).getD distSlot 0)
        (lens.dd.getD distSlot 0) _ _ hhigh
      rw [if_pos hmore, putPacked] at *
      rw [ite_self, hpacked, hcode, putBits, Nat.shiftRight_eq_div_pow, append_assoc]
    · rw [if_neg hmore, hcode, show distBits distSlot - 4 = 0 by omega]
      rfl
  · rw [if_neg hlong, if_neg hlong, putPacked_eq h, hcode]
    rfl

/-- Extra values stay in their fields. -/
def Token.Bounded : Token → Prop
  | .match_ lenSlot lenExtra distSlot distExtra =>
    lenExtra < 2 ^ lenBits lenSlot ∧ distExtra < 2 ^ distBits distSlot
  | .rep _ lenSlot lenExtra => lenExtra < 2 ^ lenBits lenSlot
  | _ => True

theorem emitToken_eq (lens : CodeLengths) {tok : Token} (h : Token.Bounded tok) :
    emitToken lens (makeCodes lens) tok = tokenBits lens tok := by
  cases tok with
  | literal b => exact putCode_eq lens.ld b.toNat
  | lastLen => exact putCode_eq lens.ld 257
  | filter blockStart blockLength type channels =>
    simp [emitToken, makeCodes, putCode_eq, putBits, tokenBits]
  | match_ lenSlot lenExtra distSlot distExtra =>
    have hcode := putCode_eq lens.ld (262 + lenSlot)
    rw [putCode, putBits] at hcode
    rw [emitToken, emitDistance_eq lens h.2, tokenBits]
    simp only [makeCodes, putPacked_eq h.1, hcode, putBits, append_assoc]
  | rep index lenSlot lenExtra =>
    have hcode := putCode_eq lens.rd lenSlot
    rw [putCode, putBits] at hcode
    have hbound : lenExtra < 2 ^ lenBits lenSlot := h
    simp only [emitToken, makeCodes, putCode_eq, putPacked_eq hbound, hcode, putBits, tokenBits]

theorem emitTokens_eq (lens : CodeLengths) {tokens : List Token}
    (h : ∀ tok ∈ tokens, Token.Bounded tok) :
    emitTokens lens (makeCodes lens) tokens = tokens.flatMap (tokenBits lens) := by
  induction tokens with
  | nil => rfl
  | cons tok tokens ih =>
    rw [emitTokens, flatMap_cons, emitToken_eq lens (h tok mem_cons_self),
      flatMap_cons, ← ih fun t ht => h t (mem_cons_of_mem _ ht)]
    rfl

end BlockWriter

end OpenRar.Compress
