import OpenRar.Compress.TokenSemantics

/-!
# Tokens as bits

The bit string of a token under given code lengths, and the fields of the decoder
on such a string.  The main result follows one token: when the unread bits start
with a token that is a legal step, the decoder performs that step and stands
behind the bits.
-/

namespace OpenRar.Compress

open CanonicalCode BitString List Option HuffmanDecoder

/-- The code lengths of the four token codes. -/
structure CodeLengths where
  ld : List Nat
  dd : List Nat
  ldd : List Nat
  rd : List Nat
  deriving DecidableEq, Repr

/-- `count` bytes of a number, least significant first. -/
def byteFieldBits : Nat → Nat → List Bool
  | 0, _ => []
  | count + 1, val => ofNat 8 (val % 256) ++ byteFieldBits count (val / 256)

/-- Number of bytes of a filter field. -/
def filterByteCount (val : Nat) : Nat :=
  if val > 0xFFFFFF then 4 else if val > 0xFFFF then 3 else if val > 0xFF then 2 else 1

/-- `emit_filter_data` -/
def filterDataBits (val : Nat) : List Bool :=
  ofNat 2 (filterByteCount val - 1) ++ byteFieldBits (filterByteCount val) val

@[simp]
theorem byteFieldBits_length (count val : Nat) : (byteFieldBits count val).length = 8 * count := by
  induction count generalizing val with
  | zero => rfl
  | succ count ih =>
    rw [byteFieldBits, length_append, ih, ofNat_length]
    ring

theorem filterDataBits_length (val : Nat) :
    (filterDataBits val).length = 2 + 8 * filterByteCount val := by
  rw [filterDataBits, length_append, ofNat_length, byteFieldBits_length]

/-- Extra bits of a distance; from four bits on the low four have their own code. -/
def distExtraBits (ldd : List Nat) (slot extra : Nat) : List Bool :=
  if distBits slot ≥ 4 then
    ofNat (distBits slot - 4) (extra / 16) ++ codeword ldd (extra % 16)
  else ofNat (distBits slot) extra

/-- The bits of a token. -/
def tokenBits (lens : CodeLengths) : Token → List Bool
  | .literal b => codeword lens.ld b.toNat
  | .match_ lenSlot lenExtra distSlot distExtra =>
    codeword lens.ld (262 + lenSlot) ++ (ofNat (lenBits lenSlot) lenExtra
      ++ (codeword lens.dd distSlot ++ distExtraBits lens.ldd distSlot distExtra))
  | .rep index lenSlot lenExtra =>
    codeword lens.ld (258 + index)
      ++ (codeword lens.rd lenSlot ++ ofNat (lenBits lenSlot) lenExtra)
  | .lastLen => codeword lens.ld 257
  | .filter blockStart blockLength type channels =>
    codeword lens.ld 256 ++ (filterDataBits blockStart ++ (filterDataBits blockLength
      ++ (ofNat 3 type ++ if type = 0 then ofNat 5 (channels - 1) else [])))

/-- The main symbol of a token. -/
def Token.symbol : Token → Nat
  | .literal b => b.toNat
  | .match_ lenSlot _ _ _ => 262 + lenSlot
  | .rep index _ _ => 258 + index
  | .lastLen => 257
  | .filter _ _ _ _ => 256

/-- Every symbol of the token has a code. -/
def Codes (lens : CodeLengths) (tok : Token) : Prop :=
  lens.ld.getD tok.symbol 0 ≠ 0 ∧
    match tok with
    | .match_ _ _ distSlot distExtra =>
      lens.dd.getD distSlot 0 ≠ 0 ∧
        (4 ≤ distBits distSlot → lens.ldd.getD (distExtra % 16) 0 ≠ 0)
    | .rep _ lenSlot _ => lens.rd.getD lenSlot 0 ≠ 0
    | _ => True

/-- The decoder tables are those of the code lengths. -/
structure TablesOf (lens : CodeLengths) (tables : TokenTables) : Prop where
  ld : build lens.ld = some tables.ld
  dd : build lens.dd = some tables.dd
  ldd : build lens.ldd = some tables.ldd
  rd : build lens.rd = some tables.rd
  ld_length : lens.ld.length = 306
  dd_length : lens.dd.length = 64
  ldd_length : lens.ldd.length = 16
  rd_length : lens.rd.length = 44

/-- A token of a block.  The length of a copy is the number of bytes it covers. -/
inductive BlockToken where
  | literal (b : UInt8)
  | copy (length distance : Nat)
  | again (index length : Nat)
  | lastLength
  | filter (blockStart blockLength type channels : Nat)
  deriving DecidableEq, Repr

/-- What a token of the encoder stands for. -/
def Token.block : Token → BlockToken
  | .literal b => .literal b
  | .match_ lenSlot lenExtra distSlot distExtra =>
    let distance := slotDistance distSlot distExtra
    .copy (slotLength lenSlot lenExtra + Decompressor50.lengthBonus distance) distance
  | .rep index lenSlot lenExtra => .again index (slotLength lenSlot lenExtra)
  | .lastLen => .lastLength
  | .filter blockStart blockLength type channels =>
    .filter blockStart blockLength type (if type = 0 then channels else 1)

/-- Fields that the slots, the extra bits and the filter fields of the format can hold. -/
def Token.InRange : Token → Prop
  | .literal _ => True
  | .match_ lenSlot lenExtra distSlot distExtra =>
    lenSlot < 44 ∧ lenExtra < 2 ^ lenBits lenSlot ∧ distSlot < 64 ∧
      distExtra < 2 ^ distBits distSlot
  | .rep index lenSlot lenExtra => index < 4 ∧ lenSlot < 44 ∧ lenExtra < 2 ^ lenBits lenSlot
  | .lastLen => True
  | .filter blockStart blockLength type channels =>
    blockStart = 0 ∧ blockLength ≤ 0x400000 ∧ type < 8 ∧ 1 ≤ channels ∧ channels ≤ 32

namespace Decompressor50

/-! ## Fields -/

section Fields

variable (rest : List Bool) (consumed : Nat) (truncated : Bool)

theorem readField_ofNat {width n : Nat} (hwidth : width ≤ 32) (hn : n < 2 ^ width) :
    readField width ⟨ofNat width n ++ rest, consumed, truncated⟩
      = some (n, ⟨rest, consumed + width, truncated⟩) := by
  have henough : ¬ (BitReader.mk (ofNat width n ++ rest) consumed truncated).bitsRemaining
      < width := by
    simp [BitReader.bitsRemaining]
  rw [readField, if_neg henough, BitReader.getBits_ofNat _ _ _ hwidth hn]

variable {val slot extra : Nat}

theorem readByteField_bits {count : Nat} (hval : val < 256 ^ count) :
    readByteField count ⟨byteFieldBits count val ++ rest, consumed, truncated⟩
      = some (val, ⟨rest, consumed + 8 * count, truncated⟩) := by
  induction count generalizing val consumed with
  | zero =>
    have : val = 0 := by simpa using hval
    subst this
    rfl
  | succ count ih =>
    have hlow : val % 256 < 2 ^ 8 := Nat.mod_lt _ (by decide)
    have hhigh : val / 256 < 256 ^ count := by
      rw [Nat.div_lt_iff_lt_mul (by decide)]
      rwa [pow_succ] at hval
    rw [readByteField, byteFieldBits, append_assoc,
      readField_ofNat _ _ _ (by decide) hlow]
    simp only [bind_eq_bind, bind_some, ih _ hhigh]
    congr 3
    · omega
    · ring

theorem lt_pow_filterByteCount (hval : val < 2 ^ 32) :
    val < 256 ^ filterByteCount val ∧ 1 ≤ filterByteCount val ∧ filterByteCount val ≤ 4 := by
  unfold filterByteCount
  split_ifs <;> omega

theorem readFilterData_bits (hval : val < 2 ^ 32) :
    readFilterData ⟨filterDataBits val ++ rest, consumed, truncated⟩
      = some (val, ⟨rest, consumed + (2 + 8 * filterByteCount val), truncated⟩) := by
  obtain ⟨hlt, hmin, hmax⟩ := lt_pow_filterByteCount hval
  have hcnt : filterByteCount val - 1 < 2 ^ 2 := by omega
  rw [readFilterData, filterDataBits, append_assoc,
    readField_ofNat _ _ _ (by decide) hcnt]
  simp only [bind_eq_bind, bind_some]
  rw [Nat.sub_add_cancel hmin, readByteField_bits _ _ _ hlt, Nat.add_assoc]

theorem slotToLength_bits (hslot : slot < 44) (hextra : extra < 2 ^ lenBits slot) :
    slotToLength slot ⟨ofNat (lenBits slot) extra ++ rest, consumed, truncated⟩
      = (slotLength slot extra, ⟨rest, consumed + lenBits slot, truncated⟩) := by
  unfold slotToLength slotLength lenBits at *
  by_cases hdirect : slot < 8
  · simp [hdirect, ofNat]
  · simp only [if_neg hdirect] at hextra ⊢
    rw [BitReader.getBits_ofNat _ _ _ (by omega) hextra]

theorem decodeMatchDistance_bits {ldd : List Nat} {decoder : HuffmanDecoder}
    (hbuild : build ldd = some decoder) (hlen : ldd.length = 16) (hslot : slot < 64)
    (hextra : extra < 2 ^ distBits slot)
    (hused : 4 ≤ distBits slot → ldd.getD (extra % 16) 0 ≠ 0) :
    decodeMatchDistance decoder slot
        ⟨distExtraBits ldd slot extra ++ rest, consumed, truncated⟩
      = some (slotDistance slot extra,
          ⟨rest, consumed + (distExtraBits ldd slot extra).length, truncated⟩) := by
  unfold decodeMatchDistance
  by_cases hdirect : slot < 4
  · simp [hdirect, distExtraBits, distBits, ofNat, slotDistance]
  have hbits : distBits slot = slot / 2 - 1 := by rw [distBits, if_neg hdirect]
  simp only [← hbits]
  by_cases hlong : distBits slot ≥ 4
  · have hlow : extra % 16 < ldd.length := by rw [hlen]; exact Nat.mod_lt _ (by decide)
    have hcode := hused hlong
    have hhigh : extra / 16 < 2 ^ (distBits slot - 4) := by
      rw [Nat.div_lt_iff_lt_mul (by decide), show (16 : Nat) = 2 ^ 4 by rfl, ← pow_add,
        Nat.sub_add_cancel hlong]
      exact hextra
    have hsome : ∀ k, ¬ (BitReader.mk (codeword ldd (extra % 16) ++ rest) k truncated).bitsRemaining
        < 1 := by
      intro k
      rw [BitReader.bitsRemaining, length_append, codeword_length]
      omega
    have hsplit : extra / 16 * 2 ^ 4 + extra % 16 = extra := Nat.div_add_mod' extra 16
    simp only [distExtraBits, if_pos hlong, append_assoc, slotDistance, if_neg hdirect]
    by_cases hmore : distBits slot > 4
    · have hfield := BitReader.getBits_ofNat (codeword ldd (extra % 16) ++ rest) consumed truncated
        (show distBits slot - 4 ≤ 32 by omega) hhigh
      have henough : ¬ (BitReader.mk (ofNat (distBits slot - 4) (extra / 16)
          ++ (codeword ldd (extra % 16) ++ rest)) consumed truncated).bitsRemaining
            < distBits slot - 4 := by
        simp [BitReader.bitsRemaining]
      simp only [if_pos hmore, if_neg henough, if_neg (show ¬ distBits slot > 36 by omega), hfield,
        bind_eq_bind, bind_some, if_neg (hsome _),
        decode_codeword hbuild hlow hcode, length_append, ofNat_length,
        codeword_length, Nat.add_assoc, hsplit]
    · have hfour : distBits slot - 4 = 0 := by omega
      have hzero : extra / 16 = 0 := by
        rw [hfour] at hhigh
        simpa using hhigh
      simp only [if_neg hmore, hfour, ofNat, nil_append, bind_eq_bind, bind_some,
        if_neg (hsome _), decode_codeword hbuild hlow hcode]
      rw [← hsplit, hzero]
      simp
  · have hfield := readField_ofNat rest consumed truncated (by omega) hextra
    simp [distExtraBits, if_neg hlong, hfield, slotDistance, if_neg hdirect]

theorem readFilter_bits {blockLength type channels : Nat} (hlen : blockLength ≤ 0x400000)
    (htype : type < 8) (hchannels : 1 ≤ channels ∧ channels ≤ 32) :
    readFilter ⟨filterDataBits 0 ++ (filterDataBits blockLength ++ (ofNat 3 type
          ++ ((if type = 0 then ofNat 5 (channels - 1) else []) ++ rest))), consumed, truncated⟩
      = some ((0, blockLength, type, if type = 0 then channels else 1),
          ⟨rest, consumed + (filterDataBits 0 ++ (filterDataBits blockLength ++ (ofNat 3 type
            ++ if type = 0 then ofNat 5 (channels - 1) else []))).length, truncated⟩) := by
  have hcut : ¬ blockLength > 0x400000 := by omega
  rw [readFilter, readFilterData_bits _ _ _ (by decide)]
  simp only [bind_eq_bind, bind_some]
  rw [readFilterData_bits _ _ _ (by omega)]
  simp only [bind_some, if_neg hcut]
  rw [readField_ofNat _ _ _ (by decide) htype]
  simp only [bind_some, length_append, filterDataBits_length, ofNat_length]
  by_cases hdelta : type = 0
  · have hchan : channels - 1 < 2 ^ 5 := by omega
    simp only [if_pos hdelta]
    rw [readField_ofNat _ _ _ (by decide) hchan]
    simp [Nat.sub_add_cancel hchannels.1, Nat.add_assoc]
  · simp [if_neg hdelta, Nat.add_assoc]

end Fields

/-! ## Reading -/

/-- A symbol behind the check that a bit is there. -/
def readSymbol (decoder : HuffmanDecoder) (reader : BitReader) : Option (Nat × BitReader) :=
  if reader.bitsRemaining < 1 then none else some (decoder.decode reader)

/-- What a token asks for.  A copy carries the repeat distances and the last length
it leaves behind. -/
inductive TokenAction where
  | literal (slot : Nat)
  | filter (fStart fLen fType fCh : Nat)
  | nothing
  | copy (oldDist : List Nat) (lastLength distance length : Nat)

/-- The reads of one token. -/
def readBlockToken (tables : TokenTables) (extraDist : Bool) (reader : BitReader) :
    Option (BlockToken × BitReader) :=
  (some (tables.ld.decode reader)).bind fun (slot, reader) =>
    if reader.truncated then none
    else if slot < 256 then some (.literal (UInt8.ofNat slot), reader)
    else if slot = 256 then
      (readFilter reader).bind fun ((fStart, fLen, fType, fCh), reader) =>
        some (.filter fStart fLen fType fCh, reader)
    else if slot = 257 then some (.lastLength, reader)
    else if slot ≥ 262 then
      (some (slotToLength (slot - 262) reader)).bind fun (len, reader) =>
        (readSymbol tables.dd reader).bind fun (distSlot, reader) =>
          if distSlot ≥ distanceCodes extraDist then none
          else (decodeMatchDistance tables.ldd distSlot reader).bind fun (distance, reader) =>
            if reader.truncated then none
            else some (.copy (len + lengthBonus distance) distance, reader)
    else
      (readSymbol tables.rd reader).bind fun (lenSlot, reader) =>
        (some (slotToLength lenSlot reader)).bind fun (len, reader) =>
          if reader.truncated then none else some (.again (slot - 258) len, reader)

/-- The checks of a token against the window and the repeat distances. -/
def resolve (d : Decompressor50) : BlockToken → Option TokenAction
  | .literal b => some (.literal b.toNat)
  | .filter fStart fLen fType fCh => some (.filter fStart fLen fType fCh)
  | .lastLength =>
    if d.lastLength ≠ 0 then
      let distance := d.oldDist.getD 0 0
      if ¬ usableDistance d.engine.winSize distance then none
      else some (.copy d.oldDist d.lastLength distance d.lastLength)
    else some .nothing
  | .copy length distance =>
    if distance > d.engine.winSize then none
    else some (.copy (distance :: d.oldDist.take 3) length distance length)
  | .again index length =>
    let distance := d.oldDist.getD index 0
    if ¬ usableDistance d.engine.winSize distance then none
    else some (.copy (distance :: d.oldDist.eraseIdx index) length distance length)

/-- What the decoder does with a token. -/
def perform (frame : CallFrame) (s : Session) : TokenAction → Option Session
  | .literal slot => emitLiteral frame s slot
  | .filter fStart fLen fType fCh => pushFilter frame s fStart fLen fType fCh
  | .nothing => some s
  | .copy oldDist lastLength distance length =>
    emitMatch frame
      { s with decoder := { s.decoder with oldDist := oldDist, lastLength := lastLength } }
      distance length

/-- **A step of the decoder reads a token, checks it and performs it.** -/
theorem tokenStep_eq (frame : CallFrame) (s : Session) :
    tokenStep frame s
      = (readBlockToken s.decoder.tables s.decoder.useExtraDist s.reader).bind fun p =>
          (resolve s.decoder p.1).bind (perform frame { s with reader := p.2 }) := by
  unfold tokenStep readBlockToken readSymbol
  simp only [bind_some]
  rcases s.decoder.tables.ld.decode s.reader with ⟨slot, next⟩
  by_cases htruncated : next.truncated = true
  · simp [htruncated]
  simp only [if_neg htruncated]
  by_cases hliteral : slot < 256
  · simp only [if_pos hliteral, bind_some, resolve, UInt8.toNat_ofNat_of_lt' hliteral]
    rfl
  simp only [if_neg hliteral]
  by_cases hfilter : slot = 256
  · simp only [if_pos hfilter, bind_assoc]
    rfl
  simp only [if_neg hfilter]
  by_cases hlast : slot = 257
  · simp only [resolve]
    split_ifs <;> rfl
  simp only [if_neg hlast]
  by_cases hmatch : slot ≥ 262
  · simp only [if_pos hmatch]
    by_cases hbits : (slotToLength (slot - 262) next).2.bitsRemaining < 1
    · simp only [if_pos hbits, bind_none]
    simp only [if_neg hbits, bind_some]
    split_ifs
    · rfl
    · simp only [bind_assoc]
      refine bind_congr fun q _ => ?_
      by_cases hshort : q.2.truncated = true <;> by_cases hfar : q.1 > s.decoder.engine.winSize <;>
        simp [hshort, hfar, resolve, perform]
  · simp only [if_neg hmatch]
    -- the decoder looks at the distance first, but either failure is one
    by_cases husable : usableDistance s.decoder.engine.winSize
        (s.decoder.oldDist.getD (slot - 258) 0) = true
    · simp only [husable]
      split_ifs <;> simp_all [resolve, perform]
    · simp only [if_pos husable]
      rw [eq_comm, bind_eq_none_iff]
      rintro ⟨tok, reader⟩ hread
      have htok : ∃ len, tok = .again (slot - 258) len := by
        split_ifs at hread
        · exact nomatch hread
        · rw [bind_some] at hread
          split_ifs at hread
          exact ⟨_, (Prod.mk.inj (Option.some.inj hread)).1.symm⟩
      obtain ⟨len, rfl⟩ := htok
      simp only [resolve, if_pos husable, bind_none]

section Bits

variable {lens : CodeLengths} {tables : TokenTables} {rest : List Bool} {consumed : Nat}

theorem readSymbol_codeword {code : List Nat} {decoder : HuffmanDecoder}
    (hbuild : build code = some decoder) {sym : Nat} (hsym : sym < code.length)
    (hused : code.getD sym 0 ≠ 0) :
    readSymbol decoder ⟨codeword code sym ++ rest, consumed, false⟩
      = some (sym, ⟨rest, consumed + code.getD sym 0, false⟩) := by
  have hmore : ¬ (BitReader.mk (codeword code sym ++ rest) consumed false).bitsRemaining < 1 := by
    rw [BitReader.bitsRemaining, length_append, codeword_length]
    omega
  rw [readSymbol, if_neg hmore, decode_codeword hbuild hsym hused]

section

variable (htables : TablesOf lens tables)
include htables

theorem readBlockToken_match {lenSlot lenExtra distSlot distExtra : Nat}
    (hrange : (Token.match_ lenSlot lenExtra distSlot distExtra).InRange)
    (hcodes : Codes lens (.match_ lenSlot lenExtra distSlot distExtra)) :
    readBlockToken tables false
        ⟨codeword lens.ld (262 + lenSlot) ++ (ofNat (lenBits lenSlot) lenExtra
          ++ (codeword lens.dd distSlot ++ (distExtraBits lens.ldd distSlot distExtra ++ rest))),
          consumed, false⟩
      = some ((Token.match_ lenSlot lenExtra distSlot distExtra).block,
          ⟨rest, consumed + lens.ld.getD (262 + lenSlot) 0 + lenBits lenSlot
            + lens.dd.getD distSlot 0 + (distExtraBits lens.ldd distSlot distExtra).length,
            false⟩) := by
  obtain ⟨hlenSlot, hlenExtra, hdistSlot, hdistExtra⟩ := hrange
  obtain ⟨hused, husedDist, husedLow⟩ := hcodes
  have hread := decode_codeword htables.ld
    (show 262 + lenSlot < lens.ld.length by rw [htables.ld_length]; omega) hused
  have hslots : ¬ distSlot ≥ distanceCodes false := by simpa [distanceCodes] using hdistSlot
  unfold readBlockToken
  simp [hread, show ¬ 262 + lenSlot < 256 by omega, show ¬ 262 + lenSlot = 256 by omega,
    show ¬ 262 + lenSlot = 257 by omega, slotToLength_bits _ _ false hlenSlot hlenExtra,
    readSymbol_codeword htables.dd (by rw [htables.dd_length]; exact hdistSlot) husedDist,
    if_neg hslots,
    decodeMatchDistance_bits rest _ false htables.ldd htables.ldd_length hdistSlot hdistExtra
      husedLow, Token.block]

theorem readBlockToken_rep {index lenSlot lenExtra : Nat}
    (hrange : (Token.rep index lenSlot lenExtra).InRange)
    (hcodes : Codes lens (.rep index lenSlot lenExtra)) :
    readBlockToken tables false
        ⟨codeword lens.ld (258 + index) ++ (codeword lens.rd lenSlot
          ++ (ofNat (lenBits lenSlot) lenExtra ++ rest)), consumed, false⟩
      = some ((Token.rep index lenSlot lenExtra).block,
          ⟨rest, consumed + lens.ld.getD (258 + index) 0 + lens.rd.getD lenSlot 0
            + lenBits lenSlot, false⟩) := by
  obtain ⟨hindex, hlenSlot, hlenExtra⟩ := hrange
  obtain ⟨hused, husedLen⟩ := hcodes
  have hread := decode_codeword htables.ld
    (show 258 + index < lens.ld.length by rw [htables.ld_length]; omega) hused
  unfold readBlockToken
  simp [hread, show ¬ 258 + index < 256 by omega, show ¬ 258 + index = 256 by omega,
    show ¬ 258 + index = 257 by omega, show ¬ 258 + index ≥ 262 by omega,
    readSymbol_codeword htables.rd (by rw [htables.rd_length]; exact hlenSlot) husedLen,
    slotToLength_bits _ _ false hlenSlot hlenExtra, Token.block]

theorem readBlockToken_filter {blockLength type channels : Nat}
    (hrange : (Token.filter 0 blockLength type channels).InRange)
    (hused : lens.ld.getD 256 0 ≠ 0) :
    readBlockToken tables false
        ⟨codeword lens.ld 256 ++ (filterDataBits 0 ++ (filterDataBits blockLength
          ++ (ofNat 3 type ++ ((if type = 0 then ofNat 5 (channels - 1) else []) ++ rest)))),
          consumed, false⟩
      = some ((Token.filter 0 blockLength type channels).block,
          ⟨rest, consumed + lens.ld.getD 256 0 + (filterDataBits 0 ++ (filterDataBits blockLength
            ++ (ofNat 3 type ++ if type = 0 then ofNat 5 (channels - 1) else []))).length,
            false⟩) := by
  obtain ⟨-, hmax, htype, hlow, hhigh⟩ := hrange
  have hread := decode_codeword htables.ld
    (show 256 < lens.ld.length by rw [htables.ld_length]; omega) hused
  unfold readBlockToken
  simp [hread, readFilter_bits rest _ false hmax htype ⟨hlow, hhigh⟩, Token.block]

/-- **A token of a block is read from its bits.** -/
theorem readBlockToken_bits {tok : Token} (hrange : tok.InRange) (hcodes : Codes lens tok) :
    readBlockToken tables false ⟨tokenBits lens tok ++ rest, consumed, false⟩
      = some (tok.block, ⟨rest, consumed + (tokenBits lens tok).length, false⟩) := by
  cases tok with
  | literal b =>
    have hb : b.toNat < 256 := b.toNat_lt
    simp [readBlockToken, tokenBits, Token.block, hb, decode_codeword htables.ld
        (show b.toNat < lens.ld.length by rw [htables.ld_length]; omega) hcodes.1]
  | match_ lenSlot lenExtra distSlot distExtra =>
    simp [tokenBits, readBlockToken_match htables hrange hcodes, Nat.add_assoc]
  | rep index lenSlot lenExtra =>
    simp [tokenBits, readBlockToken_rep htables hrange hcodes, Nat.add_assoc]
  | lastLen =>
    have hused : lens.ld.getD 257 0 ≠ 0 := hcodes.1
    simp [readBlockToken, tokenBits, Token.block, decode_codeword htables.ld
        (show 257 < lens.ld.length by rw [htables.ld_length]; omega) hused]
  | filter blockStart blockLength type channels =>
    obtain rfl : blockStart = 0 := hrange.1
    simp [tokenBits, readBlockToken_filter htables hrange hcodes.1, Nat.add_assoc]

end

end Bits

/-! ## Tokens -/

/-- Distances that are set agree with the decoder's. -/
structure RepsAgree (reps oldDist : List Nat) : Prop where
  count : reps.length = 4
  count' : oldDist.length = 4
  agree : ∀ i distance : Nat, reps[i]? = some distance → distance ≠ Core.sizeMax →
    oldDist[i]? = some distance

variable {reps oldDist : List Nat}

theorem RepsAgree.push (h : RepsAgree reps oldDist) (distance : Nat) :
    RepsAgree (distance :: reps.take 3) (distance :: oldDist.take 3) := by
  have hcount := h.count
  have hcount' := h.count'
  refine ⟨by simp [hcount], by simp [hcount'], ?_⟩
  intro i d hd hset
  cases i with
  | zero => exact hd
  | succ i =>
    rw [List.getElem?_cons_succ, List.getElem?_take] at hd ⊢
    split at hd
    · rw [if_pos ‹_›]
      exact h.agree i d hd hset
    · cases hd

theorem RepsAgree.rotate (h : RepsAgree reps oldDist)
    {index : Nat} (hindex : index < 4) (distance : Nat) :
    RepsAgree (distance :: reps.eraseIdx index) (distance :: oldDist.eraseIdx index) := by
  have hcount := h.count
  have hcount' := h.count'
  refine ⟨by simp [length_eraseIdx, hcount, hindex],
    by simp [length_eraseIdx, hcount', hindex], ?_⟩
  intro i d hd hset
  cases i with
  | zero => exact hd
  | succ i =>
    rw [List.getElem?_cons_succ, List.getElem?_eraseIdx] at hd ⊢
    by_cases hi : i < index
    · rw [if_pos hi] at hd ⊢
      exact h.agree i d hd hset
    · rw [if_neg hi] at hd ⊢
      exact h.agree (i + 1) d hd hset

/-- The decoder stands at a position of the member. -/
structure Located (frame : CallFrame) (m : Member) (win : Reach) (s : Session) (pos : Nat)
    (mode : Mode) : Prop where
  dest : frame.destSize = m.enc.length
  base : frame.baseAtEntry = m.prior.length
  total : s.totalWritten = pos
  window : win.Within s.decoder.engine.winSize
  inMode : s.decoder.engine.InMode m pos mode

/-- Bytes that the current region still lacks. -/
def Mode.missing : Mode → Nat
  | .plain => 0
  | .region rem => rem

/-- The decoder is in an abstract state. -/
structure Tracks (frame : CallFrame) (m : Member) (win : Reach) (s : Session) (st : LzState) : Prop
    extends Located frame m win s st.pos st.mode where
  start : s.decoder.memberStart = m.prior.length
  flavour : s.decoder.useExtraDist = false
  reps : RepsAgree st.reps s.decoder.oldDist
  last : st.lastLen ≠ 0 → s.decoder.lastLength = st.lastLen
  budget : s.filtersTotalLen ≤ st.pos + Mode.missing st.mode
  size : m.prior.length + m.enc.length ≤ Core.sizeMax
  allowed : s.decoder.dictionaryTooLarge = false

theorem usableDistance_of_copies {m : Member} {win : Reach} {winSize pos distance len : Nat}
    (hcopy : Copies m win pos distance len) (hset : distance ≠ Core.sizeMax)
    (hwin : win.dist ≤ winSize) : usableDistance winSize distance = true := by
  have hpos := hcopy.dist_pos
  have hdist := hcopy.dist_win
  simp only [usableDistance, Bool.and_eq_true, decide_eq_true_eq]
  exact ⟨⟨hset, by omega⟩, by omega⟩

section Emit

variable {frame : CallFrame} {m : Member} {win : Reach} {s : Session} {pos : Nat}
  {mode mode' : Mode}

theorem emitMatch_located (h : Located frame m win s pos mode) {distance len : Nat}
    (hcopy : Copies m win pos distance len) (hmode : mode.advance len = some mode') :
    ∃ engine, emitMatch frame s distance len
        = some { s with
            decoder := { s.decoder with engine := engine }, totalWritten := pos + len } ∧
      engine.InMode m (pos + len) mode' ∧ engine.winSize = s.decoder.engine.winSize := by
  have hfit := hcopy.fit
  obtain ⟨engine, hrun, hin, hwin⟩ := h.inMode.copy hmode hcopy h.window.dist
  refine ⟨engine, ?_, hin, hwin⟩
  unfold emitMatch
  simp [h.total, h.dest, h.base, Nat.min_eq_left (show len ≤ m.enc.length - pos by omega), hrun]

theorem emitLiteral_located (h : Located frame m win s pos mode) {b : UInt8}
    (hbyte : m.enc[pos]? = some b) (hmode : mode.advance 1 = some mode') :
    ∃ engine, emitLiteral frame s b.toNat
        = some { s with
            decoder := { s.decoder with engine := engine }, totalWritten := pos + 1 } ∧
      engine.InMode m (pos + 1) mode' ∧ engine.winSize = s.decoder.engine.winSize := by
  obtain ⟨engine, hrun, hin, hwin⟩ := h.inMode.literal hmode hbyte
  refine ⟨engine, ?_, hin, hwin⟩
  unfold emitLiteral
  simp [h.total, h.dest, h.base, hrun]

theorem missing_advance (pos : Nat) {len : Nat} (hmode : mode.advance len = some mode') :
    pos + Mode.missing mode ≤ pos + len + Mode.missing mode' := by
  match mode with
  | .plain => cases hmode; simp
  | .region rem =>
    rw [Mode.advance] at hmode
    split at hmode
    · cases hmode
      simp only [Mode.missing]
      omega
    · cases hmode

end Emit

/-- What a token step keeps: the block it is in and the code tables. -/
structure SameBlock (s s' : Session) : Prop where
  header : s'.header = s.header
  endBit : s'.endBit = s.endBit
  tables : s'.decoder.tables = s.decoder.tables
  ready : s'.decoder.tablesReady = s.decoder.tablesReady

section Follow

variable {frame : CallFrame} {m : Member} {win : Reach} {s : Session} {st st' : LzState}
  {lens : CodeLengths} {tok : Token} {rest : List Bool} {consumed : Nat}

variable {len distance : Nat} {mode : Mode}

section

variable (h : Tracks frame m win s st)
include h

variable {reps oldDist : List Nat}

/-- The state behind a token that covers `len` bytes. -/
theorem Tracks.advance (hmode : st.mode.advance len = some mode) {engine : ApplyEngine}
    (hin : engine.InMode m (st.pos + len) mode)
    (hwin : engine.winSize = s.decoder.engine.winSize)
    (hreps : RepsAgree reps oldDist) {last lastLength : Nat}
    (hlast : last ≠ 0 → lastLength = last) (reader : BitReader) :
    Tracks frame m win
      { s with
        decoder := { s.decoder with
          engine := engine, oldDist := oldDist, lastLength := lastLength }
        reader := reader
        totalWritten := st.pos + len }
      { pos := st.pos + len, reps := reps, lastLen := last, mode := mode } := by
  have hmissing := missing_advance st.pos hmode
  have hbudget := h.budget
  refine ⟨⟨h.dest, h.base, rfl, ?_, hin⟩, h.start, h.flavour, hreps, hlast, ?_, h.size,
    h.allowed⟩
  · rw [hwin]
    exact h.window
  · simp only
    omega

/-- The decoder follows a token: it performs the step and stands behind its bits. -/
def Follows (frame : CallFrame) (m : Member) (win : Reach) (s : Session) (st' : LzState)
    (reader : BitReader) : Prop :=
  ∃ s', tokenStep frame s = some s' ∧ Tracks frame m win s' st' ∧ SameBlock s s' ∧
    s'.reader = reader

theorem tokenStep_bits (htables : TablesOf lens s.decoder.tables)
    (hrange : tok.InRange) (hcodes : Codes lens tok)
    (hreader : s.reader = ⟨tokenBits lens tok ++ rest, consumed, false⟩) :
    tokenStep frame s = (resolve s.decoder tok.block).bind (perform frame
      { s with reader := ⟨rest, consumed + (tokenBits lens tok).length, false⟩ }) := by
  rw [tokenStep_eq, h.flavour, hreader, readBlockToken_bits htables hrange hcodes, bind_some]

theorem perform_copy (hcopy : Copies m win st.pos distance len)
    (hmode : st.mode.advance len = some mode)
    (hreps : RepsAgree reps oldDist) (last : Nat) (reader : BitReader) :
    ∃ s', perform frame { s with reader := reader } (.copy oldDist last distance len) = some s' ∧
      Tracks frame m win s' { pos := st.pos + len, reps := reps, lastLen := last, mode := mode } ∧
      SameBlock s s' ∧ s'.reader = reader := by
  have hloc : Located frame m win { s with
      decoder := { s.decoder with oldDist := oldDist, lastLength := last }
      reader := reader } st.pos st.mode :=
    { h with }
  obtain ⟨engine, hrun, hin, hwin⟩ := emitMatch_located hloc hcopy hmode
  exact ⟨_, hrun, h.advance hmode hin hwin hreps (fun _ => rfl) reader, ⟨rfl, rfl, rfl, rfl⟩, rfl⟩

theorem perform_filter {blockLength type channels : Nat}
    (hmode : st.mode = .region 0) (hpos : 0 < blockLength) (hwin : blockLength < win.ring)
    (hfit : st.pos + blockLength ≤ m.enc.length)
    (happly : (filterEntryAt m st.pos blockLength type channels).apply
      ((m.enc.drop st.pos).take blockLength) = (m.orig.drop st.pos).take blockLength)
    (reader : BitReader) :
    ∃ s', perform frame { s with reader := reader }
          (.filter 0 blockLength type (if type = 0 then channels else 1)) = some s' ∧
      Tracks frame m win s' { st with mode := .region blockLength } ∧ SameBlock s s' ∧
      s'.reader = reader := by
  have hsize := h.size
  have hwindow := h.window.ring
  have hbudget := h.budget
  have hin := h.inMode
  rw [hmode] at hin hbudget
  have hempty : s.decoder.engine.filters = [] := ApplyEngine.RegionStart.filters hin
  have hopen := ApplyEngine.InMode.openRegion
    (f := filterEntryAt m st.pos blockLength type channels)
    hin hpos (show blockLength < s.decoder.engine.winSize by omega) rfl hfit happly
  simp only [Mode.missing] at hbudget
  refine ⟨{ s with
      decoder := { s.decoder with
        engine := { s.decoder.engine with
          filters := s.decoder.engine.filters
            ++ [filterEntryAt m st.pos blockLength type channels] } }
      reader := reader
      filtersTotalLen := s.filtersTotalLen + blockLength }, ?_,
    { h with inMode := hopen, budget := ?_ }, ⟨rfl, rfl, rfl, rfl⟩, rfl⟩
  · unfold perform pushFilter
    simp only [h.base, h.start, h.total, h.dest, hempty, if_false, lt_irrefl]
    rw [if_neg (by omega), if_neg (by omega), if_neg (by omega), if_neg (by omega)]
    simp only [Nat.add_sub_cancel_left]
    rfl
  · simp only [Mode.missing]
    omega

end

/-- The distance that a repeat finds. -/
theorem RepsAgree.getD {reps oldDist : List Nat} (h : RepsAgree reps oldDist) {index : Nat}
    (hdistance : reps[index]? = some distance) (hset : distance ≠ Core.sizeMax) :
    oldDist.getD index 0 = distance := by
  rw [getD_eq_getElem?_getD, h.agree index distance hdistance hset]
  rfl

theorem Tracks.inRange (h : Tracks frame m win s st) (hstep : Step m win st tok st') :
    tok.InRange := by
  cases hstep with
  | literal | lastLen => trivial
  | match_ hlenSlot hlenExtra hdistSlot hdistExtra =>
    exact ⟨hlenSlot, hlenExtra, hdistSlot, hdistExtra⟩
  | rep hindex hlenSlot hlenExtra => exact ⟨hindex, hlenSlot, hlenExtra⟩
  | filter _ _ _ hmax _ htype hchannels =>
    exact ⟨rfl, hmax, htype, hchannels.1, hchannels.2.trans h.window.channels⟩

/-- **The decoder follows every legal token whose symbols are coded.** -/
theorem follows_step (h : Tracks frame m win s st) (htables : TablesOf lens s.decoder.tables)
    (hstep : Step m win st tok st') (hcodes : Codes lens tok)
    (hreader : s.reader = ⟨tokenBits lens tok ++ rest, consumed, false⟩) :
    Follows frame m win s st' ⟨rest, consumed + (tokenBits lens tok).length, false⟩ := by
  unfold Follows
  rw [tokenStep_bits h htables (h.inRange hstep) hcodes hreader]
  generalize BitReader.mk rest (consumed + (tokenBits lens tok).length) false = reader
  cases hstep with
  | literal hbyte hmode =>
    have hloc : Located frame m win { s with reader := reader } st.pos st.mode :=
      { h with }
    obtain ⟨engine, hrun, hin, hwin⟩ := emitLiteral_located hloc hbyte hmode
    exact ⟨_, hrun, h.advance hmode hin hwin h.reps h.last reader, ⟨rfl, rfl, rfl, rfl⟩, rfl⟩
  | @lastLen distance _ hlast hdistance hset hcopy hmode =>
    have hresolve : resolve s.decoder Token.lastLen.block
        = some (.copy s.decoder.oldDist st.lastLen distance st.lastLen) := by
      simp only [resolve, Token.block, h.last hlast, if_pos hlast, h.reps.getD hdistance hset,
        usableDistance_of_copies hcopy hset h.window.dist, not_true_eq_false, if_false]
    rw [hresolve]
    exact perform_copy h hcopy hmode h.reps st.lastLen reader
  | @rep index lenSlot lenExtra distance len _ hindex _ _ hdistance hset hlen hcopy hmode =>
    have hresolve : resolve s.decoder (Token.rep index lenSlot lenExtra).block
        = some (.copy (distance :: s.decoder.oldDist.eraseIdx index) len distance len) := by
      simp only [resolve, Token.block, hlen, h.reps.getD hdistance hset,
        usableDistance_of_copies hcopy hset h.window.dist, not_true_eq_false, if_false]
    rw [hresolve]
    exact perform_copy h hcopy hmode (h.reps.rotate hindex _) _ reader
  | @match_ lenSlot lenExtra distSlot distExtra distance len _ _ _ _ _ hdistance hlen hcopy hmode =>
    have hresolve : resolve s.decoder (Token.match_ lenSlot lenExtra distSlot distExtra).block
        = some (.copy (distance :: s.decoder.oldDist.take 3) len distance len) := by
      have hreach := hcopy.dist_win.trans h.window.dist
      simp [resolve, Token.block, hdistance, hlen, if_neg (Nat.not_lt.mpr hreach)]
    rw [hresolve]
    exact perform_copy h hcopy hmode (h.reps.push _) _ reader
  | filter hmode hpos hwin hmax hfit htype hchannels happly =>
    exact perform_filter h hmode hpos hwin hfit (happly (hchannels.2.trans h.window.channels))
      reader

end Follow

end Decompressor50

end OpenRar.Compress
