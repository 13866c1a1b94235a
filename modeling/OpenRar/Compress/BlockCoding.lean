import OpenRar.Compress.EncoderBlocks

/-!
# Tokens of a block, written and read

The round trip of one block on its own, apart from any member it may belong to.  The
encoder collects tokens through its adders and writes the block; the decoder reads the
header, the code tables and then tokens up to the bit position of the header.

`BlockToken` is what both sides mean by a token: lengths and distances, and neither the
slots of the encoder nor the copies of the decoder.  `tokenStep_eq` says that the decoder
reads such a token first, holds it against its window and its repeat distances, and then
performs it.
-/

namespace OpenRar.Compress

open BitString BlockWriter CanonicalCode List Option Decompressor50 Compressor50

/-- The tokens that the encoder may hold: distances up to 4 GiB, lengths that a slot can
express together with the increment of the distance, and filter regions of at most 4 MiB
that start at once.  Only the delta filter has channels. -/
def BlockToken.Codable : BlockToken → Prop
  | .literal _ => True
  | .copy length distance =>
    1 ≤ distance ∧ distance ≤ 2 ^ 32 ∧ lengthIncrement distance + 2 ≤ length ∧
      length ≤ maxLzMatch + lengthIncrement distance
  | .again index length => index < 4 ∧ 2 ≤ length ∧ length ≤ maxLzMatch
  | .lastLength => True
  | .filter blockStart blockLength type channels =>
    blockStart = 0 ∧ blockLength ≤ 0x400000 ∧ type < 8 ∧ 1 ≤ channels ∧ channels ≤ 32 ∧
      (type ≠ 0 → channels = 1)

instance (tok : BlockToken) : Decidable tok.Codable := by
  cases tok <;> unfold BlockToken.Codable <;> infer_instance

/-- The adder for a token. -/
def Compressor50.addToken (c : Compressor50) : BlockToken → Compressor50
  | .literal b => c.addLiteral b
  | .copy length distance => (c.addMatch length distance).1
  | .again index length => c.addRep index length
  | .lastLength => c.addLastLen
  | .filter _ blockLength type channels => c.addFilter blockLength type channels

/-! ## Collecting -/

/-- The tokens that the adders have collected, for the tokens that were asked for. -/
structure Collected (c : Compressor50) (tokens : List BlockToken) : Prop where
  ledger : Ledger c.freq c.tokens
  range : ∀ tok ∈ c.tokens, tok.InRange
  block : c.tokens.map Token.block = tokens

theorem lengthIncrement_eq (distance : Nat) :
    lengthIncrement distance = lengthBonus distance := by
  unfold lengthIncrement lengthBonus
  split_ifs <;> omega

section Collect

variable {c : Compressor50} {tokens : List BlockToken}

theorem Collected.snoc {c' : Compressor50} (h : Collected c tokens) {tok : Token}
    (htokens : c'.tokens = c.tokens ++ [tok]) (hledger : Ledger c'.freq c'.tokens)
    (hrange : tok.InRange) : Collected c' (tokens ++ [tok.block]) where
  ledger := hledger
  range := by
    rw [htokens]
    intro t ht
    rcases mem_append.mp ht with ht | ht
    · exact h.range t ht
    · rw [mem_singleton.mp ht]
      exact hrange
  block := by rw [htokens, map_append, h.block, map_singleton]

section

variable (h : Collected c tokens)
include h

theorem Collected.addCopy {length distance : Nat}
    (hcodable : (BlockToken.copy length distance).Codable) :
    Collected (c.addMatch length distance).1 (tokens ++ [.copy length distance]) := by
  obtain ⟨hpos, hfar, hmin, hmax⟩ := hcodable
  have hbase : min (length - lengthIncrement distance) maxLzMatch
      = length - lengthIncrement distance := by omega
  obtain ⟨hlenSlot, hlenExtra, hlen⟩ :=
    @lengthToSlot_spec (length - lengthIncrement distance) (by omega) (by omega)
  obtain ⟨hdistExtra, hraw, hdist⟩ := distanceToSlot_spec hpos
  have hdistSlot := distanceToSlot_lt hfar
  have hledger := addMatch_ledger h.ledger (show _ < 44 by rw [hbase]; exact hlenSlot)
    hdistSlot hraw
  have hblock : (Token.match_ (lengthToSlot (length - lengthIncrement distance)).1
      (lengthToSlot (length - lengthIncrement distance)).2.1
      (distanceToSlot distance).1 (distanceToSlot distance).2.1).block
        = .copy length distance := by
    rw [Token.block, hdist, hlen, ← lengthIncrement_eq, Nat.sub_add_cancel (by omega)]
  rw [← hblock]
  refine h.snoc ?_ hledger ⟨hlenSlot, hlenExtra, hdistSlot, hdistExtra⟩
  unfold addMatch
  simp [if_neg (show ¬ length < lengthIncrement distance + 2 by omega), hbase]

theorem Collected.addAgain {index length : Nat}
    (hcodable : (BlockToken.again index length).Codable) :
    Collected (c.addRep index length) (tokens ++ [.again index length]) := by
  obtain ⟨hindex, hmin, hmax⟩ := hcodable
  obtain ⟨hlenSlot, hlenExtra, hlen⟩ := lengthToSlot_spec hmin hmax
  have hblock : (Token.rep index (lengthToSlot length).1 (lengthToSlot length).2.1).block
      = .again index length := by
    rw [Token.block, hlen]
  rw [← hblock]
  exact h.snoc rfl (addRep_ledger h.ledger hindex hlenSlot)
    ⟨hindex, hlenSlot, hlenExtra⟩

theorem Collected.addToken {tok : BlockToken} (hcodable : tok.Codable) :
    Collected (c.addToken tok) (tokens ++ [tok]) := by
  cases tok with
  | literal b =>
    exact @Collected.snoc c tokens _ h (.literal b) rfl (addLiteral_ledger h.ledger b)
      trivial
  | copy length distance => exact h.addCopy hcodable
  | again index length => exact h.addAgain hcodable
  | lastLength =>
    exact @Collected.snoc c tokens _ h .lastLen rfl (addLastLen_ledger h.ledger)
      trivial
  | filter blockStart blockLength type channels =>
    obtain ⟨rfl, hmax, htype, hlow, hhigh, hplain⟩ := hcodable
    have hblock : (Token.filter 0 blockLength type channels).block
        = .filter 0 blockLength type channels := by
      rw [Token.block]
      split
      · rfl
      · rw [hplain ‹_›]
    have hsnoc := @Collected.snoc c tokens (c.addFilter blockLength type channels) h
      (.filter 0 blockLength type channels) rfl
      (addFilter_ledger h.ledger blockLength type channels)
      ⟨rfl, hmax, htype, hlow, hhigh⟩
    rwa [hblock] at hsnoc

theorem Collected.foldl {more : List BlockToken} (hcodable : ∀ tok ∈ more, tok.Codable) :
    Collected (more.foldl Compressor50.addToken c) (tokens ++ more) := by
  induction more generalizing c tokens with
  | nil => rwa [append_nil]
  | cons tok more ih =>
    obtain ⟨htok, hmore⟩ := forall_mem_cons.mp hcodable
    have hnext := ih (h.addToken htok) hmore
    rwa [append_assoc] at hnext

end

/-- An encoder that has just written a block has collected nothing. -/
theorem collected_nil (htokens : c.tokens = []) (hfreq : c.freq = Compressor50.initFreq) :
    Collected c [] where
  ledger := by
    rw [htokens, hfreq]
    exact initFreq_ledger
  range := by simp [htokens]
  block := by simp [htokens]

end Collect

/-! ## Reading -/

namespace Decompressor50

/-- The token reads of one block: as long as the end bit of the header is not reached,
another token is read.  Every pass consumes input. -/
def readBlockTokens (tables : TokenTables) (extraDist : Bool) (endBit : Nat) :
    Nat → BitReader → Option (List BlockToken × BitReader)
  | 0, _ => none
  | fuel + 1, reader =>
    if reader.consumed ≥ endBit then some ([], reader)
    else if reader.bitsRemaining < 1 then some ([], reader)
    else
      (readBlockToken tables extraDist reader).bind fun (tok, reader) =>
        (readBlockTokens tables extraDist endBit fuel reader).map fun (tokens, reader) =>
          (tok :: tokens, reader)

theorem readBlockTokens_bits {lens : CodeLengths} {tables : TokenTables}
    (htables : TablesOf lens tables) {tokens : List Token} (hrange : ∀ tok ∈ tokens, tok.InRange)
    (hcodes : ∀ tok ∈ tokens, Codes lens tok) {rest : List Bool} {consumed endBit fuel : Nat}
    (hend : endBit = consumed + (tokens.flatMap (tokenBits lens)).length)
    (hfuel : tokens.length < fuel) :
    readBlockTokens tables false endBit fuel
        ⟨tokens.flatMap (tokenBits lens) ++ rest, consumed, false⟩
      = some (tokens.map Token.block, ⟨rest, endBit, false⟩) := by
  -- induction on the tokens: each takes one pass and at least one bit
  induction tokens generalizing consumed fuel with
  | nil =>
    obtain ⟨fuel, rfl⟩ : ∃ n, fuel = n + 1 := ⟨fuel - 1, by simp at hfuel; omega⟩
    subst hend
    simp [readBlockTokens]
  | cons tok tokens ih =>
    obtain ⟨fuel, rfl⟩ : ∃ n, fuel = n + 1 := ⟨fuel - 1, by simp at hfuel; omega⟩
    obtain ⟨hrangeTok, hrange⟩ := forall_mem_cons.mp hrange
    obtain ⟨hcodesTok, hcodes⟩ := forall_mem_cons.mp hcodes
    have hpos := tokenBits_length_pos hcodesTok
    simp only [flatMap_cons, length_append] at hend
    have hnext := @ih hrange hcodes (consumed + (tokenBits lens tok).length) fuel (by omega)
      (by simp at hfuel; omega)
    rw [readBlockTokens, if_neg (show ¬ consumed ≥ endBit by omega), if_neg]
    · rw [flatMap_cons, append_assoc, readBlockToken_bits htables hrangeTok hcodesTok]
      simp [hnext]
    · simp only [BitReader.bitsRemaining, flatMap_cons, length_append]
      omega

end Decompressor50

/-! ## The round trip of a block -/

theorem Compressor50.addToken_memOut (c : Compressor50) (tok : BlockToken) :
    (c.addToken tok).memOut = c.memOut := by
  cases tok with
  | copy length distance =>
    unfold Compressor50.addToken addMatch
    simp only
    split_ifs <;> rfl
  | _ => rfl

theorem Compressor50.foldl_addToken_memOut (c : Compressor50) (tokens : List BlockToken) :
    (tokens.foldl Compressor50.addToken c).memOut = c.memOut := by
  induction tokens generalizing c with
  | nil => rfl
  | cons tok tokens ih => rw [foldl_cons, ih, addToken_memOut]

/-- **A block is read as it was written.**  Whatever tables the decoder holds and wherever
the block starts, its header and its tables are accepted, the tokens behind them are those
that the encoder collected, and the last of them ends at the bit that the header declares. -/
theorem writeBlock_reads_back {c : Compressor50} (htokens : c.tokens = [])
    (hfreq : c.freq = Compressor50.initFreq) {tokens : List BlockToken}
    (hcodable : ∀ tok ∈ tokens, tok.Codable) (hcount : tokens.length ≤ 32769) (lastBlock : Bool)
    {d : Decompressor50} (hflavour : d.useExtraDist = false) (rest : List Bool) (consumed : Nat) :
    ∃ c' bytes header reader d' reader' reader'',
      (tokens.foldl Compressor50.addToken c).writeBlock lastBlock = some c' ∧
      c'.memOut = c.memOut ++ bytes ∧
      readBlockHeader ⟨List.replicate (padding consumed) false
        ++ (ofBytes bytes ++ rest), consumed, false⟩ = some (header, reader) ∧
      header.tablePresent = true ∧ header.lastBlockInFile = lastBlock ∧
      d.readTables header reader = some (d', reader') ∧
      (∀ fuel, tokens.length < fuel →
        readBlockTokens d'.tables d'.useExtraDist
          (blockEndBit header) fuel reader' = some (tokens, reader'')) ∧
      reader''.consumed = blockEndBit header := by
  have hcollected := (collected_nil htokens hfreq).foldl hcodable
  rw [nil_append] at hcollected
  have hlength := congrArg List.length hcollected.block
  rw [length_map] at hlength
  generalize hc : tokens.foldl Compressor50.addToken c = full at hcollected hlength ⊢
  have hmem : full.memOut = c.memOut := by rw [← hc, foldl_addToken_memOut]
  obtain ⟨bytes, hwrite⟩ := exists_writeBlock_slotted
    (fun tok htok => (hcollected.range tok htok).slotted) hcollected.ledger.sized
    (by omega) lastBlock
  obtain ⟨d', header, start, hnext, hread, -⟩ := nextBlock_writeBlock
    hcollected.ledger.sized (fun tok htok => (hcollected.range tok htok).slotted.bounded) hwrite
      hflavour
    rest consumed
  obtain ⟨⟨header', reader⟩, hheader, hnext⟩ := bind_eq_some_iff.mp hnext
  obtain ⟨⟨d'', reader'⟩, htables, hnext⟩ := bind_eq_some_iff.mp hnext
  cases hnext
  obtain ⟨c', hwritten, hout⟩ : ∃ c', full.writeBlock lastBlock = some c' ∧
      c'.memOut = full.memOut ++ bytes := by
    rw [Compressor50.writeBlock, hwrite]
    exact ⟨_, rfl, rfl⟩
  refine ⟨c', bytes, header, reader, d', _, ⟨List.replicate (padding (start
      + (full.tokens.flatMap (tokenBits (makeTables full.freq))).length)) false ++ rest,
        blockEndBit header, false⟩,
    hwritten, by rw [hout, hmem], hheader, hread.present, hread.last, htables,
      fun fuel hfuel => ?_, rfl⟩
  rw [hread.decoder, hflavour, ← hcollected.block]
  exact readBlockTokens_bits hread.tables hcollected.range
    (fun tok htok => (hcollected.ledger.counted tok htok).codes hcollected.ledger.sized)
    hread.endBit (by omega)

/-- A literal, a far copy, a repeat, the last length and a delta region. -/
theorem writeBlock_reads_back_five :
    ∃ c' bytes header reader d' reader' reader'',
      ([.literal 7, .copy 300 0x50000, .again 2 40, .lastLength, .filter 0 0x400000 0 32].foldl
        Compressor50.addToken (Compressor50.new false false)).writeBlock true = some c' ∧
      c'.memOut = (Compressor50.new false false).memOut ++ bytes ∧
      readBlockHeader ⟨List.replicate (padding 0) false
        ++ (ofBytes bytes ++ []), 0, false⟩ = some (header, reader) ∧
      header.tablePresent = true ∧ header.lastBlockInFile = true ∧
      (Decompressor50.new 0x10000).readTables header reader = some (d', reader') ∧
      (∀ fuel, 5 < fuel →
        readBlockTokens d'.tables d'.useExtraDist
          (blockEndBit header) fuel reader'
            = some ([.literal 7, .copy 300 0x50000, .again 2 40, .lastLength,
                .filter 0 0x400000 0 32], reader'')) ∧
      reader''.consumed = blockEndBit header :=
  writeBlock_reads_back rfl rfl (by decide) (by decide) true rfl [] 0

end OpenRar.Compress
