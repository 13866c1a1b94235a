import OpenRar.Compress.ApplyEngine
import OpenRar.Compress.HuffmanDecoder

/-!
# The sequential decoder

Embedding of `Decompressor50::decompress_internal` and what it reads: block
headers, the code-length tables, filter descriptions and the token loop.

A failed call is `none`; what it has already handed to the callback is then
dropped with the rest of the state.  The source leaves the token loop when a
further block header cannot be read; the stream is then short and not in its last
block, so the truncation check at the end of the call refuses it, and the loop
below refuses it at once.
-/

namespace OpenRar.Compress

open OpenRar.Core

/-- The four token decoders. -/
structure TokenTables where
  ld : HuffmanDecoder
  dd : HuffmanDecoder
  ldd : HuffmanDecoder
  rd : HuffmanDecoder

/-- A decoder before its first `build`: all tables are zero. -/
def HuffmanDecoder.empty : HuffmanDecoder where
  decodeLen := fun _ => 0
  decodePos := fun _ => 0
  decodeNum := fun _ => 0
  maxNum := 0
  quickTable := fun _ => (0, 0)

/-- `Decompressor50`.  `oldDist` are the four repeat distances, `sizeMax` being the
one that was never set; `dictionaryTooLarge` is the error of the constructor. -/
structure Decompressor50 where
  engine : ApplyEngine
  oldDist : List Nat
  lastLength : Nat
  tables : TokenTables
  tablesReady : Bool
  useExtraDist : Bool
  fileBase : Nat
  memberStart : Nat
  dictionaryTooLarge : Bool

/-- `BlockHeader` -/
structure BlockHeader where
  blockSize : Nat
  blockBitSize : Nat
  blockStart : Nat
  headerSize : Nat
  lastBlockInFile : Bool
  tablePresent : Bool
  deriving DecidableEq, Repr

namespace Decompressor50

/-- `ALLOC_LIMIT` of a 64-bit build. -/
def allocLimit : Nat := 64 * 1024 * 1024 * 1024

def defaultWinSize : Nat := 0x200000

/-- The repeat distances before the first match. -/
def unsetDistances : List Nat := List.replicate 4 sizeMax

/-- The constructor. -/
def new (winSize : Nat) (extraDist : Bool := false) (allocWin : Nat := 0) : Decompressor50 :=
  let declaredWin := if winSize ≠ 0 then winSize else defaultWinSize
  let allocWin := if allocWin = 0 then declaredWin else allocWin
  { engine := ApplyEngine.init allocWin
    oldDist := unsetDistances
    lastLength := 0
    tables := ⟨.empty, .empty, .empty, .empty⟩
    tablesReady := false
    useExtraDist := extraDist
    fileBase := 0
    memberStart := 0
    dictionaryTooLarge := declaredWin > allocLimit }

/-! ## Fields of the stream -/

/-- A field whose presence is checked before it is read. -/
def readField (count : Nat) (reader : BitReader) : Option (Nat × BitReader) :=
  if reader.bitsRemaining < count then none else some (reader.getBits count)

/-- `count` bytes, least significant first. -/
def readByteField : Nat → BitReader → Option (Nat × BitReader)
  | 0, reader => some (0, reader)
  | count + 1, reader => do
      let (b, reader) ← readField 8 reader
      let (rest, reader) ← readByteField count reader
      some (b + 256 * rest, reader)

/-- `read_block_header` -/
def readBlockHeader (reader : BitReader) : Option (BlockHeader × BitReader) :=
  if reader.bitsRemaining < 16 then none
  else do
    let (flags, reader) ← readField 8 reader.alignByte
    let byteCnt := flags / 8 % 4 + 1
    if byteCnt = 4 then none
    else do
      let (saved, reader) ← readField 8 reader
      let (blockSize, reader) ← readByteField byteCnt reader
      let chk := (0x5A ^^^ flags ^^^ blockSize ^^^ (blockSize / 2 ^ 8) ^^^
        (blockSize / 2 ^ 16)) % 256
      if chk ≠ saved then none
      else
        some
          ({ blockSize := blockSize
             blockBitSize := flags % 8 + 1
             blockStart := reader.bytePos
             headerSize := 2 + byteCnt
             lastBlockInFile := flags.testBit 6
             tablePresent := flags.testBit 7 }, reader)

/-- First stage of `read_tables`: the twenty lengths of the length code.  A
nibble 15 is followed by a count: zero for a length 15, else a run of zeros. -/
def readBitLengths : Nat → List Nat → BitReader → Option (List Nat × BitReader)
  | 0, lens, reader => some (lens, reader)
  | fuel + 1, lens, reader =>
    if lens.length ≥ 20 then some (lens, reader)
    else do
      let (len, reader) ← readField 4 reader
      if len = 15 then do
        let (zc, reader) ← readField 4 reader
        if zc = 0 then readBitLengths fuel (lens ++ [15]) reader
        else readBitLengths fuel ((lens ++ List.replicate (zc + 2) 0).take 20) reader
      else readBitLengths fuel (lens ++ [len]) reader

/-- The repeat count behind a run symbol: short with three bits, long with seven. -/
def readRunLength (long : Bool) (reader : BitReader) : Option (Nat × BitReader) :=
  if long then do
    let (n, reader) ← readField 7 reader
    some (n + 11, reader)
  else do
    let (n, reader) ← readField 3 reader
    some (n + 3, reader)

/-- Second stage of `read_tables`: the code lengths of the four token codes. -/
def readCodeLengths (bd : HuffmanDecoder) (tableSize : Nat) :
    Nat → List Nat → BitReader → Option (List Nat × BitReader)
  | 0, table, reader => some (table, reader)
  | fuel + 1, table, reader =>
    if table.length ≥ tableSize then some (table, reader)
    else if reader.bitsRemaining < 1 then none
    else
      let (num, reader) := bd.decode reader
      if num < 16 then readCodeLengths bd tableSize fuel (table ++ [num]) reader
      else if num < 18 then do
        let (n, reader) ← readRunLength (num ≠ 16) reader
        if table.length = 0 then none
        else
          let previous := table.getLastD 0
          readCodeLengths bd tableSize fuel
            ((table ++ List.replicate n previous).take tableSize) reader
      else do
        let (n, reader) ← readRunLength (num ≠ 18) reader
        readCodeLengths bd tableSize fuel
          ((table ++ List.replicate n 0).take tableSize) reader

def distanceCodes (extraDist : Bool) : Nat := if extraDist then 80 else 64

def tableSize (extraDist : Bool) : Nat := if extraDist then 446 else 430

/-- The four decoders of a code-length table. -/
def buildTables (extraDist : Bool) (table : List Nat) : Option TokenTables := do
  let dc := distanceCodes extraDist
  let ld ← HuffmanDecoder.build (table.take 306)
  let dd ← HuffmanDecoder.build ((table.drop 306).take dc)
  let ldd ← HuffmanDecoder.build ((table.drop (306 + dc)).take 16)
  let rd ← HuffmanDecoder.build ((table.drop (306 + dc + 16)).take 44)
  some ⟨ld, dd, ldd, rd⟩

/-- The description of the token codes. -/
def readDescription (extraDist : Bool) (reader : BitReader) :
    Option (List Nat × BitReader) := do
  let (bitlen, reader) ← readBitLengths 20 [] reader
  let bd ← HuffmanDecoder.build bitlen
  readCodeLengths bd (tableSize extraDist) (tableSize extraDist) [] reader

/-- `read_tables` -/
def readTables (d : Decompressor50) (header : BlockHeader) (reader : BitReader) :
    Option (Decompressor50 × BitReader) :=
  if ¬ header.tablePresent ∨ header.blockSize = 0 then some (d, reader)
  else do
    let (table, reader) ← readDescription d.useExtraDist reader
    let tables ← buildTables d.useExtraDist table
    some ({ d with tables := tables, tablesReady := true }, reader)

/-! ## Token fields -/

/-- `slot_to_length` -/
def slotToLength (slot : Nat) (reader : BitReader) : Nat × BitReader :=
  if slot < 8 then (2 + slot, reader)
  else
    let lBits := slot / 4 - 1
    let (extra, reader) := reader.getBits lBits
    (2 + (4 + slot % 4) * 2 ^ lBits + extra, reader)

/-- `decode_match_distance`; `none` is the source's zero. -/
def decodeMatchDistance (ldd : HuffmanDecoder) (distSlot : Nat) (reader : BitReader) :
    Option (Nat × BitReader) :=
  if distSlot < 4 then some (1 + distSlot, reader)
  else
    let dBits := distSlot / 2 - 1
    let distance := 1 + (2 + distSlot % 2) * 2 ^ dBits
    if dBits ≥ 4 then do
      let (distance, reader) ←
        if dBits > 4 then
          let n := dBits - 4
          if reader.bitsRemaining < n then none
          else
            let (extra, reader) := if dBits > 36 then reader.getBits64 n else reader.getBits n
            some (distance + extra * 2 ^ 4, reader)
        else some (distance, reader)
      if reader.bitsRemaining < 1 then none
      else
        let (low, reader) := ldd.decode reader
        some (distance + low, reader)
    else do
      let (extra, reader) ← readField dBits reader
      some (distance + extra, reader)

/-- Longer distances carry longer matches. -/
def lengthBonus (distance : Nat) : Nat :=
  (if distance > 0x100 then 1 else 0) + (if distance > 0x2000 then 1 else 0)
    + (if distance > 0x40000 then 1 else 0)

/-- `read_filter_data` -/
def readFilterData (reader : BitReader) : Option (Nat × BitReader) := do
  let (cnt, reader) ← readField 2 reader
  readByteField (cnt + 1) reader

/-- The fields behind a filter symbol: start, length, type and channel count. -/
def readFilter (reader : BitReader) : Option ((Nat × Nat × Nat × Nat) × BitReader) := do
  let (fStart, reader) ← readFilterData reader
  let (fLen, reader) ← readFilterData reader
  let fLen := if fLen > 0x400000 then 0 else fLen
  let (fType, reader) ← readField 3 reader
  if fType = 0 then do
    let (ch, reader) ← readField 5 reader
    some ((fStart, fLen, fType, ch + 1), reader)
  else some ((fStart, fLen, fType, 1), reader)

/-! ## The token loop -/

/-- The locals of `decompress_internal`. -/
structure Session where
  decoder : Decompressor50
  reader : BitReader
  header : BlockHeader
  endBit : Nat
  totalWritten : Nat
  filtersTotalLen : Nat

/-- What does not change during a call. -/
structure CallFrame where
  destSize : Nat
  singleBlock : Bool
  baseAtEntry : Nat

/-- `block_end_bit` -/
def blockEndBit (header : BlockHeader) : Nat :=
  if header.blockSize = 0 then header.blockStart * 8
  else (header.blockStart + header.blockSize - 1) * 8 + header.blockBitSize

/-- `overran_block` -/
def overranBlock (header : BlockHeader) (endBit bit : Nat) : Bool :=
  header.blockSize > 0 && bit > endBit

/-- The repeat distances that a copy may use. -/
def usableDistance (winSize distance : Nat) : Bool :=
  distance ≠ sizeMax && distance ≠ 0 && distance ≤ winSize

/-- Copy a match, cut at the requested size, and flush if due. -/
def emitMatch (frame : CallFrame) (s : Session) (distance length : Nat) : Option Session := do
  let len := min length (frame.destSize - s.totalWritten)
  let engine := s.decoder.engine.copyMatch distance len
  let totalWritten := s.totalWritten + len
  let engine ← engine.cadence frame.baseAtEntry totalWritten frame.destSize
  some { s with decoder := { s.decoder with engine := engine }, totalWritten := totalWritten }

/-- A literal. -/
def emitLiteral (frame : CallFrame) (s : Session) (slot : Nat) : Option Session := do
  let engine := s.decoder.engine.writeLiteral slot
  let totalWritten := s.totalWritten + 1
  let engine ← engine.cadence frame.baseAtEntry totalWritten frame.destSize
  some { s with decoder := { s.decoder with engine := engine }, totalWritten := totalWritten }

/-- The checks on a filter description and its place in the queue. -/
def pushFilter (frame : CallFrame) (s : Session) (fStart fLen fType fCh : Nat) :
    Option Session :=
  let blockStart := frame.baseAtEntry + (s.totalWritten + fStart)
  let entry : FilterEntry :=
    { type := fType
      channels := fCh
      blockStart := blockStart
      fileOffset := blockStart - s.decoder.memberStart
      blockLength := fLen }
  let engine := s.decoder.engine
  let filtersTotalLen := s.filtersTotalLen + fLen
  if blockStart > sizeMax then none
  else if frame.baseAtEntry < s.decoder.memberStart then none
  else if fLen > engine.winSize then none
  else if filtersTotalLen > sizeMax then none
  else if frame.destSize ≠ sizeMax ∧ frame.destSize ≤ sizeMax - engine.winSize
      ∧ filtersTotalLen > frame.destSize + engine.winSize then none
  else if ∃ prev ∈ engine.filters.getLast?,
      blockStart < prev.blockStart ∨ blockStart - prev.blockStart < prev.blockLength then none
  else if engine.filters.length ≥ 65536 then none
  else
    some
      { s with
        decoder := { s.decoder with engine := { engine with filters := engine.filters ++ [entry] } }
        filtersTotalLen := filtersTotalLen }

/-- One token of the stream. -/
def tokenStep (frame : CallFrame) (s : Session) : Option Session :=
  let d := s.decoder
  let winSize := d.engine.winSize
  let (slot, reader) := d.tables.ld.decode s.reader
  if reader.truncated then none
  else if slot < 256 then emitLiteral frame { s with reader := reader } slot
  else if slot = 256 then do
    let ((fStart, fLen, fType, fCh), reader) ← readFilter reader
    pushFilter frame { s with reader := reader } fStart fLen fType fCh
  else if slot = 257 then
    if d.lastLength ≠ 0 then
      let distance := d.oldDist.getD 0 0
      if ¬ usableDistance winSize distance then none
      else emitMatch frame { s with reader := reader } distance d.lastLength
    else some { s with reader := reader }
  else if slot ≥ 262 then do
    let (len, reader) := slotToLength (slot - 262) reader
    if reader.bitsRemaining < 1 then none
    else do
      let (distSlot, reader) := d.tables.dd.decode reader
      if distSlot ≥ distanceCodes d.useExtraDist then none
      else do
        let (distance, reader) ← decodeMatchDistance d.tables.ldd distSlot reader
        if distance > winSize ∨ reader.truncated then none
        else
          let len := len + lengthBonus distance
          let d := { d with oldDist := distance :: d.oldDist.take 3, lastLength := len }
          emitMatch frame { s with decoder := d, reader := reader } distance len
  else
    let distNum := slot - 258
    let distance := d.oldDist.getD distNum 0
    if ¬ usableDistance winSize distance then none
    else if reader.bitsRemaining < 1 then none
    else
      let (lenSlot, reader) := d.tables.rd.decode reader
      let (len, reader) := slotToLength lenSlot reader
      if reader.truncated then none
      else
        let d := { d with oldDist := distance :: d.oldDist.eraseIdx distNum, lastLength := len }
        emitMatch frame { s with decoder := d, reader := reader } distance len

/-- Read the next header and its tables. -/
def nextBlock (d : Decompressor50) (reader : BitReader) :
    Option (Decompressor50 × BlockHeader × BitReader) := do
  let (header, reader) ← readBlockHeader reader
  let (d, reader) ← readTables d header reader
  some (d, header, reader)

/-- A session that enters a block. -/
def enterBlock (s : Session) (d : Decompressor50) (header : BlockHeader) (reader : BitReader) :
    Session :=
  { s with decoder := d, header := header, reader := reader, endBit := blockEndBit header }

/-- The token loop.  Every pass consumes input, so the number of input bits bounds
the passes. -/
def tokenLoop (frame : CallFrame) : Nat → Session → Option Session
  | 0, _ => none
  | fuel + 1, s =>
    if s.totalWritten ≥ frame.destSize then some s
    else if s.reader.consumed ≥ s.endBit then
      if overranBlock s.header s.endBit s.reader.consumed then none
      else if frame.singleBlock ∨ s.header.lastBlockInFile then some s
      else do
        let (d, header, reader) ← nextBlock s.decoder s.reader
        if ¬ header.tablePresent ∧ ¬ d.tablesReady then none
        else
          tokenLoop frame fuel
            { s with
              decoder := d, header := header, reader := reader, endBit := blockEndBit header }
    else if s.reader.bitsRemaining < 1 then
      if frame.singleBlock ∨ s.header.lastBlockInFile then some s
      else do
        let (d, header, reader) ← nextBlock s.decoder s.reader
        tokenLoop frame fuel
          { s with
            decoder := d, header := header, reader := reader, endBit := blockEndBit header }
    else do
      let s ← tokenStep frame s
      tokenLoop frame fuel s

/-- The result of a successful call: the decoder, the chunks handed to the callback,
the number of bytes, and whether the stream ended in its last block. -/
structure CallResult where
  decoder : Decompressor50
  chunks : List (List UInt8)
  written : Nat
  finished : Bool

/-- The resets at the start of a call. -/
def beginCall (d : Decompressor50) (solid singleBlock : Bool) : Decompressor50 :=
  let engine := { d.engine with lastFlushed := 0, emitted := [] }
  let engine := if ¬ singleBlock ∨ ¬ solid then { engine with filters := [] } else engine
  if ¬ solid then
    { d with
      engine := engine.resetWindow
      fileBase := 0
      memberStart := 0
      oldDist := unsetDistances
      lastLength := 0
      tablesReady := false }
  else if ¬ singleBlock then { d with engine := engine, memberStart := d.fileBase }
  else { d with engine := engine }

/-- The end of a call: the last flush and the truncation check. -/
def finishCall (frame : CallFrame) (s : Session) : Option CallResult :=
  if overranBlock s.header s.endBit s.reader.consumed then none
  else do
    let flushAll := ¬ frame.singleBlock ∨ s.header.lastBlockInFile
    let engine ← s.decoder.engine.flushPending flushAll frame.baseAtEntry s.totalWritten
      frame.destSize
    if ¬ frame.singleBlock ∧ s.totalWritten < frame.destSize ∧ ¬ s.header.lastBlockInFile then none
    else
      some
        { decoder :=
            { s.decoder with
              engine := engine, fileBase := frame.baseAtEntry + s.totalWritten }
          chunks := engine.emitted
          written := s.totalWritten
          finished := s.header.lastBlockInFile }

/-- `decompress_internal` -/
def decompressInternal (d : Decompressor50) (reader : BitReader) (destSize : Nat)
    (solid singleBlock : Bool) : Option CallResult :=
  if d.dictionaryTooLarge then none
  else
    let frame : CallFrame :=
      { destSize := destSize
        singleBlock := singleBlock
        baseAtEntry := if solid then d.fileBase else 0 }
    if frame.baseAtEntry > sizeMax then none
    else do
      let d := d.beginCall solid singleBlock
      if destSize = 0 then some ⟨d, [], 0, false⟩
      else do
        let (d, header, next) ← nextBlock d reader
        if ¬ header.tablePresent ∧ ¬ d.tablesReady then none
        else if overranBlock header (blockEndBit header) next.consumed then none
        else do
          let s ← tokenLoop frame (reader.bits.length + 1)
            { decoder := d
              reader := next
              header := header
              endBit := blockEndBit header
              totalWritten := 0
              filtersTotalLen := 0 }
          finishCall frame s

/-- `decompress` on a byte buffer. -/
def decompress (d : Decompressor50) (src : List UInt8) (destSize : Nat) (solid : Bool) :
    Option CallResult :=
  if src.length = 0 ∨ destSize = 0 then some ⟨d, [], 0, false⟩
  else d.decompressInternal (BitReader.ofBytes src) destSize solid false

end Decompressor50

end OpenRar.Compress
