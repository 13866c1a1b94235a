import OpenRar.Format.BlockReader

/-!
# The recovery record of an archive

The front of `RecoveryWriter::repair`: `find_rr` locates the record in the file, a
record of several physical pieces is rewritten into one shard per logical index, and
the structural checks decide whether the geometry that it declares is used.  What the
checks establish is carried by `CheckedRecord`.

The 64-bit arithmetic of the source is `% 2 ^ 64` wherever a declared value takes part.  The
last section is the geometry that `compute_geometry` gives a new record.
-/

namespace OpenRar.Recovery

open OpenRar.Core
open OpenRar.Crypto
open OpenRar.Format

/-- The contents of a file; positions in a stream are signed 64-bit numbers. -/
structure FileContents where
  bytes : List UInt8
  size_lt : bytes.length < 2 ^ 63

/-! ## Locating the record -/

/-- `RrLocation` of a record that was found. -/
structure RrLocation where
  headerOffset : Nat
  headerSize : Nat
  dataOffset : Nat
  dataSize : Nat
  recPct : Nat
  rawData : List UInt8
deriving DecidableEq

/-- The service name `RR`. -/
def serviceRr : List UInt8 := [0x52, 0x52]

/-- `SHARD_MAGIC` -/
def shardMagic : List UInt8 := [0x7B, 0x52, 0x42, 0x7D]

/-- The percentage in the sub-data of the record, zero if there is none. -/
def decodeRecPct (subData : List UInt8) : Nat :=
  match readVint subData with
  | some (pct, _) => pct % 2 ^ 32
  | none => 0

variable (file : List UInt8)

/-- The record of a service block that lies at `headStart` and has its data at `headEnd`. -/
def rrOfBlock (headStart headEnd : Nat) (block : RawBlock) : Option RrLocation :=
  if block.type = headService then
    match HeaderReader.parseFileHeader block.body with
    | none => none
    | some fb =>
      if fb.isService ∧ fb.serviceType = serviceRr then
        some
          { headerOffset := headStart
            headerSize := headEnd - headStart
            dataOffset := headEnd
            dataSize := block.dataSize
            recPct := decodeRecPct fb.subData
            rawData := (file.drop headEnd).take block.dataSize }
      else none
  else none

/-- The lambda `try_read_rr`. -/
def tryReadRr (headStart : Nat) : Option RrLocation :=
  match HeaderReader.readBlockRaw (file.drop headStart) with
  | .error _ => none
  | .ok (block, rest) => rrOfBlock file headStart (file.length - rest.length) block

/-- The walk over the blocks; every pass moves forward, so the length of the file is
fuel enough. -/
def scanBlocks : Nat → Nat → Option RrLocation
  | 0, _ => none
  | fuel + 1, headStart =>
    if headStart ≥ file.length then none
    else
      match HeaderReader.readBlockRaw (file.drop headStart) with
      | .error _ => none
      | .ok (block, rest) =>
        let headEnd := file.length - rest.length
        match rrOfBlock file headStart headEnd block with
        | some rr => some rr
        | none =>
          if block.type = headEndArc then none
          else
            -- A sum that wraps would seek backwards and rescan for ever.
            let next := (headEnd + block.dataSize) % 2 ^ 64
            if block.dataSize > 0 ∧ (next < headEnd ∨ next > file.length) then none
            else if next ≤ headStart then none
            else scanBlocks fuel next

/-- Fallback 1: the offset in the locator of the main header. -/
def locatorRr (start : Nat) : Option RrLocation :=
  match HeaderReader.readBlockRaw (file.drop start) with
  | .error _ => none
  | .ok (block, _) =>
    if block.type = headMain then
      match HeaderReader.parseMainHeader block.body with
      | none => none
      | some mb =>
        if mb.hasLocator ∧ mb.locatorRrOffset > 0 then
          tryReadRr file ((start + mb.locatorRrOffset.toNat) % 2 ^ 64)
        else none
    else none

/-- The first record that starts at most 128 bytes before the magic at `magicPos`. -/
def rrBefore (magicPos : Nat) : Option RrLocation :=
  (List.range (min magicPos 128)).findSome? fun off => tryReadRr file (magicPos - (off + 1))

/-- The positions in a window of `len` bytes at `pos` at which the magic stands. -/
def magicPositions (pos len : Nat) : List Nat :=
  ((List.range (len + 1 - shardMagic.length)).filter fun i =>
    (file.drop (pos + i)).take shardMagic.length = shardMagic).map (pos + ·)

/-- Fallback 2: the magic is looked for backwards, in windows of 64 KiB. -/
def searchMagic (start : Nat) : Nat → Nat → Option RrLocation
  | 0, _ => none
  | fuel + 1, curPos =>
    if curPos ≤ start then none
    else
      let toRead := min 65536 (curPos - start)
      let pos := curPos - toRead
      let readBytes := min (toRead + shardMagic.length - 1) (file.length - pos)
      if readBytes < shardMagic.length then none
      else
        match (magicPositions file pos readBytes).findSome? (rrBefore file) with
        | some rr => some rr
        | none => searchMagic start fuel pos

/-- `find_rr` -/
def findRr (sfxOffset : Nat) : Option RrLocation :=
  let start := sfxOffset + 8
  if start ≥ file.length then none
  else
    scanBlocks file file.length start <|>
      locatorRr file start <|>
        if file.length > shardMagic.length then searchMagic file start file.length file.length
        else none

/-! ## The pieces of a record -/

/-- The little-endian field of `width` bytes at the offset `off`. -/
def fieldAt (width : Nat) (raw : List UInt8) (off : Nat) : Nat :=
  readLe ((raw.drop off).take width)

/-- `SHARD_CRC64_OFF` -/
def shardCrc64Off : Nat := 0x04
/-- `SHARD_TOTAL_OFF` -/
def shardTotalOff : Nat := 0x0C
/-- `SHARD_HEADER_OFF` -/
def shardHeaderOff : Nat := 0x10
/-- `SHARD_CHUNK_POS` -/
def shardChunkPos : Nat := 0x16
/-- `SHARD_CHUNK_EXT` -/
def shardChunkExt : Nat := 0x1E
/-- `SHARD_PROT_SIZE` -/
def shardProtSize : Nat := 0x22
/-- `SHARD_GROUP_CNT` -/
def shardGroupCnt : Nat := 0x2A
/-- `SHARD_SIZE_U64` -/
def shardSizeU64 : Nat := 0x32
/-- `SHARD_D_FIELD` -/
def shardDField : Nat := 0x3A
/-- `SHARD_NR_FIELD` -/
def shardNrField : Nat := 0x3C
/-- `SHARD_INDEX` -/
def shardIndex : Nat := 0x3E
/-- `SHARD_STATE_ARR` -/
def shardStateArr : Nat := 0x40

variable (raw : List UInt8)

/-- The magic stands at `off`. -/
def hasMagic (off : Nat) : Bool :=
  (raw.drop off).take shardMagic.length = shardMagic

/-- The stored checksum of the `total` bytes at `off` is the computed one. -/
def hasCrc64 (off total : Nat) : Bool :=
  fieldAt 8 raw (off + shardCrc64Off) =
    crc64Xz ((raw.drop (off + shardTotalOff)).take (total - shardTotalOff))

/-- The `count` entries behind the fixed fields of the shard at `off`. -/
def entriesAt (off count : Nat) : List Nat :=
  (List.range count).map fun i => fieldAt 8 raw (off + shardStateArr + i * 8)

/-- A physical piece: where it starts, its size and its logical index. -/
structure Piece where
  off : Nat
  total : Nat
  idx : Nat
deriving DecidableEq

/-- The walk over the physical pieces, which have to tile the record.  A piece has at
least the bytes of its header. -/
def walkPieces (maxPieces : Nat) : Nat → Nat → List Piece → Option (List Piece)
  | 0, _, _ => none
  | fuel + 1, off, pieces =>
    if off ≥ raw.length then some pieces
    else if raw.length - off < shardStateArr + 8 ∨ pieces.length > maxPieces then none
    else if ¬ hasMagic raw off then none
    else
      let total := fieldAt 4 raw (off + shardTotalOff)
      let header := fieldAt 4 raw (off + shardHeaderOff)
      let d := fieldAt 2 raw (off + shardDField)
      if total < header ∨ header < shardStateArr + (d + 1) * 8 ∨ total > raw.length - off then
        none
      else
        walkPieces maxPieces fuel (off + total)
          (pieces ++ [⟨off, total, fieldAt 2 raw (off + shardIndex)⟩])

/-- The physical pieces of the record, under the bounds on what it declares. -/
def recordPieces : Option (List Piece) :=
  let nr := fieldAt 2 raw shardNrField
  let group := fieldAt 8 raw shardGroupCnt
  if nr = 0 ∨ nr > 2000 ∨ group = 0 then none
  else walkPieces raw (nr * (group / 0x10000 + 1) + 2) (raw.length + 1) 0 []

/-- Whether the record has several pieces for a logical shard; none if its pieces have
different shapes. -/
def isMultiphysical (first : Piece) (pieces : List Piece) : Option Bool :=
  let header := fieldAt 4 raw (first.off + shardHeaderOff)
  let group := fieldAt 8 raw (first.off + shardGroupCnt)
  if pieces.any fun p =>
      fieldAt 8 raw (p.off + shardGroupCnt) ≠ group ∨
        fieldAt 4 raw (p.off + shardHeaderOff) ≠ header then none
  else if pieces.length > 2000 then none
  else
    let idxs := List.insertionSort (· ≤ ·) (pieces.map Piece.idx)
    some
      (pieces.any (fun p => p.total ≠ (header + group) % 2 ^ 64) ||
        decide (idxs ≠ List.range pieces.length))

/-! ## Reassembly -/

/-- `RrSlice`: a byte range of every chunk, with its checksum in each of them. -/
structure RrSlice where
  offset : Nat
  len : Nat
  entries : List Nat
  len_lt : len < 2 ^ 32
deriving DecidableEq

/-- A slice whose length is cast to 32 bits. -/
def RrSlice.cast (offset len : Nat) (entries : List Nat) : RrSlice where
  offset := offset
  len := len % 2 ^ 32
  entries := entries
  len_lt := Nat.mod_lt _ (by decide)

/-- What all pieces of a record with several of them have in common. -/
structure PieceGeometry where
  d : Nat
  group : Nat
  shardSize : Nat
  protSize : Nat

namespace PieceGeometry

def unscaledHeader (g : PieceGeometry) : Nat := g.d * 8 + 0x48

def scale (g : PieceGeometry) : Nat := max ((g.group + 0xFFFF) % 2 ^ 64 / 0x10000) 1

def maxPieces (g : PieceGeometry) : Nat := (g.group + 0xFFFF) % 2 ^ 64 / 0x10000 + 1

def scaledHeader (g : PieceGeometry) : Nat := g.unscaledHeader * g.scale

end PieceGeometry

/-- How far each logical shard is covered, and the payloads it has so far, as offsets and
lengths in the record. -/
structure Coverage where
  covered : List Nat
  payloads : List (List (Nat × Nat))

/-- The checks of one piece, which has to continue its logical shard without a gap. -/
def placePiece (g : PieceGeometry) (c : Coverage) (p : Piece) : Option Coverage :=
  let chunkpos := fieldAt 8 raw (p.off + shardChunkPos)
  let payload := p.total - g.unscaledHeader
  let placed := c.payloads.getD p.idx []
  if fieldAt 2 raw (p.off + shardDField) ≠ g.d ∨
      fieldAt 8 raw (p.off + shardGroupCnt) ≠ g.group ∨
      fieldAt 8 raw (p.off + shardSizeU64) ≠ g.shardSize ∨
      fieldAt 8 raw (p.off + shardProtSize) ≠ g.protSize ∨
      fieldAt 4 raw (p.off + shardHeaderOff) ≠ g.unscaledHeader then none
  else if ¬ hasCrc64 raw p.off p.total then none
  else if placed.length ≥ g.maxPieces then none
  else if chunkpos ≠ c.covered.getD p.idx 0 then none
  else if (chunkpos + payload) % 2 ^ 64 > g.group then none
  else
    some
      { covered := c.covered.set p.idx ((chunkpos + payload) % 2 ^ 64)
        payloads := c.payloads.set p.idx (placed ++ [(p.off + g.unscaledHeader, payload)]) }

/-- The rows that pieces have named so far, each with the entries of its first piece. -/
structure Rows where
  rows : List (Nat × List UInt8)
  slices : List RrSlice

/-- A piece either opens a row or has to agree with the entries of the row it is in. -/
def placeRow (g : PieceGeometry) (r : Rows) (p : Piece) : Option Rows :=
  let chunkpos := fieldAt 8 raw (p.off + shardChunkPos)
  let entries := (raw.drop (p.off + shardStateArr)).take ((g.d + 1) * 8)
  match r.rows.find? (·.1 = chunkpos) with
  | some row => if row.2 = entries then some r else none
  | none =>
    some
      { rows := r.rows ++ [(chunkpos, entries)]
        slices :=
          r.slices ++
            [.cast chunkpos (min (p.total - g.unscaledHeader) (g.group - chunkpos))
              (entriesAt raw p.off g.d)] }

/-- `MAX_PARITY_BUFFER_CAP` of a 64-bit target. -/
def maxParityBufferCap : Nat := 64 * 1024 * 1024 * 1024

/-- `calculate_parity_buffer_size` -/
def calculateParityBufferSize (count unitSize : Nat) : Option Nat :=
  if count = 0 ∨ unitSize = 0 then none
  else if count > maxParityBufferCap / unitSize then none
  else some (count * unitSize)

/-- A logical shard in the shape of a record with one piece for each shard; the region of
its entries stays zero. -/
def canonicalShard (g : PieceGeometry) (nr : Nat) (first : Piece)
    (payloads : List (Nat × Nat)) (idx : Nat) : List UInt8 :=
  let total := g.scaledHeader + g.group
  let tail :=
    writeLe 4 total ++ writeLe 4 g.scaledHeader ++ [0x01, 0x01] ++ writeLe 8 0 ++
      (raw.drop (first.off + shardChunkExt)).take 4 ++
      (raw.drop (first.off + shardProtSize)).take 8 ++ writeLe 8 g.group ++
      writeLe 8 g.shardSize ++ writeLe 2 g.d ++ writeLe 2 nr ++ writeLe 2 idx ++
      List.replicate (g.scaledHeader - shardStateArr) 0 ++
      payloads.flatMap fun payload => (raw.drop payload.1).take payload.2
  shardMagic ++ writeLe 8 (crc64Xz tail) ++ tail

/-- The record with one shard for each logical index, and its rows. -/
def reassemble (first : Piece) (pieces : List Piece) : Option (List UInt8 × List RrSlice) := do
  let nr := (pieces.map Piece.idx).foldl max 0 + 1
  let g : PieceGeometry :=
    { d := fieldAt 2 raw (first.off + shardDField)
      group := fieldAt 8 raw (first.off + shardGroupCnt)
      shardSize := fieldAt 8 raw (first.off + shardSizeU64)
      protSize := fieldAt 8 raw (first.off + shardProtSize) }
  if nr > 2000 ∨ g.d = 0 ∨ g.d > 200 ∨ nr > 10 * g.d then none
  else
    let c ← pieces.foldlM (placePiece raw g) ⟨List.replicate nr 0, List.replicate nr []⟩
    if c.covered.any (· ≠ g.group) then none
    else
      let r ← pieces.foldlM (placeRow raw g) ⟨[], []⟩
      -- The sizes of the rewritten shards have to fit their 32-bit fields.
      if g.scale > (2 ^ 32 - 1) / g.unscaledHeader then none
      else if g.group > 2 ^ 32 - 1 - g.scaledHeader then none
      else
        let _ ← calculateParityBufferSize nr (g.scaledHeader + g.group)
        some
          ((List.range nr).flatMap fun j =>
              canonicalShard raw g nr first (c.payloads.getD j []) j,
            r.slices)

/-- The record as the rest of `repair` sees it, with the slices of a reassembled one. -/
def canonicalRecord (rr : RrLocation) : Option (RrLocation × List RrSlice) := do
  if rr.rawData.length < shardStateArr + 8 ∨ ¬ hasMagic rr.rawData 0 then none
  else
    match ← recordPieces rr.rawData with
    | [] => some (rr, [])
    | first :: pieces =>
      if ← isMultiphysical rr.rawData first (first :: pieces) then
        let (raw, slices) ← reassemble rr.rawData first (first :: pieces)
        some ({ rr with rawData := raw, dataSize := raw.length }, slices)
      else some (rr, [])

/-! ## The structural checks -/

/-- A record that passed the checks of `repair` on its own bytes and against the file. -/
structure CheckedRecord (file : FileContents) where
  rr : RrLocation
  slices : List RrSlice
  totalSize : Nat
  headerSize : Nat
  groupCount : Nat
  protSize : Nat
  d : Nat
  nr : Nat
  d_le : d ≤ 200
  group_lt : groupCount < 2 ^ 32
  prot_le : protSize ≤ d * groupCount
  offset_le : rr.headerOffset ≤ protSize
  header_fits : rr.headerOffset + rr.headerSize ≤ file.bytes.length

theorem group_lt_of_total {total header group : Nat} (htotal : total < 2 ^ 32)
    (hgroup : group < 2 ^ 64) (hheader : header < total)
    (hsum : total = (header + group) % 2 ^ 64) : group < 2 ^ 32 := by
  omega

theorem fieldAt_lt (width : Nat) (raw : List UInt8) (off : Nat) :
    fieldAt width raw off < 256 ^ width := by
  refine lt_of_lt_of_le (readLe_lt _) (Nat.pow_le_pow_right (by decide) ?_)
  exact List.length_take_le _ _

/-- The checks on the geometry that the first shard declares and on the place of the
record in the file. -/
def checkRecord (file : FileContents) (rr : RrLocation) (slices : List RrSlice) :
    Option (CheckedRecord file) :=
  let total := fieldAt 4 rr.rawData shardTotalOff
  let header := fieldAt 4 rr.rawData shardHeaderOff
  let group := fieldAt 8 rr.rawData shardGroupCnt
  let prot := fieldAt 8 rr.rawData shardProtSize
  let d := fieldAt 2 rr.rawData shardDField
  let nr := fieldAt 2 rr.rawData shardNrField
  if total = 0 ∨ fieldAt 8 rr.rawData shardSizeU64 ≠ total then none
  else if d = 0 ∨ nr = 0 then none
  else if hheader : header = 0 ∨ header ≥ total then none
  else if group = 0 ∨ group % 2 = 1 then none
  else if htotal : total ≠ (header + group) % 2 ^ 64 then none
  else if nr * total > rr.dataSize then none
  else if hprot : prot > d * group then none
  else if hd : d > 200 ∨ nr > 10 * 200 then none
  else if hfits : rr.headerOffset + rr.headerSize > file.bytes.length then none
  else if rr.dataSize > file.bytes.length - rr.headerOffset - rr.headerSize then none
  else if hoffset : rr.headerOffset > prot then none
  else
    some
      { rr := rr
        slices := slices
        totalSize := total
        headerSize := header
        groupCount := group
        protSize := prot
        d := d
        nr := nr
        d_le := by omega
        group_lt :=
          group_lt_of_total (fieldAt_lt 4 _ _) (fieldAt_lt 8 _ _)
            (Nat.lt_of_not_le (not_or.mp hheader).2) (not_not.mp htotal)
        prot_le := by omega
        offset_le := by omega
        header_fits := by omega }

/-- The record of a file that passes the structural checks of `repair`. -/
def findRecord (file : FileContents) (sfxOffset : Nat) : Option (CheckedRecord file) := do
  let rr ← findRr file.bytes sfxOffset
  let (rr, slices) ← canonicalRecord rr
  checkRecord file rr slices

/-! ## The geometry of a new record -/

/-- `RecoveryGeometry` -/
structure RecoveryGeometry where
  pct : Nat
  d : Nat
  nr : Nat
  groupCount : Nat
  scale : Nat
  headerSize : Nat
  shardSize : Nat
  archiveSize : Nat

/-- The number of data chunks: one for every KiB, 200 at most. -/
def dataChunks (archiveSize : Nat) : Nat :=
  if archiveSize ≥ 200 * 1024 then 200
  else
    let k := (archiveSize + 1023) / 1024
    if k = 0 then 1 else if k > 200 then 200 else k

/-- `compute_geometry` -/
def computeGeometry (archiveSize recPct : Nat) : RecoveryGeometry :=
  let pct := min recPct 1000
  let d := dataChunks archiveSize
  let nr := min (2 * pct * d / 200) (10 * d)
  let gc := (archiveSize + d - 1) % 2 ^ 64 / d
  let gc := gc + gc % 2
  let scale := max 1 ((gc + 0xFFFF) / 0x10000) % 2 ^ 32
  { pct := pct
    d := d
    nr := if nr = 0 ∧ archiveSize < 200 * 1024 then 1 else nr
    groupCount := gc
    scale := scale
    headerSize := (d * 8 + 0x48) * scale
    shardSize := (d * 8 + 0x48) * scale + gc
    archiveSize := archiveSize }

/-- The chunks are as many as there are begun KiB, or 200 of more than a KiB each. -/
theorem dataChunks_cases {archiveSize : Nat} (hpos : 1 ≤ archiveSize) :
    (dataChunks archiveSize = 200 ∧ 200 * 1024 ≤ archiveSize) ∨
      1 ≤ dataChunks archiveSize ∧ dataChunks archiveSize ≤ 200 ∧
        1024 * (dataChunks archiveSize - 1) < archiveSize ∧
        archiveSize ≤ 1024 * dataChunks archiveSize := by
  unfold dataChunks
  split
  · next hlarge => exact .inl ⟨rfl, hlarge⟩
  · dsimp only
    split_ifs <;> omega

/-- **Recovery geometry.**  For every archive size below `2 ^ 63` and every percentage there
are 1 to 200 chunks of an even number of bytes and at most ten parity shards a chunk; the
chunks cover the archive, and the last of them is not empty. -/
theorem computeGeometry_law {archiveSize : Nat} (hpos : 1 ≤ archiveSize)
    (hlt : archiveSize < 2 ^ 63) (recPct : Nat) :
    1 ≤ (computeGeometry archiveSize recPct).d ∧ (computeGeometry archiveSize recPct).d ≤ 200 ∧
      (computeGeometry archiveSize recPct).groupCount % 2 = 0 ∧
      (computeGeometry archiveSize recPct).nr ≤ 10 * (computeGeometry archiveSize recPct).d ∧
      ((computeGeometry archiveSize recPct).d - 1)
        * (computeGeometry archiveSize recPct).groupCount < archiveSize ∧
      archiveSize ≤ (computeGeometry archiveSize recPct).d
        * (computeGeometry archiveSize recPct).groupCount := by
  have hcases := dataChunks_cases hpos
  simp only [computeGeometry]
  generalize dataChunks archiveSize = d at *
  have hd : 1 ≤ d ∧ d ≤ 200 := by omega
  have hwrap : (archiveSize + d - 1) % 2 ^ 64 = archiveSize + d - 1 := Nat.mod_eq_of_lt (by omega)
  rw [hwrap]
  -- the ceiling, and what rounding up to even adds
  have hceil := Nat.div_add_mod (archiveSize + d - 1) d
  have hrem := Nat.mod_lt (archiveSize + d - 1) hd.1
  set gc := (archiveSize + d - 1) / d
  have hcover : archiveSize ≤ d * gc := by omega
  refine ⟨hd.1, hd.2, by omega, ?_, ?_, ?_⟩
  · split
    · omega
    · exact Nat.min_le_right _ _
  · rcases hcases with ⟨rfl, hlarge⟩ | ⟨_, _, hlow, hhigh⟩
    · omega
    · have hgc : gc ≤ 1024 := by
        by_contra hgt
        have : d * 1025 ≤ d * gc := Nat.mul_le_mul_left d (by omega)
        omega
      calc (d - 1) * (gc + gc % 2) ≤ (d - 1) * 1024 := Nat.mul_le_mul_left _ (by omega)
        _ < archiveSize := by omega
  · exact hcover.trans (Nat.mul_le_mul_left d (Nat.le_add_right _ _))

/-- One byte more than a KiB. -/
theorem computeGeometry_law_small :
    (computeGeometry 1025 5).d = 2 ∧ 1 * (computeGeometry 1025 5).groupCount < 1025 :=
  ⟨rfl, (@computeGeometry_law 1025 (by decide) (by decide) 5).2.2.2.2.1⟩

end OpenRar.Recovery
