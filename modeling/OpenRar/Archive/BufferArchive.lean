import OpenRar.Archive.PathNames
import OpenRar.Compress.EncoderSessions
import OpenRar.Format.BlockReader
import OpenRar.Format.HeaderWriter

/-!
# Archives in memory

`buffer_archive.cpp`: `create_archive` writes a list of named contents as one archive,
`BufferArchive::list` walks the headers of an archive, `extract` and `extract_all` decode
its entries.  Progress and cancel hooks, caller-imposed limits and modification times are
left out; positions in the archive are distances from its start.

The Unicode tables of the collision detector, the conversion to DOS time and the BLAKE2sp
digest are parameters.
-/

namespace OpenRar.Archive

open OpenRar.Core OpenRar.Crypto OpenRar.Format OpenRar.Compress

/-! ## Collisions -/

/-- `simple_case_fold` and `nfc`. -/
structure UnicodeTables where
  simpleCaseFold : Name → Name
  nfc : Name → Name

structure CollisionEntry where
  name : Name
  isDir : Bool

inductive CollisionClass where
  | duplicate
  | caseFold
  | nfc
  | fileVsDir
deriving DecidableEq

/-- A reported pair of positions. -/
structure CollisionPair where
  first : Nat
  second : Nat
  cls : CollisionClass

/-- `is_strict_component_prefix` -/
def isStrictComponentPrefix (shorter longer : List Name) : Bool :=
  shorter.length < longer.length && shorter.isPrefixOf longer

namespace CollisionDetector

variable (u : UnicodeTables)

/-- A pair is reported once, under its first class. -/
def add (out : List CollisionPair) (first second : Nat) (cls : CollisionClass) :
    List CollisionPair :=
  if out.any fun c => c.first = first ∧ c.second = second then out
  else out ++ [⟨first, second, cls⟩]

def components (e : CollisionEntry) : List Name := (u.nfc e.name).splitOn slash

/-- The earliest of the entries before `i` with a property; the maps of the source hold
the first entry of a key. -/
def earliest (entries : List CollisionEntry) (i : Nat) (same : CollisionEntry → Bool) :
    Option (Nat × CollisionEntry) :=
  ((entries.take i).zipIdx.find? fun (e, _) => same e).map fun (e, j) => (j, e)

/-- The reports for the entry at `i` against the one at `j` before it. -/
def fileVsDir (i j : Nat) (e other : CollisionEntry) (out : List CollisionPair) :
    List CollisionPair :=
  let out :=
    if !e.isDir && isStrictComponentPrefix (components u e) (components u other) then
      add out i j .fileVsDir
    else out
  if !other.isDir && isStrictComponentPrefix (components u other) (components u e) then
    add out j i .fileVsDir
  else out

/-- One turn of the loop of `detect`. -/
def detectAt (entries : List CollisionEntry) (out : List CollisionPair) (i : Nat)
    (e : CollisionEntry) : List CollisionPair :=
  let out :=
    match earliest entries i fun other => other.name = e.name with
    | some (j, _) => add out j i .duplicate
    | none => out
  let out :=
    match earliest entries i fun other => u.simpleCaseFold other.name = u.simpleCaseFold e.name with
    | some (j, other) => if other.name ≠ e.name then add out j i .caseFold else out
    | none => out
  let out :=
    match earliest entries i fun other => u.nfc other.name = u.nfc e.name with
    | some (j, other) =>
      if other.name ≠ e.name ∧ u.simpleCaseFold other.name ≠ u.simpleCaseFold e.name then
        add out j i .nfc
      else out
    | none => out
  (entries.take i).zipIdx.foldl (fun out (other, j) => fileVsDir u i j e other out) out

/-- `CollisionDetector::detect` -/
def detect (entries : List CollisionEntry) : List CollisionPair :=
  entries.zipIdx.foldl (fun out (e, i) => detectAt u entries out i e) []

end CollisionDetector

/-! ## Paths -/

/-- One sequence of `core::is_valid_utf8` and the length of what is behind its lead
byte. -/
def utf8Extra (c : UInt8) : Option Nat :=
  if c &&& 0xE0 = 0xC0 then if c &&& 0x1E = 0 then none else some 1
  else if c &&& 0xF0 = 0xE0 then some 2
  else if c &&& 0xF8 = 0xF0 then if c > 0xF4 then none else some 3
  else none

/-- `core::is_valid_utf8`; every turn takes at least a byte. -/
def isValidUtf8From : Nat → Name → Bool
  | 0, _ => true
  | _ + 1, [] => true
  | fuel + 1, c :: rest =>
    if c < 0x80 then isValidUtf8From fuel rest
    else
      match utf8Extra c with
      | none => false
      | some extra =>
        validSequence (extra + 1) (c :: rest) && isValidUtf8From fuel (rest.drop extra)

def isValidUtf8 (s : Name) : Bool := isValidUtf8From s.length s

/-- `has_dotdot_segment` -/
def hasDotdotSegment (path : Name) : Bool := (path.splitOn slash).any (· = [dot, dot])

def endsWithSlash (path : Name) : Bool := path.getLast? = some slash

/-- The complaint about a byte of a path. -/
def badByte (c : UInt8) : Option String :=
  if c = 0 then some "path contains NUL byte"
  else if c < 0x20 then some "path contains control character"
  else if c = backslash then some "path contains backslash"
  else none

/-- `validate_archive_path`; the complaint, if there is one. -/
def validateArchivePath (path : Name) (isDir : Bool) : Option String :=
  if path = [] then some "path is empty"
  else if path.length > 2048 then some "path exceeds 2048 bytes"
  else if !isValidUtf8 path then some "path is not valid UTF-8"
  else if path.head? = some slash then some "path has leading '/'"
  else
    match path.findSome? badByte with
    | some complaint => some complaint
    | none =>
      if hasDotdotSegment path then some "path contains '..' segment"
      else if isDir && !endsWithSlash path then some "directory entry must have trailing '/'"
      else if !isDir && endsWithSlash path then some "file entry must not have trailing '/'"
      else none

/-! ## Writing -/

/-- `HeaderWriter::wrap_block` -/
def wrapBlock (body : List UInt8) : List UInt8 :=
  let size := pushVint body.length
  writeLe 4 (crc32From (crc32From 0#32 size) body).toNat ++ (size ++ body)

/-- The `comp_info` word of `build_file_block_bytes`. -/
def buildCompInfo (c : Compression) : Nat :=
  let base := (c.unpVer &&& 0x3F) ||| (if c.isSolid then 0x40 else 0) ||| (c.method &&& 7) <<< 7
  if c.winSize ≥ 0x20000 ∧ c.method ≠ 0 then
    base ||| (dictLoop c.winSize 15 15 0x20000 0).2 <<< 10
  else base

/-- The body of `build_file_block_bytes`. -/
def buildFileBody (unixToDosTime : Nat → Nat) (fb : FileBlock) (includeData : Bool) : List UInt8 :=
  let flags := if includeData ∧ fb.packSize ≥ 0 then hflData else 0
  let effFileFlags := HeaderWriter.effFileFlags fb
  pushVint (if fb.isService then headService else headFile)
    ++ (pushVint flags
    ++ ((if hasFlag flags hflData then pushVint fb.packSize.toNat else [])
    ++ (pushVint effFileFlags
    ++ (pushVint fb.unpSize
    ++ (pushVint fb.attributes
    ++ ((if hasFlag effFileFlags fhflUtime then writeLe 4 (unixToDosTime fb.utimeUnix) else [])
    ++ ((if hasFlag effFileFlags fhflCrc32 then writeLe 4 fb.dataCrc32 else [])
    ++ (pushVint (buildCompInfo fb.comp)
    ++ (pushVint fb.hostOs
    ++ (pushVint fb.fileName.length
    ++ fb.fileName))))))))))

/-- `build_file_block_bytes` -/
def buildFileBlockBytes (unixToDosTime : Nat → Nat) (fb : FileBlock) (includeData : Bool) :
    List UInt8 :=
  wrapBlock (buildFileBody unixToDosTime fb includeData)

def mainBody : List UInt8 := pushVint headMain ++ (pushVint 0 ++ pushVint 0)

/-- `build_main_block_bytes` -/
def buildMainBlockBytes : List UInt8 := wrapBlock mainBody

def endBody : List UInt8 := pushVint headEndArc ++ (pushVint 0 ++ pushVint 0)

/-- `build_end_block_bytes` -/
def buildEndBlockBytes : List UInt8 := wrapBlock endBody

/-- `rar5_signature` -/
def rar5Signature : List UInt8 := [0x52, 0x61, 0x72, 0x21, 0x1A, 0x07, 0x01, 0x00]

/-- The codes of `BufferArchiveError` that occur here. -/
inductive RarCode where
  | ok
  | partialOk
  | notRar
  | unsupportedFeature
  | truncated
  | crcMismatch
  | nomem
  | invalidArg
  | limitExceeded
deriving DecidableEq

/-- `window_size_from_log2` -/
def windowSizeFromLog2 (log2 : Nat) : Nat :=
  match log2 with
  | 1 => 128 * 1024
  | 2 => 256 * 1024
  | 3 => 512 * 1024
  | 4 => 1024 * 1024
  | _ => 0

/-- A path and its contents. -/
structure Item where
  path : Name
  content : List UInt8
deriving DecidableEq

/-- What the code outside the model provides: the environment of the compressor and the
parameters of this file. -/
structure Platform where
  host : Host
  tables : UnicodeTables
  unixToDosTime : Nat → Nat
  blake2sp : List UInt8 → ByteArrayOf 32

/-- The fields that every entry shares. -/
def itemBlock (path : Name) : FileBlock :=
  { fileName := path, attributes := 0x20, hostOs := 1 }

/-- The header of an entry with data, and the data. -/
def dataBlock (item : Item) (method winSize packSize : Nat) : FileBlock :=
  { itemBlock item.path with
    unpSize := item.content.length
    hasCrc32 := true
    dataCrc32 := crc32 item.content
    packSize := packSize
    comp := { method := method, winSize := winSize } }

/-- The compressed form of some contents, if it is shorter. -/
def compressedForm (p : Platform) (method winSize : Nat) (content : List UInt8) :
    Option (List UInt8) :=
  if method = 0 then none
  else
    (Compressor50.compressBuffer p.host content method winSize {}).filter
      fun packed => packed ≠ [] ∧ packed.length < content.length

/-- What an item becomes: its header, whether that announces data, and the data. -/
def itemParts (p : Platform) (method winSize : Nat) (item : Item) :
    FileBlock × Bool × List UInt8 :=
  if endsWithSlash item.path then
    ({ itemBlock item.path with fileFlags := fhflDirectory, packSize := 0 }, false, [])
  else if item.content = [] then ({ itemBlock item.path with packSize := 0 }, false, [])
  else
    match compressedForm p method winSize item.content with
    | some packed => (dataBlock item method winSize packed.length, true, packed)
    | none => (dataBlock item 0 0 item.content.length, true, item.content)

/-- The bytes of one item. -/
def itemBytes (p : Platform) (method winSize : Nat) (item : Item) : List UInt8 :=
  let (fb, includeData, data) := itemParts p method winSize item
  buildFileBlockBytes p.unixToDosTime fb includeData ++ data

/-- The test of one item in front of everything else. -/
def itemAccepted (item : Item) : Bool :=
  (validateArchivePath item.path (endsWithSlash item.path)).isNone &&
    (!endsWithSlash item.path || item.content = [])

/-- `create_archive` -/
def createArchive (p : Platform) (items : List Item) (method windowLog2 : Nat) :
    RarCode × List UInt8 :=
  if method ≠ 0 ∧ method ≠ 3 ∧ method ≠ 5 then (.invalidArg, [])
  else if windowLog2 < 1 ∨ windowLog2 > 4 then (.invalidArg, [])
  else if !items.all itemAccepted then (.invalidArg, [])
  else
    (.ok, rar5Signature ++ (buildMainBlockBytes ++
      (items.flatMap (itemBytes p method (windowSizeFromLog2 windowLog2)) ++ buildEndBlockBytes)))

/-! ## Walking headers -/

/-- `HEAD_CRYPT` -/
def headCrypt : Nat := 4
/-- `MHFL_VOLUME` -/
def mhflVolume : Nat := 0x0001
/-- `MHFL_PROTECT` -/
def mhflProtect : Nat := 0x0008

/-- `HeaderReader::read_block_raw_mem` on the bytes from the position on. -/
def readBlockRawMem (src : List UInt8) : Except HeaderFailure (RawBlock × List UInt8) :=
  if src.length < 4 then .error .error
  else
    match readVint (src.drop 4) with
    | none => .error .error
    | some (bodySize, data) =>
      let size := (src.drop 4).take (src.length - 4 - data.length)
      if bodySize > 2 * 1024 * 1024 then .error .error
      else if data.length < bodySize then .error .error
      else if (crc32From (crc32From 0#32 size) (data.take bodySize)).toNat ≠
        readLe (src.take 4) then
        .error .headerCrcMismatch
      else
        match HeaderReader.parseBlockFields (data.take bodySize) with
        | none => .error .error
        | some block => .ok (block, data.drop bodySize)

/-- `BufferArchiveEntry` without its time and its own position. -/
structure BufferEntry where
  path : Name
  isDir : Bool
  size : Nat
  method : Nat
  winSize : Nat
  extraDist : Bool
  isEncrypted : Bool
  dataOffset : Nat
  dataSize : Nat
  hasCrc32 : Bool
  crc32 : Nat
  hasBlake2sp : Bool
  blake2sp : ByteArrayOf 32

def bufferEntry (fb : FileBlock) (dataOffset : Nat) : BufferEntry where
  path := fb.fileName
  isDir := hasFlag fb.fileFlags fhflDirectory
  size := fb.unpSize
  method := fb.comp.method
  winSize := fb.comp.winSize
  extraDist := fb.comp.extraDist
  isEncrypted := fb.crypt.isEncrypted
  dataOffset := dataOffset
  dataSize := fb.packSize.toNat
  hasCrc32 := fb.hasCrc32
  crc32 := if fb.hasCrc32 then fb.dataCrc32 else 0
  hasBlake2sp := fb.hasBlake2sp
  blake2sp := fb.blake2sp

/-- The outcomes of the walk; those of a password do not occur in memory. -/
inductive WalkStatus where
  | ok
  | truncated
  | cryptHeader
  | encryptedFile
  | solidHeader
deriving DecidableEq

structure WalkState where
  entries : List BufferEntry := []
  seenVolume : Bool := false
  seenProtect : Bool := false

/-- `MemSource::skip` -/
def skipData (dataSize : Nat) (rest : List UInt8) : Option (List UInt8) :=
  if dataSize > rest.length then none else some (rest.drop dataSize)

/-- `parse_end_header`: the flags of the end header. -/
def parseEndHeader (body : List UInt8) : Option Nat := do
  let (type, data) ← readVint body
  if type ≠ headEndArc then none
  else
    let (_, data) ← readVint data
    match readVint data with
    | some (endFlags, _) => some endFlags
    | none => some 0

/-- `walk_headers` on an archive of `size` bytes; every turn reads a block. -/
def walkHeaders (size : Nat) : Nat → List UInt8 → WalkState → WalkStatus × WalkState
  | 0, _, w => (.ok, w)
  | fuel + 1, src, w =>
    if src = [] then (.ok, w)
    else
      match readBlockRawMem src with
      | .error _ => (.truncated, w)
      | .ok (block, rest) =>
        if block.type = headMain then
          match HeaderReader.parseMainHeader block.body with
          | none => (.truncated, w)
          | some m =>
            walkHeaders size fuel rest
              { w with
                seenVolume := hasFlag m.arcFlags mhflVolume
                seenProtect := hasFlag m.arcFlags mhflProtect }
        else if block.type = headFile ∨ block.type = headService then
          match HeaderReader.parseFileHeader block.body with
          | none => (.truncated, w)
          | some fb =>
            match skipData block.dataSize rest with
            | none =>
              -- the entry was already listed unless the walk was about to stop
              if fb.comp.isSolid ∨ fb.crypt.isEncrypted then (.truncated, w)
              else
                (.truncated,
                  { w with entries := w.entries ++ [bufferEntry fb (size - rest.length)] })
            | some next =>
              if fb.comp.isSolid then (.solidHeader, w)
              else if fb.crypt.isEncrypted then (.encryptedFile, w)
              else
                walkHeaders size fuel next
                  { w with entries := w.entries ++ [bufferEntry fb (size - rest.length)] }
        else if block.type = headEndArc then
          match parseEndHeader block.body with
          | none => (.truncated, w)
          | some endFlags =>
            if hasFlag endFlags 0x0001 then walkHeaders size fuel rest w else (.ok, w)
        else if block.type = headCrypt then (.cryptHeader, w)
        else
          match skipData block.dataSize rest with
          | none => (.truncated, w)
          | some next => walkHeaders size fuel next w

/-- A signature inside an executable counts if a main or an encryption header follows. -/
def signatureAt (data : List UInt8) (i : Nat) : Bool :=
  rar5Signature.isPrefixOf (data.drop i) &&
    match readBlockRawMem (data.drop (i + 8)) with
    | .ok (block, _) => block.type = headMain || block.type = headCrypt
    | .error _ => false

/-- `find_rar5_signature` -/
def findRar5Signature (data : List UInt8) : Option Nat :=
  if data.length < 8 then none
  else if rar5Signature.isPrefixOf data then some 0
  else
    let limit := min data.length (4 * 1024 * 1024)
    (List.range (limit - 7)).find? fun i => 1 ≤ i && signatureAt data i

/-- `BufferArchive::list` -/
def listArchive (data : List UInt8) : RarCode × List BufferEntry :=
  if data = [] then (.truncated, [])
  else
    match findRar5Signature data with
    | none => (.notRar, [])
    | some offset =>
      match walkHeaders data.length data.length (data.drop (offset + 8)) {} with
      | (.truncated, _) => (.truncated, [])
      | (.ok, w) =>
        if w.seenVolume || w.seenProtect then (.unsupportedFeature, []) else (.ok, w.entries)
      | _ => (.unsupportedFeature, [])

/-! ## Extracting -/

/-- `HARD_MEMBER_CAP` and `MAX_TOTAL_OUTPUT`, 64 GiB in a native build. -/
def outputCap : Nat := 64 * 1024 * 1024 * 1024

/-- The checksums of decoded contents. -/
def checkContent (p : Platform) (e : BufferEntry) (out : List UInt8) : RarCode :=
  if e.hasCrc32 ∧ crc32 out ≠ e.crc32 then .crcMismatch
  else if e.hasBlake2sp ∧ p.blake2sp out ≠ e.blake2sp then .crcMismatch
  else .ok

/-- The decoding of a compressed entry.  The decoder passes on at most `size` bytes, so
the cap on its output is never met once the size is below it.  Memory is never refused, so
of the errors of the decoder only that of its constructor has a code of its own. -/
def unpack (e : BufferEntry) (payload : List UInt8) : RarCode × List UInt8 :=
  if e.size > outputCap then (.limitExceeded, [])
  else if e.winSize > Decompressor50.allocLimit then (.limitExceeded, [])
  else
    let win := if e.winSize > 0 then e.winSize else 32 * 1024 * 1024
    let unpacker := Decompressor50.new win e.extraDist
    match unpacker.decompress payload e.size false with
    | none => (if unpacker.dictionaryTooLarge then .limitExceeded else .truncated, [])
    | some result =>
      if result.chunks.flatten.length ≠ e.size then (.truncated, result.chunks.flatten)
      else (.ok, result.chunks.flatten)

/-- `BufferArchive::extract` of an entry that `list` has found. -/
def extractOne (p : Platform) (data : List UInt8) (e : BufferEntry) : RarCode × List UInt8 :=
  if e.isDir then (.ok, [])
  else if e.isEncrypted then (.unsupportedFeature, [])
  else if e.dataSize = 0 then if e.size ≠ 0 then (.truncated, []) else (.ok, [])
  else if e.dataOffset > data.length ∨ e.dataSize > data.length - e.dataOffset then (.truncated, [])
  else
    let payload := (data.drop e.dataOffset).take e.dataSize
    if e.method = 0 then
      if payload.length ≠ e.size then (.truncated, payload)
      else (checkContent p e payload, payload)
    else if e.method ≤ 5 then
      match unpack e payload with
      | (.ok, out) => (checkContent p e out, out)
      | (code, out) => (code, out)
    else (.unsupportedFeature, [])

/-- The loop of `extract_all`, with the bytes extracted so far. -/
def extractEntries (p : Platform) (data : List UInt8) :
    List BufferEntry → Nat → List Item → RarCode × List Item
  | [], _, files => (.ok, files)
  | e :: rest, cumulative, files =>
    if e.isDir then extractEntries p data rest cumulative (files ++ [⟨e.path, []⟩])
    else if cumulative > outputCap ∨ e.size > outputCap - cumulative then (.nomem, files)
    else
      match extractOne p data e with
      | (.limitExceeded, _) => (.limitExceeded, files)
      | (.ok, out) =>
        let files := files ++ [⟨e.path, out⟩]
        let cumulative := cumulative + out.length
        if cumulative > outputCap then (.nomem, files)
        else extractEntries p data rest cumulative files
      | _ => (.partialOk, files ++ [⟨e.path, []⟩])

/-- `BufferArchive::extract_all` -/
def extractAllItems (p : Platform) (data : List UInt8) : RarCode × List Item :=
  match listArchive data with
  | (.ok, entries) =>
    let names := entries.map fun e => (⟨e.path, e.isDir⟩ : CollisionEntry)
    if CollisionDetector.detect p.tables names ≠ [] then (.notRar, [])
    else extractEntries p data entries 0 []
  | (code, _) => (code, [])

end OpenRar.Archive
