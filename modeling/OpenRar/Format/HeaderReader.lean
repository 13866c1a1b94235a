import OpenRar.Format.Headers

/-!
# Reading file headers

Embedding of `HeaderReader::parse_file_header`.  The fixed fields are read from the
front.  The extra area is the end of the body; its records are read one after another,
each within the bytes that its size gives it, clamped to the area.  A record that
cannot be read is skipped, with two exceptions: a broken encryption record fails the
header, and a broken record of extended attributes is kept as an unknown one.
-/

namespace OpenRar.Format

open OpenRar.Core

/-! ## Compression information -/

/-- The window that the reader derives, with a sentinel for sizes that are not
allowed. -/
def decodeWinSize (compInfo unpVer method : Nat) : Nat :=
  if unpVer > 1 ∨ (method = 0 ∧ compInfo &&& 0x7C00 = 0) then 0
  else
    let rawDictBits := (compInfo >>> 10) &&& 0x1F
    if unpVer = 0 ∧ rawDictBits > 15 then rarDictMaxV0 + 1
    else if unpVer = 1 ∧ rawDictBits > 23 then rarDictMaxV1 + 1
    else
      let base := rarDictBase <<< rawDictBits
      if unpVer = 1 then
        let win := base + base / 32 * ((compInfo >>> 15) &&& 0x1F)
        if win > rarDictMaxV1 then rarDictMaxV1 + 1 else win
      else if base > rarDictMaxV0 then rarDictMaxV0 + 1
      else base

def decodeCompInfo (compInfo : Nat) : Compression where
  unpVer := compInfo &&& 0x3F
  isSolid := hasFlag compInfo 0x40
  method := (compInfo >>> 7) &&& 7
  extraDist := (compInfo &&& 0x3F) = 1 ∧ compInfo &&& fciRar5Compat = 0
  winSize := decodeWinSize compInfo (compInfo &&& 0x3F) ((compInfo >>> 7) &&& 7)

namespace HeaderReader

/-- A little-endian field of `width` bytes. -/
def readField (width : Nat) (data : List UInt8) : Option (Nat × List UInt8) :=
  if width ≤ data.length then some (readLe (data.take width), data.drop width) else none

/-- A field that is present under a condition, with the value of an absent one. -/
def readIf (present : Bool) (absent : Nat) (read : List UInt8 → Option (Nat × List UInt8))
    (data : List UInt8) : Option (Nat × List UInt8) :=
  if present then read data else some (absent, data)

/-- The first `len` bytes, if they are there. -/
def readBytes (len : Nat) (data : List UInt8) : Option (List UInt8 × List UInt8) :=
  if len ≤ data.length then some (data.take len, data.drop len) else none

/-! ## Records -/

/-- A BLAKE2sp digest; other hash types are skipped. -/
def parseHash (payload : List UInt8) (b : FileBlock) : FileBlock :=
  match payload with
  | [] => b
  | hashType :: rest =>
    match ByteArrayOf.read 32 rest with
    | none => b
    | some (digest, _) =>
      if hashType = 0 then { b with hasBlake2sp := true, blake2sp := digest } else b

/-- The password check; an all-zero one means that none was stored. -/
def parsePswCheck (c : FileCrypt) (data : List UInt8) : Option FileCrypt := do
  let (check, data) ← ByteArrayOf.read 8 data
  let (csum, _) ← ByteArrayOf.read 4 data
  some { c with hasPswCheck := ¬ check.bytes.all (· = 0), pswCheck := check, pswCheckCsum := csum }

/-- The encryption record, all of whose fields are mandatory. -/
def parseCrypt (payload : List UInt8) (c : FileCrypt) : Option FileCrypt := do
  let (version, data) ← readVint payload
  let (flags, data) ← readVint data
  if data.length < 1 + 16 + 16 + (if hasFlag flags 0x01 then 8 + 4 else 0) then none
  else
    match data with
    | [] => none
    | lg2Count :: data => do
        let (salt, data) ← ByteArrayOf.read 16 data
        let (initV, data) ← ByteArrayOf.read 16 data
        let c :=
          { c with
            isEncrypted := true
            version := version % 2 ^ 32
            flags := flags % 2 ^ 32
            lg2Count := lg2Count
            salt := salt
            initV := initV }
        if hasFlag flags 0x01 then parsePswCheck c data else some c

/-- A version record is two integers, the first one zero, that fill the record. -/
def parseVersion (payload : List UInt8) : Option Nat := do
  let (flags, data) ← readVint payload
  if flags ≠ 0 then none
  else
    let (version, data) ← readVint data
    if data = [] then some version else none

/-- A redirection; a target of 2048 bytes or more, or a cut one, is ignored. -/
def parseRedir (payload : List UInt8) : Option Redirection := do
  let (type, data) ← readVint payload
  let (flags, data) ← readVint data
  let (len, data) ← readVint data
  if len ≥ 2048 then none
  else
    let (target, _) ← readBytes len data
    some { type := type % 2 ^ 8, dirTarget := hasFlag flags 0x01, target := target }

/-- The records of the types 4 and 5 share a shape; the content decides. -/
def parseVersionOrRedir (payload : List UInt8) (b : FileBlock) : FileBlock :=
  match parseVersion payload with
  | some version => { b with hasFileVersion := true, fileVersion := version }
  | none =>
    match parseRedir payload with
    | some redir => { b with redir := redir }
    | none => b

/-- One stamp in the precision of the record, if its bytes are there. -/
def readStamp (present isUnix : Bool) (s : Stamp) (data : List UInt8) : Stamp × List UInt8 :=
  if present then
    if isUnix then
      if 4 ≤ data.length then ({ s with unix := readLe (data.take 4) }, data.drop 4) else (s, data)
    else if 8 ≤ data.length then ({ s with win := readLe (data.take 8) }, data.drop 8)
    else (s, data)
  else (s, data)

/-- The nanoseconds of one stamp; a value of a second or more is dropped. -/
def readNs (present : Bool) (s : Stamp) (data : List UInt8) : Stamp × List UInt8 :=
  if present ∧ 4 ≤ data.length then
    let raw := readLe (data.take 4) &&& 0x3FFFFFFF
    (if raw < 1000000000 then { s with ns := raw, hasNs := true } else s, data.drop 4)
  else (s, data)

/-- The record of an early prototype: 64-bit stamps under other flags. -/
def isLegacyTimes (flags : Nat) (data : List UInt8) : Bool :=
  flags ≤ 0x07 ∧ hasFlag flags 0x01 ∧ ¬ hasFlag flags 0x02 ∧ data.length % 8 = 0 ∧ data.length > 0

def parseLegacyTimes (flags : Nat) (data : List UInt8) (t : FileTimes) : FileTimes :=
  let (mtime, data) := readStamp (hasFlag flags 0x01) false t.mtime data
  let mtime := if hasFlag flags 0x01 then { mtime with hasNs := false } else mtime
  let (ctime, data) := readStamp (hasFlag flags 0x02) false t.ctime data
  let (atime, _) := readStamp (hasFlag flags 0x04) false t.atime data
  { mtime := mtime, ctime := ctime, atime := atime, isUnix := false }

def parseTimes (flags : Nat) (data : List UInt8) (t : FileTimes) : FileTimes :=
  let isUnix := hasFlag flags 0x01
  let hasMtime := hasFlag flags 0x02
  let hasCtime := hasFlag flags 0x04
  let hasAtime := hasFlag flags 0x08
  let hasNs := hasFlag flags 0x10
  let (mtime, data) := readStamp hasMtime isUnix t.mtime data
  let (ctime, data) := readStamp hasCtime isUnix t.ctime data
  let (atime, data) := readStamp hasAtime isUnix t.atime data
  if hasNs ∧ isUnix then
    let (mtime, data) := readNs hasMtime mtime data
    let (ctime, data) := readNs hasCtime ctime data
    let (atime, _) := readNs hasAtime atime data
    { mtime := mtime, ctime := ctime, atime := atime, isUnix := isUnix }
  else { mtime := mtime, ctime := ctime, atime := atime, isUnix := isUnix }

def parseHtime (payload : List UInt8) (t : FileTimes) : FileTimes :=
  match readVint payload with
  | none => t
  | some (flags, data) =>
    if isLegacyTimes flags data then parseLegacyTimes flags data t else parseTimes flags data t

/-- One owner name; more than 255 bytes, or bytes that are missing, spoil the record. -/
def readOwnerName (data : List UInt8) : Option (List UInt8 × List UInt8) := do
  let (len, data) ← readVint data
  if len > 255 then none else readBytes len data

def readOwnerNameIf (present : Bool) (data : List UInt8) (old : List UInt8) :
    Option (List UInt8 × List UInt8) :=
  if present then readOwnerName data else some (old, data)

/-- An identifier that is cut off is left unset. -/
def readOwnerId (present : Bool) (has : Bool) (id : Nat) (data : List UInt8) :
    Bool × Nat × List UInt8 :=
  if present then
    match readVint data with
    | some (value, data) => (true, value, data)
    | none => (has, id, data)
  else (has, id, data)

/-- The owner record: both names are checked before any field is taken. -/
def parseOwner (payload : List UInt8) (o : Owner) : Owner :=
  match readVint payload with
  | none => o
  | some (flags, data) =>
    let names := do
      let (user, data) ← readOwnerNameIf (hasFlag flags 0x0001) data o.user
      let (group, data) ← readOwnerNameIf (hasFlag flags 0x0002) data o.group
      some (user, group, data)
    match names with
    | none => { o with hasOwner := false }
    | some (user, group, data) =>
      let (hasUid, uid, data) := readOwnerId (hasFlag flags 0x0004) o.hasUid o.uid data
      let (hasGid, gid, _) := readOwnerId (hasFlag flags 0x0008) o.hasGid o.gid data
      { hasOwner := true
        user := user
        group := group
        uid := uid
        gid := gid
        hasUid := hasUid
        hasGid := hasGid }

/-- The entries of an attribute record; they must fill it, without a name twice. -/
def parseXattrEntries : Nat → List UInt8 → List FileXattr → Option (List FileXattr)
  | 0, data, parsed => if data = [] then some parsed else none
  | count + 1, data, parsed => do
      let (nameLen, data) ← readVint data
      if nameLen = 0 ∨ nameLen > xattrNameMax then none
      else
        let (name, data) ← readBytes nameLen data
        let (valueLen, data) ← readVint data
        if valueLen > xattrValueMax then none
        else
          let (value, data) ← readBytes valueLen data
          if name ∈ parsed.map FileXattr.name then none
          else parseXattrEntries count data (parsed ++ [⟨name, value⟩])

def parseXattrs (payload : List UInt8) : Option (List FileXattr) := do
  let (flags, data) ← readVint payload
  if flags ≠ 0 then none
  else
    let (count, data) ← readVint data
    if count > data.length / 3 then none else parseXattrEntries count data []

/-- One record; `rest` is what follows it in the area. -/
def parseRecord (recSize : Nat) (type : UInt8) (payload raw rest : List UInt8) (b : FileBlock) :
    Option (FileBlock × List UInt8) :=
  if type = fhextraHash ∧ recSize ≥ 34 then some (parseHash payload b, rest)
  else if type = fhextraCrypt then do
    let crypt ← parseCrypt payload b.crypt
    some ({ b with crypt := crypt }, rest)
  else if type = fhextraRedir ∨ type = 0x04 then some (parseVersionOrRedir payload b, rest)
  else if type = fhextraHtime then some ({ b with times := parseHtime payload b.times }, rest)
  else if type = fhextraSubdata then
    -- A single byte that is left over belongs to the record.
    if rest.length = 1 then some ({ b with subData := payload ++ rest }, [])
    else some ({ b with subData := payload }, rest)
  else if type = fhextraOwner then some ({ b with owner := parseOwner payload b.owner }, rest)
  else if type = fhextraXattr then
    match parseXattrs payload with
    | some xattrs => some ({ b with xattrs := b.xattrs ++ xattrs }, rest)
    | none => some ({ b with unknownExtras := b.unknownExtras ++ [⟨type, raw⟩] }, rest)
  else some ({ b with unknownExtras := b.unknownExtras ++ [⟨type, raw⟩] }, rest)

/-- The loop over the records of the extra area. -/
def parseExtras : Nat → List UInt8 → FileBlock → Option FileBlock
  | 0, _, b => some b
  | fuel + 1, area, b =>
    match readVint area with
    | none => some b
    | some (recSize, data) =>
      if recSize < 1 then some b
      else
        match data.take recSize with
        | [] => some b
        | type :: payload => do
            let raw := area.take (area.length - (data.drop recSize).length)
            let (b, rest) ← parseRecord recSize type payload raw (data.drop recSize) b
            parseExtras fuel rest b

/-! ## The header -/

/-- The packed size of a header with a data area. -/
def readPackSize (flags : Nat) (data : List UInt8) : Option (Int × List UInt8) :=
  if hasFlag flags hflData then do
    let (size, data) ← readVint data
    if size > 2 ^ 63 - 1 then none else some (size, data)
  else some (-1, data)

/-- The fixed fields: the block they give, the size of the extra area and what follows
the name. -/
def parseFixed (body : List UInt8) : Option (FileBlock × Nat × List UInt8) := do
  let (type, data) ← readVint body
  if type ≠ headFile ∧ type ≠ headService then none
  else
    let (flags, data) ← readVint data
    let (extraSize, data) ← readIf (hasFlag flags hflExtra) 0 readVint data
    let (packSize, data) ← readPackSize flags data
    let (fileFlags, data) ← readVint data
    let (unpSize, data) ← readVint data
    let (attributes, data) ← readVint data
    let (utimeUnix, data) ← readIf (hasFlag fileFlags fhflUtime) 0 (readField 4) data
    let (dataCrc32, data) ← readIf (hasFlag fileFlags fhflCrc32) 0 (readField 4) data
    let (compInfo, data) ← readVint data
    let (hostOs, data) ← readVint data
    let (nameLen, data) ← readVint data
    let (fileName, data) ← readBytes nameLen data
    some
      ({ isService := type = headService
         serviceType := if type = headService then fileName else []
         fileFlags := fileFlags
         unpSize := unpSize
         unpUnknown := hasFlag fileFlags fhflUnpUnknown
         packSize := packSize
         attributes := attributes
         utimeUnix := utimeUnix
         hasCrc32 := hasFlag fileFlags fhflCrc32
         dataCrc32 := dataCrc32
         comp := decodeCompInfo compInfo
         hostOs := hostOs % 2 ^ 32
         fileName := fileName },
        extraSize, data)

/-- `parse_file_header`; the extra area is anchored at the end of the body. -/
def parseFileHeader (body : List UInt8) : Option FileBlock := do
  let (b, extraSize, data) ← parseFixed body
  if extraSize > 0 then
    if extraSize > data.length then none
    else parseExtras extraSize (data.drop (data.length - extraSize)) b
  else some b

end HeaderReader
end OpenRar.Format
