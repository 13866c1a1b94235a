import OpenRar.Core.CheckedVint
import OpenRar.Format.BlockReader

/-!
# Header parsers on offsets

`parse_main_header` and `parse_file_header` once more, now with the offsets of the source:
every byte is a checked read at an index, every size and every length comes from the body
as an arbitrary 64-bit value, and sums and differences wrap.  The two loops over an extra
area have one shape, `extrasAt`, with the record parser as a parameter.
-/

namespace OpenRar.Format
namespace HeaderReader

open OpenRar.Core
open CheckedReads

section Indexed

variable (body : Buffer)

/-! ## Fields -/

def vintIfAt (present : Bool) (off stop : Nat) : Except Failure (Nat × Nat) :=
  if present then vintAt body off stop else .ok (0, off)

/-- A field of four bytes under a flag of the header. -/
def le32IfAt (present : Bool) (off stop : Nat) : Except Failure (Nat × Nat) :=
  if present then do
    demand (¬ wadd off 4 > stop)
    let value ← readLeAt body 4 off
    .ok (value, wadd off 4)
  else .ok (0, off)

/-- `std::memcpy` into an array of `n` bytes. -/
def arrayAt (n off : Nat) : Except Failure (ByteArrayOf n) := do
  let bytes ← body.loadBytes off n
  .ok ⟨(bytes ++ List.replicate n 0).take n, by simp⟩

/-! ## Records of the main header -/

/-- One offset of the locator, kept when it can be read. -/
def locatorOffsetAt (present : Bool) (off recEnd : Nat) (old : Int) :
    Except Failure (Int × Nat) :=
  if present then do
    match ← attempt (vintAt body off recEnd) with
    | some (value, off) => .ok (locatorOffset value, off)
    | none => .ok (old, off)
  else .ok (old, off)

def locatorAt (off recEnd : Nat) (m : MainBlock) : Except Failure MainBlock := do
  match ← attempt (vintAt body off recEnd) with
  | none => .ok { m with hasLocator := true }
  | some (flags, off) => do
      let (qo, off) ← locatorOffsetAt body (hasFlag flags 0x01) off recEnd m.locatorQoOffset
      let (rr, _) ← locatorOffsetAt body (hasFlag flags 0x02) off recEnd m.locatorRrOffset
      .ok { m with hasLocator := true, locatorQoOffset := qo, locatorRrOffset := rr }

def metadataNameAt (present : Bool) (cur recEnd : Nat) (m : MainBlock) :
    Except Failure (MainBlock × Nat) :=
  if present then do
    match ← attempt (vintAt body cur recEnd) with
    | none => .ok (m, cur)
    | some (nameLen, cur) =>
      if nameLen ≤ wsub recEnd cur then do
        let name ← body.loadBytes cur nameLen
        .ok ({ m with metadataName := name.takeWhile (· ≠ 0) }, wadd cur nameLen)
      else .ok (m, cur)
  else .ok (m, cur)

def metadataTimeAt (cur recEnd : Nat) (m : MainBlock) : Except Failure MainBlock :=
  if m.metadataIsUnixTime then
    if m.metadataIsNanoseconds ∧ wadd cur 8 ≤ recEnd then do
      let ctime ← readLeAt body 8 cur
      .ok { m with metadataCtime := ctime }
    else if ¬ m.metadataIsNanoseconds ∧ wadd cur 4 ≤ recEnd then do
      let ctime ← readLeAt body 4 cur
      .ok { m with metadataCtime := ctime }
    else .ok m
  else if wadd cur 8 ≤ recEnd then do
    let ctime ← readLeAt body 8 cur
    .ok { m with metadataCtime := ctime }
  else .ok m

def metadataAt (off recEnd : Nat) (m : MainBlock) : Except Failure MainBlock := do
  match ← attempt (vintAt body off recEnd) with
  | none => .ok m
  | some (flags, cur) => do
      let m :=
        { m with
          hasMetadata := true
          metadataIsUnixTime := hasFlag flags 0x04
          metadataIsNanoseconds := hasFlag flags 0x08 }
      let (m, cur) ← metadataNameAt body (hasFlag flags 0x01) cur recEnd m
      if hasFlag flags 0x02 then metadataTimeAt body cur recEnd m else .ok m

def mainRecordAt (recSize : Nat) (type : UInt8) (off recEnd : Nat) (m : MainBlock) :
    Except Failure MainBlock :=
  if type = mhextraLocator ∧ recSize ≥ 2 then locatorAt body off recEnd m
  else if type = mhextraMetadata then metadataAt body off recEnd m
  else .ok m

/-! ## The loop over the records -/

/-- The end of a record, clamped to the end of the area. -/
def recEndAt (recSize cur extraEnd : Nat) : Nat :=
  if recSize ≤ wsub extraEnd cur then wadd cur recSize else extraEnd

/-- The loop over an extra area; `record` reads one record, given where its size stands,
and says where the next one starts. -/
def extrasAt {α : Type}
    (record : Nat → UInt8 → Nat → Nat → Nat → α → Except Failure (α × Nat)) (extraEnd : Nat) :
    Nat → Nat → α → Except Failure α
  | 0, off, a => if off < extraEnd then .error .stuck else .ok a
  | fuel + 1, off, a =>
    if off < extraEnd then do
      match ← attempt (vintAt body off extraEnd) with
      | none => .ok a
      | some (recSize, cur) =>
        if cur ≥ extraEnd ∨ recSize < 1 then .ok a
        else do
          let type ← body.load cur
          let (a, next) ←
            record recSize type off (wadd cur 1) (recEndAt recSize cur extraEnd) a
          -- the source leaves the test out where it goes on early; it never fails
          demand (¬ next ≤ off)
          extrasAt record extraEnd fuel next a
    else .ok a

/-- The area at the end of a header whose fixed fields end at `off`. -/
def areaAt {α : Type}
    (record : Nat → UInt8 → Nat → Nat → Nat → α → Except Failure (α × Nat)) (hasExtra : Bool)
    (extraSize off : Nat) (a : α) : Except Failure α :=
  if hasExtra ∧ extraSize > 0 then do
    demand (¬ (off > body.size ∨ extraSize > wsub body.size off))
    extrasAt body record body.size extraSize (wsub body.size extraSize) a
  else .ok a

/-- `parse_main_header` -/
def parseMainHeaderAt : Except Failure MainBlock := do
  let (type, off) ← vintAt body 0 body.size
  demand (type = headMain)
  let (flags, off) ← vintAt body off body.size
  let (extraSize, off) ← vintIfAt body (hasFlag flags hflExtra) off body.size
  let (arcFlags, off) ← vintAt body off body.size
  let (volNumber, off) ← vintIfAt body (hasFlag arcFlags mhflVolNumber) off body.size
  areaAt body
    (fun recSize type _ off recEnd m => do
      let m ← mainRecordAt body recSize type off recEnd m
      .ok (m, recEnd))
    (hasFlag flags hflExtra) extraSize off { arcFlags := arcFlags, volNumber := volNumber }

/-! ## Records of a file header -/

def hashAt (off recEnd : Nat) (b : FileBlock) : Except Failure FileBlock :=
  if wsub recEnd off ≥ 33 then do
    let hashType ← body.load off
    if hashType = 0 then do
      let digest ← arrayAt body 32 (wadd off 1)
      .ok { b with hasBlake2sp := true, blake2sp := digest }
    else .ok b
  else .ok b

def pswCheckAt (off : Nat) (c : FileCrypt) : Except Failure FileCrypt := do
  let check ← arrayAt body 8 off
  let csum ← arrayAt body 4 (wadd off 8)
  .ok { c with hasPswCheck := ¬ check.bytes.all (· = 0), pswCheck := check, pswCheckCsum := csum }

def cryptAt (off recEnd : Nat) (c : FileCrypt) : Except Failure FileCrypt := do
  demand (¬ off ≥ recEnd)
  let (version, off) ← vintAt body off recEnd
  demand (¬ off ≥ recEnd)
  let (flags, off) ← vintAt body off recEnd
  demand (¬ wsub recEnd off < 1 + 16 + 16 + (if hasFlag flags 0x01 then 8 + 4 else 0))
  let lg2Count ← body.load off
  let salt ← arrayAt body 16 (wadd off 1)
  let initV ← arrayAt body 16 (wadd (wadd off 1) 16)
  let c :=
    { c with
      isEncrypted := true
      version := version % 2 ^ 32
      flags := flags % 2 ^ 32
      lg2Count := lg2Count
      salt := salt
      initV := initV }
  if hasFlag flags 0x01 then pswCheckAt body (wadd (wadd (wadd off 1) 16) 16) c else .ok c

def versionAt (off recEnd : Nat) : Except Failure Nat := do
  let (flags, off) ← vintAt body off recEnd
  demand (flags = 0)
  demand (off ≤ recEnd)
  let (version, off) ← vintAt body off recEnd
  demand (off = recEnd)
  .ok version

def redirAt (off recEnd : Nat) : Except Failure Redirection := do
  let (type, off) ← vintAt body off recEnd
  let (flags, off) ← vintAt body off recEnd
  let (len, off) ← vintAt body off recEnd
  demand (¬ len ≥ 2048)
  demand (¬ wsub recEnd off < len)
  let target ← body.loadBytes off len
  .ok { type := type % 2 ^ 8, dirTarget := hasFlag flags 0x01, target := target }

def versionOrRedirAt (off recEnd : Nat) (b : FileBlock) : Except Failure FileBlock := do
  match ← attempt (versionAt body off recEnd) with
  | some version => .ok { b with hasFileVersion := true, fileVersion := version }
  | none => do
      match ← attempt (redirAt body off recEnd) with
      | some redir => .ok { b with redir := redir }
      | none => .ok b

def stampAt (present isUnix : Bool) (s : Stamp) (off recEnd : Nat) :
    Except Failure (Stamp × Nat) :=
  if present then
    if isUnix then
      if wadd off 4 ≤ recEnd then do
        let value ← readLeAt body 4 off
        .ok ({ s with unix := value }, wadd off 4)
      else .ok (s, off)
    else if wadd off 8 ≤ recEnd then do
      let value ← readLeAt body 8 off
      .ok ({ s with win := value }, wadd off 8)
    else .ok (s, off)
  else .ok (s, off)

def nsAt (present : Bool) (s : Stamp) (off recEnd : Nat) : Except Failure (Stamp × Nat) :=
  if present ∧ wadd off 4 ≤ recEnd then do
    let value ← readLeAt body 4 off
    let raw := value &&& 0x3FFFFFFF
    .ok (if raw < 1000000000 then { s with ns := raw, hasNs := true } else s, wadd off 4)
  else .ok (s, off)

/-- The modification time of the early prototype's record. -/
def legacyMtimeAt (present : Bool) (s : Stamp) (off recEnd : Nat) :
    Except Failure (Stamp × Nat) :=
  if present ∧ wadd off 8 ≤ recEnd then do
    let value ← readLeAt body 8 off
    .ok ({ s with win := value, hasNs := false }, wadd off 8)
  else .ok (s, off)

def legacyTimesAt (flags off recEnd : Nat) (t : FileTimes) : Except Failure FileTimes := do
  let (mtime, off) ← legacyMtimeAt body (hasFlag flags 0x01) t.mtime off recEnd
  let (ctime, off) ← stampAt body (hasFlag flags 0x02) false t.ctime off recEnd
  let (atime, _) ← stampAt body (hasFlag flags 0x04) false t.atime off recEnd
  .ok { mtime := mtime, ctime := ctime, atime := atime, isUnix := false }

def timesAt (flags off recEnd : Nat) (t : FileTimes) : Except Failure FileTimes := do
  let isUnix := hasFlag flags 0x01
  let (mtime, off) ← stampAt body (hasFlag flags 0x02) isUnix t.mtime off recEnd
  let (ctime, off) ← stampAt body (hasFlag flags 0x04) isUnix t.ctime off recEnd
  let (atime, off) ← stampAt body (hasFlag flags 0x08) isUnix t.atime off recEnd
  if hasFlag flags 0x10 ∧ isUnix then do
    let (mtime, off) ← nsAt body (hasFlag flags 0x02) mtime off recEnd
    let (ctime, off) ← nsAt body (hasFlag flags 0x04) ctime off recEnd
    let (atime, _) ← nsAt body (hasFlag flags 0x08) atime off recEnd
    .ok { mtime := mtime, ctime := ctime, atime := atime, isUnix := isUnix }
  else .ok { mtime := mtime, ctime := ctime, atime := atime, isUnix := isUnix }

/-- `is_legacy` -/
def isLegacyAt (flags off recEnd : Nat) : Bool :=
  flags ≤ 0x07 ∧ hasFlag flags 0x01 ∧ ¬ hasFlag flags 0x02 ∧ wsub recEnd off % 8 = 0 ∧
    wsub recEnd off > 0

def htimeAt (off recEnd : Nat) (t : FileTimes) : Except Failure FileTimes := do
  match ← attempt (vintAt body off recEnd) with
  | none => .ok t
  | some (flags, off) =>
    if isLegacyAt flags off recEnd then legacyTimesAt body flags off recEnd t
    else timesAt body flags off recEnd t

/-- The payload, and a single byte left over at the end of the area. -/
def subdataAt (off recEnd extraEnd : Nat) (b : FileBlock) : Except Failure (FileBlock × Nat) :=
  if recEnd ≥ off then do
    let bytes ← body.loadBytes off (wsub recEnd off)
    if recEnd < extraEnd ∧ wsub extraEnd recEnd = 1 then do
      let last ← body.load recEnd
      .ok ({ b with subData := bytes ++ [last] }, extraEnd)
    else .ok ({ b with subData := bytes }, recEnd)
  else .ok (b, recEnd)

/-- The check of an owner name before any field is taken: the offset behind it. -/
def ownerProbeAt (present : Bool) (off recEnd : Nat) : Except Failure Nat :=
  if present then do
    let rem := if recEnd ≥ off then wsub recEnd off else 0
    let (len, count) ← readVintAt body off rem
    match len with
    | none => .error .refused
    | some len => do
        demand (¬ (len > 255 ∨ wadd count len > rem))
        .ok (wadd off (wadd count len))
  else .ok off

def ownerNameAt (present : Bool) (off recEnd : Nat) (old : List UInt8) :
    Except Failure (List UInt8 × Nat) :=
  if present then do
    match ← attempt (vintAt body off recEnd) with
    | none => .ok (old, off)
    | some (len, off) => do
        let take := min len (if recEnd ≥ off then wsub recEnd off else 0)
        let name ← body.loadBytes off take
        .ok (name, wadd off take)
  else .ok (old, off)

def ownerIdAt (present has : Bool) (id off recEnd : Nat) : Except Failure (Bool × Nat × Nat) :=
  if present then do
    match ← attempt (vintAt body off recEnd) with
    | some (value, off) => .ok (true, value, off)
    | none => .ok (has, id, off)
  else .ok (has, id, off)

def ownerAt (off recEnd : Nat) (o : Owner) : Except Failure Owner := do
  match ← attempt (vintAt body off recEnd) with
  | none => .ok o
  | some (flags, off) => do
      let probe := do
        let probeOff ← ownerProbeAt body (hasFlag flags 0x0001) off recEnd
        ownerProbeAt body (hasFlag flags 0x0002) probeOff recEnd
      match ← attempt probe with
      | none => .ok { o with hasOwner := false }
      | some _ => do
          let (user, off) ← ownerNameAt body (hasFlag flags 0x0001) off recEnd o.user
          let (group, off) ← ownerNameAt body (hasFlag flags 0x0002) off recEnd o.group
          let (hasUid, uid, off) ←
            ownerIdAt body (hasFlag flags 0x0004) o.hasUid o.uid off recEnd
          let (hasGid, gid, _) ←
            ownerIdAt body (hasFlag flags 0x0008) o.hasGid o.gid off recEnd
          .ok
            { hasOwner := true
              user := user
              group := group
              uid := uid
              gid := gid
              hasUid := hasUid
              hasGid := hasGid }

def xattrEntriesAt (recEnd : Nat) :
    Nat → Nat → List FileXattr → Except Failure (List FileXattr)
  | 0, xoff, parsed => do
      demand (xoff = recEnd)
      .ok parsed
  | count + 1, xoff, parsed => do
      let (nlen, xoff) ← vintAt body xoff recEnd
      demand (¬ (nlen = 0 ∨ nlen > xattrNameMax))
      demand (¬ nlen > wsub recEnd xoff)
      let name ← body.loadBytes xoff nlen
      let (vlen, xoff) ← vintAt body (wadd xoff nlen) recEnd
      demand (¬ vlen > xattrValueMax)
      demand (¬ vlen > wsub recEnd xoff)
      let value ← body.loadBytes xoff vlen
      demand (name ∉ parsed.map FileXattr.name)
      xattrEntriesAt recEnd count (wadd xoff vlen) (parsed ++ [⟨name, value⟩])

def xattrsAt (off recEnd : Nat) : Except Failure (List FileXattr) := do
  let (flags, xoff) ← vintAt body off recEnd
  demand (flags = 0)
  let (count, xoff) ← vintAt body xoff recEnd
  demand (¬ count > wsub recEnd xoff / 3)
  xattrEntriesAt body recEnd count xoff []

/-- A record kept as it was read, from its size on. -/
def unknownAt (type : UInt8) (oldOff recEnd : Nat) (b : FileBlock) :
    Except Failure (FileBlock × Nat) := do
  let raw ← body.loadBytes oldOff (wsub recEnd oldOff)
  .ok ({ b with unknownExtras := b.unknownExtras ++ [⟨type, raw⟩] }, recEnd)

/-- One record of a file header; `oldOff` is where its size stands. -/
def recordAt (recSize : Nat) (type : UInt8) (oldOff off recEnd : Nat) (b : FileBlock) :
    Except Failure (FileBlock × Nat) :=
  if type = fhextraHash ∧ recSize ≥ 34 then do
    let b ← hashAt body off recEnd b
    .ok (b, recEnd)
  else if type = fhextraCrypt then do
    let crypt ← cryptAt body off recEnd b.crypt
    .ok ({ b with crypt := crypt }, recEnd)
  else if type = fhextraRedir ∨ type = 0x04 then do
    let b ← versionOrRedirAt body off recEnd b
    .ok (b, recEnd)
  else if type = fhextraHtime then do
    let times ← htimeAt body off recEnd b.times
    .ok ({ b with times := times }, recEnd)
  else if type = fhextraSubdata then subdataAt body off recEnd body.size b
  else if type = fhextraOwner then do
    let owner ← ownerAt body off recEnd b.owner
    .ok ({ b with owner := owner }, recEnd)
  else if type = fhextraXattr then do
    match ← attempt (xattrsAt body off recEnd) with
    | some xattrs => .ok ({ b with xattrs := b.xattrs ++ xattrs }, recEnd)
    | none => unknownAt body type oldOff recEnd b
  else unknownAt body type oldOff recEnd b

/-! ## The fixed fields of a file header -/

def packSizeAt (flags off : Nat) : Except Failure (Int × Nat) :=
  if hasFlag flags hflData then do
    let (size, off) ← vintAt body off body.size
    demand (¬ size > 2 ^ 63 - 1)
    .ok ((size : Int), off)
  else .ok (-1, off)

/-- The fixed fields: the block they give, whether an extra area is announced and its size,
and the offset behind the name. -/
def parseFixedAt : Except Failure (FileBlock × Bool × Nat × Nat) := do
  let (type, off) ← vintAt body 0 body.size
  demand (¬ (type ≠ headFile ∧ type ≠ headService))
  let (flags, off) ← vintAt body off body.size
  let (extraSize, off) ← vintIfAt body (hasFlag flags hflExtra) off body.size
  let (packSize, off) ← packSizeAt body flags off
  let (fileFlags, off) ← vintAt body off body.size
  let (unpSize, off) ← vintAt body off body.size
  let (attributes, off) ← vintAt body off body.size
  let (utimeUnix, off) ← le32IfAt body (hasFlag fileFlags fhflUtime) off body.size
  let (dataCrc32, off) ← le32IfAt body (hasFlag fileFlags fhflCrc32) off body.size
  let (compInfo, off) ← vintAt body off body.size
  let (hostOs, off) ← vintAt body off body.size
  let (nameLen, off) ← vintAt body off body.size
  demand (¬ nameLen > wsub body.size off)
  let fileName ← body.loadBytes off nameLen
  .ok
    ({ isService := type = headService
       serviceType := if type = headService then fileName else []
       fileFlags := fileFlags
       unpSize := unpSize
       unpUnknown := hasFlag fileFlags fhflUnpUnknown
       packSize := packSize
       attributes := attributes
       utimeUnix := utimeUnix
       hasCrc32 := hasFlag fileFlags fhflCrc32
       dataCrc32 := dataCrc32
       comp := decodeCompInfo compInfo
       hostOs := hostOs % 2 ^ 32
       fileName := fileName },
      hasFlag flags hflExtra, extraSize, wadd off nameLen)

/-- `parse_file_header` -/
def parseFileHeaderAt : Except Failure FileBlock := do
  let (b, hasExtra, extraSize, off) ← parseFixedAt body
  areaAt body (recordAt body) hasExtra extraSize off b

end Indexed

end HeaderReader
end OpenRar.Format
