import OpenRar.Format.Headers

/-!
# Writing file headers

Embedding of `HeaderWriter::serialize_file_block`: the optional records in the order in
which they are emitted, then the fixed fields with the flags that announce them.  The
result is the body of the block; the checksum and the size in front of it belong to
`wrap_block`.
-/

namespace OpenRar.Format

open OpenRar.Core

/-! ## Compression information -/

/-- The loop that looks for the power of the dictionary size. -/
def dictLoop (winSize limit : Nat) : Nat → Nat → Nat → Nat × Nat
  | 0, pow2, bits => (pow2, bits)
  | fuel + 1, pow2, bits =>
    if 2 * pow2 ≤ winSize ∧ bits < limit then dictLoop winSize limit fuel (2 * pow2) (bits + 1)
    else (pow2, bits)

/-- The power of the dictionary size and its fraction in 32nds. -/
def dictFields (c : Compression) : Nat × Nat :=
  if c.winSize ≥ 0x20000 then
    let limit := if c.unpVer = 1 then 23 else 15
    let (pow2, bits) := dictLoop c.winSize limit 23 0x20000 0
    if c.unpVer = 1 ∧ c.winSize > pow2 then (bits, min ((c.winSize - pow2) * 32 / pow2) 31)
    else (bits, 0)
  else (0, 0)

/-- The `comp_info` word. -/
def encodeCompInfo (c : Compression) : Nat :=
  (c.unpVer &&& 0x3F) ||| (if c.isSolid then 1 else 0) <<< 6 ||| (c.method &&& 7) <<< 7
    ||| (dictFields c).1 <<< 10 ||| (dictFields c).2 <<< 15
    ||| (if c.unpVer = 1 ∧ ¬ c.extraDist then 1 else 0) <<< 20

namespace HeaderWriter

/-! ## The records of the extra area -/

/-- A record: its size without the size itself, its type and its content. -/
def extraRecord (type : UInt8) (content : List UInt8) : List UInt8 :=
  pushVint (content.length + 1) ++ type :: content

def cryptContent (c : FileCrypt) : List UInt8 :=
  pushVint c.version ++ (pushVint c.flags ++ (c.lg2Count :: (c.salt.bytes ++ (c.initV.bytes ++
    if c.hasPswCheck then c.pswCheck.bytes ++ c.pswCheckCsum.bytes else []))))

def cryptRecord (c : FileCrypt) : List UInt8 :=
  if c.isEncrypted then extraRecord fhextraCrypt (cryptContent c) else []

def redirContent (r : Redirection) : List UInt8 :=
  pushVint r.type ++ (pushVint (if r.dirTarget then 1 else 0) ++
    (pushVint r.target.length ++ r.target))

def redirRecord (r : Redirection) : List UInt8 :=
  if r.type ≠ 0 then extraRecord fhextraRedir (redirContent r) else []

def hashRecord (b : FileBlock) : List UInt8 :=
  if b.hasBlake2sp then pushVint (2 + 32) ++ fhextraHash :: 0 :: b.blake2sp.bytes else []

/-- A stamp is written when it is set in the precision of the record. -/
def stampPresent (isUnix : Bool) (s : Stamp) : Bool :=
  if isUnix then s.unix ≠ 0 || s.hasNs else s.win ≠ 0

def anyStamp (isUnix : Bool) (t : FileTimes) : Bool :=
  stampPresent isUnix t.mtime || stampPresent isUnix t.ctime || stampPresent isUnix t.atime

/-- The precision of the record; a block without times in its own precision falls back
to the other one. -/
def htimeUnix (t : FileTimes) : Bool :=
  if t.isUnix then ¬ (¬ anyStamp true t ∧ t.mtime.win ≠ 0)
  else ¬ anyStamp false t ∧ stampPresent true t.mtime

def htimeNs (t : FileTimes) : Bool :=
  htimeUnix t && (t.mtime.hasNs || t.ctime.hasNs || t.atime.hasNs)

def htimeFlags (t : FileTimes) : Nat :=
  (if htimeUnix t then 0x01 else 0) ||| (if stampPresent (htimeUnix t) t.mtime then 0x02 else 0)
    ||| (if stampPresent (htimeUnix t) t.ctime then 0x04 else 0)
    ||| (if stampPresent (htimeUnix t) t.atime then 0x08 else 0)
    ||| (if htimeNs t then 0x10 else 0)

def stampBytes (isUnix : Bool) (s : Stamp) : List UInt8 :=
  if stampPresent isUnix s then (if isUnix then writeLe 4 s.unix else writeLe 8 s.win) else []

def nsBytes (isUnix : Bool) (s : Stamp) : List UInt8 :=
  if stampPresent isUnix s then writeLe 4 s.ns else []

def htimeContent (t : FileTimes) : List UInt8 :=
  pushVint (htimeFlags t) ++ (stampBytes (htimeUnix t) t.mtime ++
    (stampBytes (htimeUnix t) t.ctime ++ (stampBytes (htimeUnix t) t.atime ++
      if htimeNs t then nsBytes (htimeUnix t) t.mtime ++ (nsBytes (htimeUnix t) t.ctime ++
        nsBytes (htimeUnix t) t.atime)
      else [])))

def htimeRecord (t : FileTimes) : List UInt8 :=
  if anyStamp (htimeUnix t) t then extraRecord fhextraHtime (htimeContent t) else []

def versionRecord (b : FileBlock) : List UInt8 :=
  if b.hasFileVersion then extraRecord fhextraVersion (pushVint 0 ++ pushVint b.fileVersion) else []

/-- Owner names are cut at 255 bytes. -/
def ownerName (name : List UInt8) : List UInt8 :=
  pushVint (min name.length 255) ++ name.take (min name.length 255)

def ownerFlags (o : Owner) : Nat :=
  (if o.user ≠ [] then 0x0001 else 0) ||| (if o.group ≠ [] then 0x0002 else 0)
    ||| (if o.hasUid then 0x0004 else 0) ||| (if o.hasGid then 0x0008 else 0)

def ownerContent (o : Owner) : List UInt8 :=
  pushVint (ownerFlags o) ++ ((if o.user ≠ [] then ownerName o.user else []) ++
    ((if o.group ≠ [] then ownerName o.group else []) ++
      ((if o.hasUid then pushVint o.uid else []) ++ if o.hasGid then pushVint o.gid else [])))

def ownerRecord (o : Owner) : List UInt8 :=
  if o.hasOwner ∨ o.user ≠ [] ∨ o.group ≠ [] ∨ o.hasUid ∨ o.hasGid then
    extraRecord fhextraOwner (ownerContent o)
  else []

def subdataRecord (b : FileBlock) : List UInt8 :=
  if b.isService ∧ b.subData ≠ [] then extraRecord fhextraSubdata b.subData else []

/-- Attributes beyond the limits of the reader are skipped. -/
def xattrEmitted (x : FileXattr) : Bool :=
  x.name ≠ [] ∧ x.name.length ≤ xattrNameMax ∧ x.value.length ≤ xattrValueMax

def xattrEntry (x : FileXattr) : List UInt8 :=
  pushVint x.name.length ++ (x.name ++ (pushVint x.value.length ++ x.value))

def xattrContent (xattrs : List FileXattr) : List UInt8 :=
  pushVint 0 ++ (pushVint xattrs.length ++ xattrs.flatMap xattrEntry)

def xattrRecord (xattrs : List FileXattr) : List UInt8 :=
  if xattrs.filter xattrEmitted ≠ [] then
    extraRecord fhextraXattr (xattrContent (xattrs.filter xattrEmitted))
  else []

/-- The extra area. -/
def extraArea (b : FileBlock) : List UInt8 :=
  cryptRecord b.crypt ++ (redirRecord b.redir ++ (hashRecord b ++ (htimeRecord b.times ++
    (versionRecord b ++ (ownerRecord b.owner ++ (subdataRecord b ++ (xattrRecord b.xattrs ++
      b.unknownExtras.flatMap UnknownExtra.raw)))))))

/-! ## The body -/

/-- `head_flags` -/
def headFlags (b : FileBlock) (extraHeadFlags : Nat) : Nat :=
  (if b.packSize ≥ 0 then hflData else 0) ||| (if extraArea b ≠ [] then hflExtra else 0)
    ||| (extraHeadFlags &&& (hflSplitBefore ||| hflSplitAfter ||| hflChild ||| hflInherited))

/-- `eff_file_flags` -/
def effFileFlags (b : FileBlock) : Nat :=
  b.fileFlags ||| (if b.hasCrc32 then fhflCrc32 else 0)
    ||| (if b.utimeUnix ≠ 0 then fhflUtime else 0)

def packSizeField (b : FileBlock) (fixedPackSizeVint : Bool) : List UInt8 :=
  if b.packSize ≥ 0 then
    if fixedPackSizeVint then pushVintFixed 10 b.packSize.toNat else pushVint b.packSize.toNat
  else []

/-- The body of `serialize_file_block`. -/
def fileBody (b : FileBlock) (extraHeadFlags : Nat) (fixedPackSizeVint : Bool) : List UInt8 :=
  pushVint (if b.isService then headService else headFile)
    ++ (pushVint (headFlags b extraHeadFlags)
    ++ ((if extraArea b ≠ [] then pushVint (extraArea b).length else [])
    ++ (packSizeField b fixedPackSizeVint
    ++ (pushVint (effFileFlags b)
    ++ (pushVint b.unpSize
    ++ (pushVint b.attributes
    ++ ((if hasFlag (effFileFlags b) fhflUtime then writeLe 4 b.utimeUnix else [])
    ++ ((if hasFlag (effFileFlags b) fhflCrc32 then writeLe 4 b.dataCrc32 else [])
    ++ (pushVint (encodeCompInfo b.comp)
    ++ (pushVint b.hostOs
    ++ (pushVint b.fileName.length
    ++ (b.fileName
    ++ extraArea b))))))))))))

end HeaderWriter
end OpenRar.Format
