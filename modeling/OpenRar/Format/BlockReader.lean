import OpenRar.Crypto.Checksums
import OpenRar.Format.HeaderReader

/-!
# Reading blocks

`HeaderReader::read_block_raw` on a stream without encryption, and `parse_main_header`.
A stream is the list of the bytes from its position on; a reader returns what is left,
so that the position after it is the difference of the lengths.
-/

namespace OpenRar.Format

open OpenRar.Core
open OpenRar.Crypto

/-- `HEAD_MAIN` -/
def headMain : Nat := 1
/-- `HEAD_ENDARC` -/
def headEndArc : Nat := 5
/-- `MHFL_VOLNUMBER` -/
def mhflVolNumber : Nat := 0x0002
/-- `MHEXTRA_LOCATOR` -/
def mhextraLocator : UInt8 := 0x01
/-- `MHEXTRA_METADATA` -/
def mhextraMetadata : UInt8 := 0x02

/-- The results of `HeaderResult` other than `Ok`. -/
inductive HeaderFailure where
  | eof
  | error
  | headerCrcMismatch
deriving DecidableEq

/-- What `read_block_raw` returns. -/
structure RawBlock where
  type : Nat
  flags : Nat
  body : List UInt8
  dataSize : Nat
deriving DecidableEq

/-- `MainBlock`; an offset of the locator that is absent is `-1`. -/
structure MainBlock where
  arcFlags : Nat := 0
  volNumber : Nat := 0
  hasLocator : Bool := false
  locatorQoOffset : Int := -1
  locatorRrOffset : Int := -1
  hasMetadata : Bool := false
  metadataName : List UInt8 := []
  metadataCtime : Nat := 0
  metadataIsUnixTime : Bool := false
  metadataIsNanoseconds : Bool := false
deriving DecidableEq

namespace HeaderReader

/-! ## One block -/

/-- The bytes up to the first one without a continuation bit. -/
def vintBytes : List UInt8 → Option (List UInt8)
  | [] => none
  | b :: rest => if b.toNat &&& 0x80 = 0 then some [b] else (vintBytes rest).map (b :: ·)

/-- `parse_block_fields` -/
def parseBlockFields (body : List UInt8) : Option RawBlock := do
  let (type, data) ← readVint body
  let (flags, data) ← readVint data
  let (_, data) ← readIf (hasFlag flags hflExtra) 0 readVint data
  let (dataSize, _) ← readIf (hasFlag flags hflData) 0 readVint data
  some { type := type, flags := flags, body := body, dataSize := dataSize }

/-- The part of `read_block_raw` behind the size field `size` of the block. -/
def readBody (expectedCrc : Nat) (size data : List UInt8) :
    Except HeaderFailure (RawBlock × List UInt8) :=
  match readVint size with
  | none => .error .error
  | some (bodySize, _) =>
    -- The header of a block has at most 2 MiB.
    if bodySize > 2 * 1024 * 1024 then .error .error
    else if data.length < bodySize then .error .error
    else if (crc32From (crc32From 0#32 size) (data.take bodySize)).toNat ≠ expectedCrc then
      .error .headerCrcMismatch
    else
      match parseBlockFields (data.take bodySize) with
      | none => .error .error
      | some block => .ok (block, data.drop bodySize)

/-- `read_block_raw` on a stream without header encryption. -/
def readBlockRaw (src : List UInt8) : Except HeaderFailure (RawBlock × List UInt8) :=
  if src.length = 0 then .error .eof
  else if src.length < 4 then .error .error
  else
    let data := src.drop 4
    -- The size field is looked for in a prefix of ten bytes; what was read behind it is
    -- given back to the stream.
    match vintBytes (data.take 10) with
    | none => .error .error
    | some size => readBody (readLe (src.take 4)) size (data.drop size.length)

/-! ## The main header -/

/-- An offset of the locator: zero stands for an absent one. -/
def locatorOffset (value : Nat) : Int :=
  if value ≠ 0 ∧ value ≤ 2 ^ 63 - 1 then value else -1

def parseLocator (payload : List UInt8) (m : MainBlock) : MainBlock :=
  let m := { m with hasLocator := true }
  match readVint payload with
  | none => m
  | some (flags, data) =>
    let (m, data) :=
      if hasFlag flags 0x01 then
        match readVint data with
        | some (offset, data) => ({ m with locatorQoOffset := locatorOffset offset }, data)
        | none => (m, data)
      else (m, data)
    if hasFlag flags 0x02 then
      match readVint data with
      | some (offset, _) => { m with locatorRrOffset := locatorOffset offset }
      | none => m
    else m

/-- The name of the metadata record, cut at its first zero byte. -/
def parseMetadataName (data : List UInt8) (m : MainBlock) : MainBlock × List UInt8 :=
  match readVint data with
  | none => (m, data)
  | some (len, data) =>
    if len ≤ data.length then
      ({ m with metadataName := (data.take len).takeWhile (· ≠ 0) }, data.drop len)
    else (m, data)

def parseMetadataTime (data : List UInt8) (m : MainBlock) : MainBlock :=
  let width := if m.metadataIsUnixTime ∧ ¬ m.metadataIsNanoseconds then 4 else 8
  if width ≤ data.length then { m with metadataCtime := readLe (data.take width) } else m

def parseMetadata (payload : List UInt8) (m : MainBlock) : MainBlock :=
  match readVint payload with
  | none => m
  | some (flags, data) =>
    let m :=
      { m with
        hasMetadata := true
        metadataIsUnixTime := hasFlag flags 0x04
        metadataIsNanoseconds := hasFlag flags 0x08 }
    let (m, data) := if hasFlag flags 0x01 then parseMetadataName data m else (m, data)
    if hasFlag flags 0x02 then parseMetadataTime data m else m

/-- The loop over the records of the main header's extra area. -/
def parseMainExtras : Nat → List UInt8 → MainBlock → MainBlock
  | 0, _, m => m
  | fuel + 1, area, m =>
    match readVint area with
    | none => m
    | some (recSize, data) =>
      if recSize < 1 then m
      else
        match data.take recSize with
        | [] => m
        | type :: payload =>
          let m :=
            if type = mhextraLocator ∧ recSize ≥ 2 then parseLocator payload m
            else if type = mhextraMetadata then parseMetadata payload m
            else m
          parseMainExtras fuel (data.drop recSize) m

/-- `parse_main_header` -/
def parseMainHeader (body : List UInt8) : Option MainBlock := do
  let (type, data) ← readVint body
  if type ≠ headMain then none
  else
    let (flags, data) ← readVint data
    let (extraSize, data) ← readIf (hasFlag flags hflExtra) 0 readVint data
    let (arcFlags, data) ← readVint data
    let (volNumber, data) ← readIf (hasFlag arcFlags mhflVolNumber) 0 readVint data
    let m : MainBlock := { arcFlags := arcFlags, volNumber := volNumber }
    if extraSize > 0 then
      if extraSize > data.length then none
      else some (parseMainExtras extraSize (data.drop (data.length - extraSize)) m)
    else some m

end HeaderReader
end OpenRar.Format
