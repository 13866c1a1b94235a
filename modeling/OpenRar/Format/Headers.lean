import OpenRar.Core.Vint

/-!
# File headers

The model of a file header, `FileBlock` of `format/headers.hpp`, with the constants
that the writer and the reader share.  The fields are grouped by the record that
carries them; an array of fixed size is a list with its length.
-/

namespace OpenRar.Format

open OpenRar.Core List

/-- `std::array<byte, n>` -/
structure ByteArrayOf (n : Nat) where
  bytes : List UInt8
  size : bytes.length = n
deriving DecidableEq

namespace ByteArrayOf

def zero (n : Nat) : ByteArrayOf n := ⟨List.replicate n 0, length_replicate⟩

instance (n : Nat) : Inhabited (ByteArrayOf n) := ⟨zero n⟩

/-- The first `n` bytes of a field that is long enough, and what follows them. -/
def read (n : Nat) (data : List UInt8) : Option (ByteArrayOf n × List UInt8) :=
  if h : n ≤ data.length then some (⟨data.take n, length_take_of_le h⟩, data.drop n) else none

theorem read_append {n : Nat} (bytes : ByteArrayOf n) (rest : List UInt8) :
    read n (bytes.bytes ++ rest) = some (bytes, rest) := by
  obtain ⟨bytes, rfl⟩ := bytes
  have hfits : bytes.length ≤ (bytes ++ rest).length := by
    rw [length_append]
    exact Nat.le_add_right _ _
  rw [read, dif_pos hfits]
  simp

end ByteArrayOf

/-! ## Constants -/

/-- A test `flags & mask`. -/
def hasFlag (flags mask : Nat) : Bool := flags &&& mask ≠ 0

/-- `HEAD_FILE` -/
def headFile : Nat := 2
/-- `HEAD_SERVICE` -/
def headService : Nat := 3

/-- `HFL_EXTRA` -/
def hflExtra : Nat := 0x0001
/-- `HFL_DATA` -/
def hflData : Nat := 0x0002
/-- `HFL_SPLITBEFORE` -/
def hflSplitBefore : Nat := 0x0008
/-- `HFL_SPLITAFTER` -/
def hflSplitAfter : Nat := 0x0010
/-- `HFL_CHILD` -/
def hflChild : Nat := 0x0020
/-- `HFL_INHERITED` -/
def hflInherited : Nat := 0x0040

/-- `FHFL_DIRECTORY` -/
def fhflDirectory : Nat := 0x0001
/-- `FHFL_UTIME` -/
def fhflUtime : Nat := 0x0002
/-- `FHFL_CRC32` -/
def fhflCrc32 : Nat := 0x0004
/-- `FHFL_UNPUNKNOWN` -/
def fhflUnpUnknown : Nat := 0x0008

/-- `FHEXTRA_CRYPT` -/
def fhextraCrypt : UInt8 := 0x01
/-- `FHEXTRA_HASH` -/
def fhextraHash : UInt8 := 0x02
/-- `FHEXTRA_HTIME` -/
def fhextraHtime : UInt8 := 0x03
/-- `FHEXTRA_VERSION` -/
def fhextraVersion : UInt8 := 0x04
/-- `FHEXTRA_REDIR` -/
def fhextraRedir : UInt8 := 0x05
/-- `FHEXTRA_OWNER` -/
def fhextraOwner : UInt8 := 0x06
/-- `FHEXTRA_SUBDATA` -/
def fhextraSubdata : UInt8 := 0x07
/-- `FHEXTRA_XATTR` -/
def fhextraXattr : UInt8 := 0x08

/-- `FHEXTRA_XATTR_NAME_MAX` -/
def xattrNameMax : Nat := 255
/-- `FHEXTRA_XATTR_VALUE_MAX` -/
def xattrValueMax : Nat := 65536

/-- `RAR_DICT_BASE` -/
def rarDictBase : Nat := 0x20000
/-- `RAR_DICT_MAX_V0` -/
def rarDictMaxV0 : Nat := rarDictBase <<< 15
/-- `RAR_DICT_MAX_V1` -/
def rarDictMaxV1 : Nat := rarDictBase <<< 23
/-- `FCI_RAR5_COMPAT` -/
def fciRar5Compat : Nat := 0x100000

/-! ## The model of a header -/

/-- One of the three time stamps, in both of its precisions. -/
structure Stamp where
  win : Nat := 0
  unix : Nat := 0
  ns : Nat := 0
  hasNs : Bool := false
deriving DecidableEq

/-- The times of `FHEXTRA_HTIME`. -/
structure FileTimes where
  mtime : Stamp := {}
  ctime : Stamp := {}
  atime : Stamp := {}
  isUnix : Bool := false
deriving DecidableEq

/-- The Unix owner of `FHEXTRA_OWNER`. -/
structure Owner where
  hasOwner : Bool := false
  user : List UInt8 := []
  group : List UInt8 := []
  uid : Nat := 0
  gid : Nat := 0
  hasUid : Bool := false
  hasGid : Bool := false
deriving DecidableEq

/-- The fields of the compression information. -/
structure Compression where
  method : Nat := 0
  winSize : Nat := 0
  isSolid : Bool := false
  unpVer : Nat := 0
  extraDist : Bool := false
deriving DecidableEq

/-- The encryption of `FHEXTRA_CRYPT`. -/
structure FileCrypt where
  isEncrypted : Bool := false
  version : Nat := 0
  flags : Nat := 0
  lg2Count : UInt8 := 0
  salt : ByteArrayOf 16 := .zero 16
  initV : ByteArrayOf 16 := .zero 16
  hasPswCheck : Bool := false
  pswCheck : ByteArrayOf 8 := .zero 8
  pswCheckCsum : ByteArrayOf 4 := .zero 4
deriving DecidableEq

/-- The redirection of `FHEXTRA_REDIR`. -/
structure Redirection where
  type : Nat := 0
  dirTarget : Bool := false
  target : List UInt8 := []
deriving DecidableEq

/-- An extended attribute. -/
structure FileXattr where
  name : List UInt8
  value : List UInt8
deriving DecidableEq

/-- A record of a type that is not implemented, kept as it was read. -/
structure UnknownExtra where
  type : UInt8
  raw : List UInt8
deriving DecidableEq

/-- `FileBlock` -/
structure FileBlock where
  isService : Bool := false
  serviceType : List UInt8 := []
  fileFlags : Nat := 0
  unpSize : Nat := 0
  unpUnknown : Bool := false
  packSize : Int := -1
  attributes : Nat := 0
  hasCrc32 : Bool := false
  dataCrc32 : Nat := 0
  hasBlake2sp : Bool := false
  blake2sp : ByteArrayOf 32 := .zero 32
  times : FileTimes := {}
  utimeUnix : Nat := 0
  owner : Owner := {}
  hasFileVersion : Bool := false
  fileVersion : Nat := 0
  comp : Compression := {}
  hostOs : Nat := 0
  fileName : List UInt8 := []
  crypt : FileCrypt := {}
  redir : Redirection := {}
  subData : List UInt8 := []
  xattrs : List FileXattr := []
  unknownExtras : List UnknownExtra := []
deriving DecidableEq

/-! ## Flags -/

theorem hasFlag_two_pow (flags k : Nat) : hasFlag flags (2 ^ k) = flags.testBit k := by
  unfold hasFlag
  rw [Nat.and_two_pow]
  cases flags.testBit k with
  | false => simp
  | true => simp

theorem hasFlag_or (a b mask : Nat) :
    hasFlag (a ||| b) mask = (hasFlag a mask || hasFlag b mask) := by
  unfold hasFlag
  rw [Nat.and_or_distrib_right]
  by_cases ha : a &&& mask = 0
  · simp
  · simp

end OpenRar.Format
