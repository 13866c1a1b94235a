import OpenRar.Core.Bytes

/-!
# Cyclic checksums

`crypto/crc32.cpp` and `crypto/crc64.cpp` keep a reflected remainder and take a byte at
a time from a table of 256 words.  Both are one function of the width and the
polynomial.  Their eight-byte loops and the vector kernels read the same table eight
times over; the model is the loop over single bytes.
-/

namespace OpenRar.Crypto

section Remainder

variable {w : Nat} (poly : BitVec w)

/-- One of the eight shifts behind a word of the table. -/
def crcShift (crc : BitVec w) : BitVec w :=
  if crc.getLsbD 0 then poly ^^^ (crc >>> 1) else crc >>> 1

/-- The word of the table for the low byte `i`. -/
def crcTable (i : BitVec w) : BitVec w := Nat.iterate (crcShift poly) 8 i

def crcByte (crc : BitVec w) (b : UInt8) : BitVec w :=
  crcTable poly ((crc ^^^ BitVec.ofNat w b.toNat) &&& 0xFF#w) ^^^ (crc >>> 8)

/-- The remainder after all bytes of `data`. -/
def crcUpdate (crc : BitVec w) (data : List UInt8) : BitVec w := data.foldl (crcByte poly) crc

/-- Bytes that arrive in two calls count as one string. -/
theorem crcUpdate_append (crc : BitVec w) (first second : List UInt8) :
    crcUpdate poly crc (first ++ second) = crcUpdate poly (crcUpdate poly crc first) second :=
  List.foldl_append

end Remainder

/-- `crc32` with the start value `init`; `Crc32::update` passes the value it holds. -/
def crc32From (init : BitVec 32) (data : List UInt8) : BitVec 32 :=
  ~~~ crcUpdate 0xEDB88320#32 (~~~ init) data

/-- The checksum of a string is carried over from one `Crc32::update` to the next. -/
theorem crc32From_append (init : BitVec 32) (first second : List UInt8) :
    crc32From init (first ++ second) = crc32From (crc32From init first) second := by
  simp [crc32From, crcUpdate_append]

/-- `crc32` of a whole buffer. -/
def crc32 (data : List UInt8) : Nat := (crc32From 0#32 data).toNat

/-- The polynomial of both 64-bit checksums. -/
def crc64Poly : BitVec 64 := 0xC96C5795D7870F42#64

/-- `Crc64Xz::compute` -/
def crc64Xz (data : List UInt8) : Nat :=
  (~~~ crcUpdate crc64Poly (BitVec.allOnes 64) data).toNat

/-- `RawCrc64::compute`: neither a start value nor a final complement. -/
def rawCrc64 (data : List UInt8) : Nat := (crcUpdate crc64Poly 0#64 data).toNat

end OpenRar.Crypto
