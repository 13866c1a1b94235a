import OpenRar.Foundation.BitString

/-!
# The bit reader

Embedding of `BitReader` of `compress/decompressor50.cpp`: most significant bit
first, zero bits past the end of the input, and a sticky flag that records that
such padding was consumed.

The reader is given by the bits that are still unread.  The source keeps some of
them in a 64-bit accumulator and the others in the byte buffer; every request is
answered from the accumulator followed by the buffer, so the split is not part of
the state here.
-/

namespace OpenRar.Compress

open List BitString

/-- `BitReader`: the unread bits, the number of consumed ones, and the padding
flag. -/
structure BitReader where
  bits : List Bool
  consumed : Nat
  truncated : Bool
  deriving DecidableEq, Repr

namespace BitReader

/-- The reader over a byte buffer. -/
def ofBytes (data : List UInt8) : BitReader :=
  ⟨BitString.ofBytes data, 0, false⟩

variable (reader : BitReader)

/-- `bits_remaining` -/
def bitsRemaining : Nat :=
  reader.bits.length

/-- `byte_pos` -/
def bytePos : Nat :=
  reader.consumed / 8

/-- The next `count` bits, padded with zeros. -/
def window (count : Nat) : Nat :=
  toNat (reader.bits.take count) * 2 ^ (count - reader.bits.length)

/-- `peek_bits` -/
def peekBits (count : Nat) : Nat :=
  reader.window (min count 32)

/-- `consume_bits` -/
def consumeBits (count : Nat) : BitReader :=
  if count ≤ reader.bits.length then
    { reader with bits := reader.bits.drop count, consumed := reader.consumed + count }
  else ⟨[], reader.consumed + reader.bits.length, true⟩

/-- `get_bits` -/
def getBits (count : Nat) : Nat × BitReader :=
  (reader.peekBits count, reader.consumeBits (min count 32))

/-- `get_bits64` -/
def getBits64 (count : Nat) : Nat × BitReader :=
  (reader.window (min count 64), reader.consumeBits (min count 64))

/-- `align_byte` -/
def alignByte : BitReader :=
  if reader.consumed % 8 ≠ 0 then reader.consumeBits (8 - reader.consumed % 8) else reader

section Prefix

variable (pre rest : List Bool) (consumed : Nat) (truncated : Bool)

section

variable {count : Nat} (hlen : pre.length = count)
include hlen

theorem window_append :
    (BitReader.mk (pre ++ rest) consumed truncated).window count = toNat pre := by
  subst hlen
  simp [window]

theorem consumeBits_append : (BitReader.mk (pre ++ rest) consumed truncated).consumeBits count
      = ⟨rest, consumed + count, truncated⟩ := by
  subst hlen
  simp [consumeBits]

/-- A field that is there is read in full. -/
theorem getBits_append (hcount : count ≤ 32) :
    (BitReader.mk (pre ++ rest) consumed truncated).getBits count
      = (toNat pre, ⟨rest, consumed + count, truncated⟩) := by
  rw [getBits, peekBits, Nat.min_eq_left hcount, window_append pre rest _ _ hlen,
    consumeBits_append pre rest _ _ hlen]

end

/-- A number written in `width` bits is read back. -/
theorem getBits_ofNat {width n : Nat} (hwidth : width ≤ 32) (hn : n < 2 ^ width) :
    (BitReader.mk (ofNat width n ++ rest) consumed truncated).getBits width
      = (n, ⟨rest, consumed + width, truncated⟩) := by
  rw [getBits_append _ _ _ _ (ofNat_length _ _) hwidth, toNat_ofNat hn]

end Prefix

/-- The top bits of a window are the bits the input starts with. -/
theorem window_div {reader : BitReader} {pre rest : List Bool} {count : Nat}
    (hbits : reader.bits = pre ++ rest) (hlen : pre.length ≤ count) :
    reader.window count / 2 ^ (count - pre.length) = toNat pre := by
  have hval : reader.window count
      = toNat (reader.bits.take count
          ++ List.replicate (count - reader.bits.length) false) := by
    rw [toNat_append, toNat_replicate_false, length_replicate, window,
      Nat.add_zero]
  have hpad : (reader.bits.take count
      ++ List.replicate (count - reader.bits.length) false).length = count := by
    simp
    omega
  have htake : (reader.bits.take count
      ++ List.replicate (count - reader.bits.length) false).take pre.length = pre := by
    rw [take_append_of_le_length (by rw [hbits]; simp; omega), take_take,
      Nat.min_eq_left hlen, hbits, take_left]
  rw [hval, ← htake, toNat_take, hpad, htake]

end BitReader

end OpenRar.Compress
