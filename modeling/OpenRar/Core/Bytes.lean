import Mathlib

/-!
# Little-endian fields and the size type

`core/types.hpp` reads and writes fixed-width integers byte by byte, least
significant byte first.  Both directions are defined on byte lists for any width;
the widths of the source are applications of the same two functions.
-/

namespace OpenRar.Core

/-- `SIZE_MAX` of a 64-bit target. -/
def sizeMax : Nat := 2 ^ 64 - 1

/-- The value of a little-endian byte string. -/
def readLe : List UInt8 → Nat
  | [] => 0
  | b :: bytes => b.toNat + 256 * readLe bytes

/-- The `width` low bytes of `n`, least significant first. -/
def writeLe : Nat → Nat → List UInt8
  | 0, _ => []
  | width + 1, n => UInt8.ofNat (n % 256) :: writeLe width (n / 256)

@[simp]
theorem writeLe_length (width n : Nat) : (writeLe width n).length = width := by
  induction width generalizing n with
  | zero => rfl
  | succ width ih => simp [writeLe, ih]

theorem readLe_lt (bytes : List UInt8) : readLe bytes < 256 ^ bytes.length := by
  induction bytes with
  | nil => simp [readLe]
  | cons b bytes ih =>
    have hb := b.toNat_lt
    rw [readLe, List.length_cons, pow_succ]
    omega

theorem readLe_writeLe (width n : Nat) : readLe (writeLe width n) = n % 256 ^ width := by
  induction width generalizing n with
  | zero => simp [writeLe, readLe, Nat.mod_one]
  | succ width ih =>
    have hb : (UInt8.ofNat (n % 256)).toNat = n % 256 := by
      rw [UInt8.toNat_ofNat_of_lt' (Nat.mod_lt _ (by decide))]
    rw [writeLe, readLe, ih, hb, pow_succ, Nat.mul_comm (256 ^ width), Nat.mod_mul]

theorem writeLe_readLe (bytes : List UInt8) : writeLe bytes.length (readLe bytes) = bytes := by
  induction bytes with
  | nil => rfl
  | cons b bytes ih =>
    have hb := b.toNat_lt
    have hlow : (b.toNat + 256 * readLe bytes) % 256 = b.toNat := by omega
    have hhigh : (b.toNat + 256 * readLe bytes) / 256 = readLe bytes := by omega
    rw [List.length_cons, writeLe, readLe, hlow, hhigh, ih]
    simp

theorem writeLe_mod (width n : Nat) : writeLe width (n % 256 ^ width) = writeLe width n := by
  rw [← readLe_writeLe]
  conv_lhs => arg 1; rw [← writeLe_length width n]
  exact writeLe_readLe _

/-- A value with the field's low bytes is written as the field. -/
theorem writeLe_eq_of_mod {bytes : List UInt8} {width n : Nat} (hlen : bytes.length = width)
    (hn : n % 256 ^ width = readLe bytes) : writeLe width n = bytes := by
  rw [← writeLe_mod, hn, ← hlen, writeLe_readLe]

end OpenRar.Core
