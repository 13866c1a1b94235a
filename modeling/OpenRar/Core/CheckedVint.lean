import OpenRar.Core.Vint
import OpenRar.Foundation.CheckedReads

/-!
# Reading integers through offsets

`read_vint` and the little-endian reads of `core/types.hpp` on a buffer and an offset.  The
size that `read_vint` is given need not be true of the buffer; the loop reads as far as that
size and ten bytes let it, and every byte is a checked read.

`Window.vintAt` is what callers use: between an offset and an end that lie in the buffer,
reading through the offset is reading from the front of the bytes between them.
-/

namespace OpenRar
namespace Core

open CheckedReads

/-- The loop of `read_vint`: the value, if there is one, and the number of bytes read. -/
def readVintAtLoop (buf : Buffer) :
    Nat → Nat → Nat → Nat → Nat → Nat → Except Failure (Option Nat × Nat)
  | 0, _, _, _, _, count => .ok (none, count)
  | _ + 1, _, 0, _, _, count => .ok (none, count)
  | fuel + 1, off, size + 1, shift, value, count => do
      let b ← buf.load off
      if shift = 63 ∧ b.toNat &&& 0x7E ≠ 0 then .ok (none, count + 1)
      else
        let group := if shift = 63 then b.toNat &&& 0x01 else b.toNat &&& 0x7F
        let value := value ||| group <<< shift
        if b.toNat &&& 0x80 = 0 then .ok (some value, count + 1)
        else readVintAtLoop buf fuel (off + 1) size (shift + 7) value (count + 1)

/-- `read_vint(data + off, size, value, bytes_read)` -/
def readVintAt (buf : Buffer) (off size : Nat) : Except Failure (Option Nat × Nat) :=
  readVintAtLoop buf maxVintSize off size 0 0 0

/-- `read_vint` up to `stop`, with the offset behind the integer; the caller gives up when
there is none. -/
def vintAt (buf : Buffer) (off stop : Nat) : Except Failure (Nat × Nat) := do
  let (value, count) ← readVintAt buf off (wsub stop off)
  match value with
  | some v => .ok (v, wadd off count)
  | none => .error .refused

/-- `read_le32` and `read_le64` -/
def readLeAt (buf : Buffer) (width off : Nat) : Except Failure Nat := do
  let bytes ← buf.loadBytes off width
  .ok (readLe bytes)

/-! ## Agreement with reading from the front -/

theorem readVintAtLoop_spec {buf : Buffer} {stop : Nat} (fuel shift value count : Nat) {off : Nat}
    {data : List UInt8} (h : Window buf off stop data) :
    (readVintLoop fuel shift value data = none ∧
        ∃ n, readVintAtLoop buf fuel off data.length shift value count = .ok (none, n)) ∨
      ∃ v rest n, readVintLoop fuel shift value data = some (v, rest) ∧
        readVintAtLoop buf fuel off data.length shift value count = .ok (some v, count + n) ∧
        Window buf (off + n) stop rest := by
  induction fuel generalizing off shift value count data with
  | zero => exact Or.inl ⟨by rw [readVintLoop], _, by rw [readVintAtLoop]⟩
  | succ fuel ih =>
    cases data with
    | nil => exact Or.inl ⟨by rw [readVintLoop], _, by rw [List.length_nil, readVintAtLoop]⟩
    | cons b rest =>
      obtain ⟨hload, hrest⟩ := h.load
      have hstep : readVintAtLoop buf (fuel + 1) off (b :: rest).length shift value count =
          if shift = 63 ∧ b.toNat &&& 0x7E ≠ 0 then .ok (none, count + 1)
          else
            let group := if shift = 63 then b.toNat &&& 0x01 else b.toNat &&& 0x7F
            let value := value ||| group <<< shift
            if b.toNat &&& 0x80 = 0 then .ok (some value, count + 1)
            else readVintAtLoop buf fuel (off + 1) rest.length (shift + 7) value (count + 1) := by
        rw [List.length_cons, readVintAtLoop, hload]
        rfl
      rw [readVintLoop, hstep]
      dsimp only
      split
      · exact Or.inl ⟨rfl, _, rfl⟩
      · split
        · exact Or.inr ⟨_, _, 1, rfl, rfl, hrest⟩
        · -- the rest of the loop, with the count and the offset one further
          rcases ih (shift + 7) _ (count + 1) hrest with
            ⟨hnone, n, hread⟩ | ⟨v, rest', n, hsome, hread, hwindow⟩
          · exact Or.inl ⟨hnone, n, hread⟩
          · refine Or.inr ⟨v, rest', n + 1, hsome, ?_, ?_⟩
            · rw [hread, Nat.add_right_comm, Nat.add_assoc]
            · rwa [Nat.add_right_comm, Nat.add_assoc] at hwindow

end Core

namespace CheckedReads

open OpenRar.Core

namespace Window

variable {buf : Buffer} {off stop : Nat} {data : List UInt8}

section

variable (h : Window buf off stop data)
include h

theorem readVintAt :
    (readVint data = none ∧ ∃ n, Core.readVintAt buf off data.length = .ok (none, n)) ∨
      ∃ v rest n, readVint data = some (v, rest) ∧
        Core.readVintAt buf off data.length = .ok (some v, n) ∧ Window buf (off + n) stop rest := by
  have hloop := readVintAtLoop_spec maxVintSize 0 0 0 h
  simp only [Nat.zero_add] at hloop
  exact hloop

theorem vintAt : Agrees (At buf stop) (Core.vintAt buf off stop) (readVint data) := by
  rw [Core.vintAt, h.wsub_eq]
  rcases h.readVintAt with ⟨hnone, n, hread⟩ | ⟨v, rest, n, hsome, hread, hwindow⟩
  · rw [hread, hnone]
    rfl
  · rw [hread, hsome]
    refine ⟨(v, wadd off n), rfl, rfl, ?_⟩
    rw [h.wadd_eq (by have := hwindow.lt; omega)]
    exact hwindow

/-- Between an offset and an end in the buffer an integer is read, or there is none. -/
theorem safe_vintAt :
    Safe (fun r => off < r.2 ∧ r.2 ≤ stop ∧ r.1 < 2 ^ 64) (Core.vintAt buf off stop) := by
  have hread := h.vintAt
  cases hvint : readVint data with
  | none =>
    rw [hvint] at hread
    rw [show Core.vintAt buf off stop = .error .refused from hread]
    rfl
  | some r =>
    rw [hvint] at hread
    obtain ⟨⟨v, next⟩, hnext, hv, hwindow⟩ := hread
    have hless := readVint_length hvint
    have hlen := h.length
    have hrest := hwindow.length
    have hstop := hwindow.off_le
    rw [hnext]
    obtain rfl : v = r.1 := hv
    refine ⟨?_, hstop, readVint_lt hvint⟩
    omega

theorem readLeAt {width : Nat} (hwidth : width ≤ data.length) :
    Core.readLeAt buf width off = .ok (readLe (data.take width)) := by
  rw [Core.readLeAt, h.loadBytes hwidth]
  rfl

end

end Window
end CheckedReads
end OpenRar
