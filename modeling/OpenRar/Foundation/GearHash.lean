import Mathlib.Data.UInt
import Mathlib.Algebra.Order.Ring.Nat
import Mathlib.Tactic.Ring

/-!
# The Gear hash

A rolling hash of 64 bits: each symbol doubles the hash and adds the entry of a table.  A
symbol has left the word after 64 doublings, so the hash is one of the last 64 symbols
alone, whatever it was before.
-/

namespace OpenRar.GearHash

open List

variable {β : Type*} (table : β → UInt64)

/-- One symbol. -/
def roll (h : UInt64) (b : β) : UInt64 := (h <<< 1) + table b

/-- The hash after some symbols. -/
def gearHash (h : UInt64) (bytes : List β) : UInt64 := bytes.foldl (roll table) h

section

variable (h : UInt64)
include h

@[simp] theorem gearHash_nil : gearHash table h [] = h := rfl

@[simp] theorem gearHash_cons (b : β) (bytes : List β) :
    gearHash table h (b :: bytes) = gearHash table (roll table h b) bytes := rfl

theorem gearHash_append (xs ys : List β) :
    gearHash table h (xs ++ ys) = gearHash table (gearHash table h xs) ys :=
  foldl_append

theorem gearHash_concat (xs : List β) (b : β) :
    gearHash table h (xs ++ [b]) = roll table (gearHash table h xs) b :=
  gearHash_append table h xs [b]

theorem roll_toNat (b : β) : (roll table h b).toNat = (2 * h.toNat + (table b).toNat) % 2 ^ 64 := by
  unfold roll
  rw [UInt64.toNat_add, UInt64.toNat_shiftLeft]
  simp only [UInt64.reduceToNat, Nat.reduceMod]
  omega

/-- The start contributes by its doublings alone. -/
theorem gearHash_toNat (bytes : List β) : (gearHash table h bytes).toNat
      = (h.toNat * 2 ^ bytes.length + (gearHash table 0 bytes).toNat) % 2 ^ 64 := by
  -- Induction from the back: the last symbol doubles both contributions.
  induction bytes using List.reverseRecOn with
  | nil =>
    simp
  | append_singleton xs b ih =>
    rw [gearHash_concat, gearHash_concat, roll_toNat, roll_toNat, ih, length_append,
      length_singleton]
    have hdouble : h.toNat * 2 ^ (xs.length + 1) = 2 * (h.toNat * 2 ^ xs.length) := by
      ring
    rw [hdouble]
    omega

variable {bytes : List β}

/-- **After 64 symbols the start is forgotten.** -/
theorem gearHash_forget (hlen : 64 ≤ bytes.length) :
    gearHash table h bytes = gearHash table 0 bytes := by
  apply UInt64.toNat_inj.mp
  have hlt := (gearHash table 0 bytes).toNat_lt
  obtain ⟨k, hk⟩ := Nat.exists_eq_add_of_le hlen
  rw [gearHash_toNat, hk, pow_add, ← Nat.mul_assoc, Nat.mul_comm h.toNat, Nat.mul_assoc,
    Nat.mul_add_mod]
  exact Nat.mod_eq_of_lt hlt

/-- The hash is that of the last symbols, if there are at least 64. -/
theorem gearHash_drop {k : Nat} (hk : 64 ≤ bytes.length - k) :
    gearHash table h bytes = gearHash table 0 (bytes.drop k) := by
  conv_lhs => rw [← take_append_drop k bytes]
  rw [gearHash_append]
  exact gearHash_forget table _ (by rw [length_drop]; exact hk)

/-- After 63 symbols one more doubling forgets the start. -/
theorem roll_forget (hlen : 63 ≤ bytes.length) (b : β) :
    roll table (gearHash table h bytes) b = roll table (gearHash table 0 bytes) b := by
  rw [← gearHash_concat, ← gearHash_concat]
  apply gearHash_forget
  rw [length_append, length_singleton]
  omega

end

end OpenRar.GearHash
