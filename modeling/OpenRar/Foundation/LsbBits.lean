import OpenRar.Foundation.BitString

/-!
# Bit strings, least significant bit first

The other order of bits: the first bit of a stream is the lowest bit of a byte, and a
number is written with its lowest bit first.  The lists themselves are streams in
reading order, as in `BitString`.
-/

namespace LsbBits

open List

/-- The number that a list of bits writes, least significant bit first. -/
def toNat : List Bool → Nat
  | [] => 0
  | b :: bits => b.toNat + 2 * toNat bits

/-- The `width` low bits of `n`, least significant bit first. -/
def ofNat : Nat → Nat → List Bool
  | 0, _ => []
  | width + 1, n => n.testBit 0 :: ofNat width (n / 2)

@[simp]
theorem ofNat_length (width n : Nat) : (ofNat width n).length = width := by
  induction width generalizing n with
  | zero => rfl
  | succ width ih => simp [ofNat, ih]

@[simp]
theorem toNat_nil : toNat [] = 0 := rfl

theorem testBit_zero_toNat (n : Nat) : (n.testBit 0).toNat = n % 2 := by
  rcases Nat.mod_two_eq_zero_or_one n with h | h <;> simp [h]

theorem toNat_lt (bits : List Bool) : toNat bits < 2 ^ bits.length := by
  induction bits with
  | nil => simp
  | cons b bits ih =>
    have hb := b.toNat_le
    rw [toNat, length_cons, Nat.pow_succ]
    omega

theorem toNat_ofNat (width n : Nat) : toNat (ofNat width n) = n % 2 ^ width := by
  induction width generalizing n with
  | zero => simp [ofNat, Nat.mod_one]
  | succ width ih =>
    rw [ofNat, toNat, ih, testBit_zero_toNat, Nat.pow_succ, Nat.mul_comm (2 ^ width) 2,
      Nat.mod_mul]

variable {width n k : Nat}

theorem toNat_ofNat_of_lt (h : n < 2 ^ width) : toNat (ofNat width n) = n := by
  rw [toNat_ofNat, Nat.mod_eq_of_lt h]

theorem ofNat_toNat (bits : List Bool) : ofNat bits.length (toNat bits) = bits := by
  induction bits with
  | nil => rfl
  | cons b bits ih =>
    have hb : (b.toNat + 2 * toNat bits).testBit 0 = b := by
      cases b <;> simp
    have hrest : (b.toNat + 2 * toNat bits) / 2 = toNat bits := by
      have hle := b.toNat_le
      omega
    rw [toNat, length_cons, ofNat, hb, hrest, ih]

/-- Bits of equal length are determined by their number. -/
theorem eq_of_toNat_eq {xs ys : List Bool} (hlen : xs.length = ys.length)
    (h : toNat xs = toNat ys) : xs = ys := by
  rw [← ofNat_toNat xs, ← ofNat_toNat ys, hlen, h]

theorem ofNat_mod (width n : Nat) : ofNat width (n % 2 ^ width) = ofNat width n :=
  eq_of_toNat_eq (by simp) (by rw [toNat_ofNat, toNat_ofNat, Nat.mod_mod])

theorem toNat_append (xs ys : List Bool) :
    toNat (xs ++ ys) = toNat xs + 2 ^ xs.length * toNat ys := by
  induction xs with
  | nil => simp
  | cons b xs ih =>
    rw [cons_append, toNat, toNat, ih, length_cons, Nat.pow_succ]
    ring

/-- Two fields next to each other. -/
theorem ofNat_add (low high n : Nat) :
    ofNat (low + high) n = ofNat low n ++ ofNat high (n / 2 ^ low) := by
  induction low generalizing n with
  | zero => simp [ofNat]
  | succ low ih =>
    rw [Nat.add_right_comm, ofNat, ofNat, ih, cons_append, Nat.div_div_eq_div_mul,
      Nat.pow_succ, Nat.mul_comm 2]

/-- A number that packs two fields. -/
theorem ofNat_pack {low high a b : Nat} (ha : a < 2 ^ low) :
    ofNat (low + high) (a + 2 ^ low * b) = ofNat low a ++ ofNat high b := by
  have hlow : ofNat low (a + 2 ^ low * b) = ofNat low a := by
    rw [← ofNat_mod, Nat.add_mul_mod_self_left, ofNat_mod]
  rw [ofNat_add, hlow, Nat.add_mul_div_left _ _ (Nat.two_pow_pos low),
    Nat.div_eq_of_lt ha, Nat.zero_add]

theorem ofNat_take (h : k ≤ width) : (ofNat width n).take k = ofNat k n := by
  obtain ⟨rest, rfl⟩ := Nat.exists_eq_add_of_le h
  rw [ofNat_add, take_left' (ofNat_length k n)]

theorem ofNat_drop (h : k ≤ width) : (ofNat width n).drop k = ofNat (width - k) (n / 2 ^ k) := by
  obtain ⟨rest, rfl⟩ := Nat.exists_eq_add_of_le h
  rw [ofNat_add, drop_left' (ofNat_length k n), Nat.add_sub_cancel_left]

theorem toNat_take (bits : List Bool) (k : Nat) : toNat (bits.take k) = toNat bits % 2 ^ k := by
  rcases Nat.le_total k bits.length with h | h
  · have hsplit := toNat_append (bits.take k) (bits.drop k)
    rw [take_append_drop, length_take_of_le h] at hsplit
    have hlt := toNat_lt (bits.take k)
    rw [length_take_of_le h] at hlt
    rw [hsplit, Nat.add_mul_mod_self_left, Nat.mod_eq_of_lt hlt]
  · have hlt := (toNat_lt bits).trans_le (Nat.pow_le_pow_right (by omega) h)
    rw [take_of_length_le h, Nat.mod_eq_of_lt hlt]

theorem toNat_append_zeros (bits : List Bool) (n : Nat) :
    toNat (bits ++ List.replicate n false) = toNat bits := by
  have hzeros : toNat (List.replicate n false) = 0 := by
    induction n with
    | zero => rfl
    | succ n ih => simp [replicate_succ, toNat, ih]
  rw [toNat_append, hzeros, Nat.mul_zero, Nat.add_zero]

theorem testBit_toNat (bits : List Bool) (i : Nat) :
    (toNat bits).testBit i = bits.getD i false := by
  induction bits generalizing i with
  | nil => simp
  | cons b bits ih =>
    cases i with
    | zero => cases b <;> simp [toNat]
    | succ i =>
      have hrest : (b.toNat + 2 * toNat bits) / 2 = toNat bits := by
        have hle := b.toNat_le
        omega
      rw [toNat, Nat.testBit_succ, hrest, ih, getD_cons_succ]

/-! ## Bytes -/

/-- The bits of a byte string. -/
def ofBytes (bytes : List UInt8) : List Bool := bytes.flatMap fun b => ofNat 8 b.toNat

@[simp]
theorem ofBytes_nil : ofBytes [] = [] := rfl

theorem ofBytes_cons (b : UInt8) (bytes : List UInt8) :
    ofBytes (b :: bytes) = ofNat 8 b.toNat ++ ofBytes bytes := by
  rw [ofBytes, flatMap_cons, ofBytes]

theorem ofBytes_append (xs ys : List UInt8) : ofBytes (xs ++ ys) = ofBytes xs ++ ofBytes ys := by
  rw [ofBytes, flatMap_append, ofBytes, ofBytes]

@[simp]
theorem ofBytes_length (bytes : List UInt8) : (ofBytes bytes).length = 8 * bytes.length := by
  induction bytes with
  | nil => rfl
  | cons b bytes ih =>
    rw [ofBytes_cons, length_append, ih, ofNat_length, length_cons]
    omega

/-- The bytes in front of a bit string are determined by it. -/
theorem ofBytes_append_inj {xs ys : List UInt8} (hlen : xs.length = ys.length) {as bs : List Bool}
    (h : ofBytes xs ++ as = ofBytes ys ++ bs) : xs = ys := by
  induction xs generalizing ys with
  | nil => exact (length_eq_zero_iff.mp hlen.symm).symm
  | cons x xs ih =>
    obtain ⟨y, ys, rfl⟩ := exists_cons_of_length_eq_add_one hlen.symm
    rw [ofBytes_cons, ofBytes_cons, append_assoc, append_assoc] at h
    obtain ⟨hbyte, hrest⟩ := append_inj h (by simp)
    have hvalue := congrArg toNat hbyte
    rw [toNat_ofNat_of_lt x.toNat_lt, toNat_ofNat_of_lt y.toNat_lt] at hvalue
    rw [UInt8.toNat_inj.mp hvalue, ih (by simpa using hlen) hrest]

end LsbBits
