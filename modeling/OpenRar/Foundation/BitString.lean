import Mathlib

/-!
# Bit strings, most significant bit first

Numbers of a fixed width and lists of bits, in both directions, and bytes as
groups of eight bits.  A stream coder and a stream decoder are compared through
these lists; nothing here knows about a particular format.
-/

namespace BitString

open List

/-- The number that a list of bits writes, most significant bit first. -/
def toNat (bits : List Bool) : Nat :=
  bits.foldl (fun acc b => 2 * acc + b.toNat) 0

/-- The `width` low bits of `n`, most significant bit first. -/
def ofNat : Nat → Nat → List Bool
  | 0, _ => []
  | width + 1, n => n.testBit width :: ofNat width n

@[simp]
theorem ofNat_length (width n : Nat) : (ofNat width n).length = width := by
  induction width with
  | zero => rfl
  | succ width ih => simp [ofNat, ih]

@[simp]
theorem toNat_nil : toNat [] = 0 := rfl

private theorem foldl_bits (bits : List Bool) (acc : Nat) :
    bits.foldl (fun acc b => 2 * acc + b.toNat) acc = acc * 2 ^ bits.length + toNat bits := by
  induction bits generalizing acc with
  | nil => simp
  | cons b bits ih =>
    have hcons : toNat (b :: bits) = b.toNat * 2 ^ bits.length + toNat bits := by
      rw [show toNat (b :: bits) = bits.foldl (fun acc b => 2 * acc + b.toNat) (2 * 0 + b.toNat)
        from rfl, ih]
      simp
    rw [foldl_cons, ih, hcons, length_cons, pow_succ]
    ring

theorem toNat_append (xs ys : List Bool) :
    toNat (xs ++ ys) = toNat xs * 2 ^ ys.length + toNat ys := by
  rw [toNat, foldl_append, foldl_bits, ← toNat]

theorem toNat_cons (b : Bool) (bits : List Bool) :
    toNat (b :: bits) = b.toNat * 2 ^ bits.length + toNat bits := by
  have h := toNat_append [b] bits
  simpa [toNat] using h

theorem toNat_lt (bits : List Bool) : toNat bits < 2 ^ bits.length := by
  induction bits with
  | nil => simp
  | cons b bits ih =>
    rw [toNat_cons, length_cons, pow_succ]
    cases b <;> simp <;> omega

/-- Writing a number in its width and reading it back. -/
theorem toNat_ofNat {width n : Nat} (h : n < 2 ^ width) : toNat (ofNat width n) = n := by
  have hmod : ∀ width n, toNat (ofNat width n) = n % 2 ^ width := by
    intro width
    induction width with
    | zero => intro n; simp [ofNat, Nat.mod_one]
    | succ width ih =>
      intro n
      rw [ofNat, toNat_cons, ih, ofNat_length, Nat.testBit_eq_decide_div_mod_eq, pow_succ,
        Nat.mod_mul]
      have hbit : (decide (n / 2 ^ width % 2 = 1)).toNat = n / 2 ^ width % 2 := by
        rcases Nat.mod_two_eq_zero_or_one (n / 2 ^ width) with h | h <;> simp [h]
      rw [hbit]
      ring
  rw [hmod, Nat.mod_eq_of_lt h]

theorem ofNat_toNat (bits : List Bool) : ofNat bits.length (toNat bits) = bits := by
  have hlow : ∀ (width n m : Nat), n % 2 ^ width = m % 2 ^ width →
      ofNat width n = ofNat width m := by
    intro width
    induction width with
    | zero => intros; rfl
    | succ width ih =>
      intro n m h
      have hbit : n.testBit width = m.testBit width := by
        have hn := Nat.testBit_mod_two_pow n (width + 1) width
        have hm := Nat.testBit_mod_two_pow m (width + 1) width
        rw [h] at hn
        simpa using hn.symm.trans hm
      have hrest : n % 2 ^ width = m % 2 ^ width := by
        have hdvd : 2 ^ width ∣ 2 ^ (width + 1) := Nat.pow_dvd_pow 2 (Nat.le_succ width)
        rw [← Nat.mod_mod_of_dvd n hdvd, h, Nat.mod_mod_of_dvd m hdvd]
      rw [ofNat, ofNat, hbit, ih n m hrest]
  induction bits with
  | nil => rfl
  | cons b bits ih =>
    have hlt := toNat_lt bits
    rw [length_cons, ofNat]
    congr 1
    · rw [toNat_cons, Nat.testBit_eq_decide_div_mod_eq, mul_comm,
        Nat.mul_add_div (by positivity), Nat.div_eq_of_lt hlt]
      cases b <;> rfl
    · refine (hlow _ _ (toNat bits) ?_).trans ih
      rw [toNat_cons, mul_comm, Nat.mul_add_mod]

/-- The top `k` bits of a number of `width` bits. -/
theorem toNat_take (bits : List Bool) (k : Nat) :
    toNat (bits.take k) = toNat bits / 2 ^ (bits.length - k) := by
  have hsplit := toNat_append (bits.take k) (bits.drop k)
  rw [take_append_drop, length_drop] at hsplit
  have hlt : toNat (bits.drop k) < 2 ^ (bits.length - k) := by
    simpa using toNat_lt (bits.drop k)
  rw [hsplit, mul_comm, Nat.mul_add_div (by positivity), Nat.div_eq_of_lt hlt, Nat.add_zero]

theorem toNat_replicate_false (n : Nat) : toNat (List.replicate n false) = 0 := by
  induction n with
  | zero => rfl
  | succ n ih => simp [replicate_succ, toNat_cons, ih]

/-! ## Fields next to each other -/

theorem ofNat_congr {width n k : Nat} (h : ∀ i < width, n.testBit i = k.testBit i) :
    ofNat width n = ofNat width k := by
  induction width with
  | zero => rfl
  | succ width ih =>
    rw [ofNat, ofNat, h width (Nat.lt_succ_self width),
      ih fun i hi => h i (hi.trans (Nat.lt_succ_self width))]

theorem ofNat_add (high low n : Nat) :
    ofNat (high + low) n = ofNat high (n >>> low) ++ ofNat low n := by
  induction high with
  | zero => simp [ofNat]
  | succ high ih =>
    rw [Nat.succ_add, ofNat, ih, ofNat, Nat.testBit_shiftRight, Nat.add_comm low high,
      cons_append]

theorem ofNat_mod (width n : Nat) : ofNat width (n % 2 ^ width) = ofNat width n := by
  refine ofNat_congr fun i hi => ?_
  rw [Nat.testBit_mod_two_pow, decide_eq_true hi, Bool.true_and]

/-- A number that packs two fields. -/
theorem ofNat_pack {high low a b : Nat} (hb : b < 2 ^ low) :
    ofNat (high + low) (a <<< low ||| b) = ofNat high a ++ ofNat low b := by
  rw [ofNat_add]
  congr 1
  · refine ofNat_congr fun i _ => ?_
    rw [Nat.testBit_shiftRight, Nat.testBit_or, Nat.testBit_shiftLeft,
      Nat.testBit_lt_two_pow (hb.trans_le
        (Nat.pow_le_pow_right (by decide) (Nat.le_add_right low i)))]
    simp
  · refine ofNat_congr fun i hi => ?_
    simp [Nat.not_le.mpr hi]

/-! ## Bytes -/

/-- The bits of a byte string. -/
def ofBytes (bytes : List UInt8) : List Bool :=
  bytes.flatMap fun b => ofNat 8 b.toNat

@[simp]
theorem ofBytes_nil : ofBytes [] = [] := rfl

theorem ofBytes_cons (b : UInt8) (bytes : List UInt8) :
    ofBytes (b :: bytes) = ofNat 8 b.toNat ++ ofBytes bytes := by
  simp [ofBytes]

theorem ofBytes_append (xs ys : List UInt8) : ofBytes (xs ++ ys) = ofBytes xs ++ ofBytes ys := by
  simp [ofBytes]

@[simp]
theorem ofBytes_length (bytes : List UInt8) : (ofBytes bytes).length = 8 * bytes.length := by
  induction bytes with
  | nil => rfl
  | cons b bytes ih =>
    rw [ofBytes_cons, length_append, ih, ofNat_length, length_cons]
    ring

/-- Bits as bytes, the last byte filled up with zero bits. -/
def toBytes (bits : List Bool) : List UInt8 :=
  (List.range ((bits.length + 7) / 8)).map fun i =>
    let byte := (bits.drop (8 * i)).take 8
    UInt8.ofNat (toNat byte * 2 ^ (8 - byte.length))

@[simp]
theorem toBytes_length (bits : List Bool) : (toBytes bits).length = (bits.length + 7) / 8 := by
  simp [toBytes]

/-- Number of bits that fill up the last byte. -/
def padding (n : Nat) : Nat := (8 - n % 8) % 8

/-- Eight bits or fewer as one byte. -/
theorem ofNat_paddedByte {byte : List Bool} (h : byte.length ≤ 8) :
    ofNat 8 (UInt8.ofNat (toNat byte * 2 ^ (8 - byte.length))).toNat
      = byte ++ List.replicate (8 - byte.length) false := by
  have hpadded : toNat (byte ++ List.replicate (8 - byte.length) false)
      = toNat byte * 2 ^ (8 - byte.length) := by
    rw [toNat_append, toNat_replicate_false, length_replicate, Nat.add_zero]
  have hlen : (byte ++ List.replicate (8 - byte.length) false).length = 8 := by
    rw [length_append, length_replicate]
    omega
  have hlt := toNat_lt (byte ++ List.replicate (8 - byte.length) false)
  have hback := ofNat_toNat (byte ++ List.replicate (8 - byte.length) false)
  rw [hlen, hpadded] at hlt hback
  rw [UInt8.toNat_ofNat_of_lt' hlt, hback]

/-- **Bytes written from bits read back as these bits and the padding.** -/
theorem ofBytes_toBytes (bits : List Bool) :
    ofBytes (toBytes bits) = bits ++ List.replicate (padding bits.length) false := by
  induction hlen : bits.length using Nat.strong_induction_on generalizing bits with
  | _ n ih =>
    subst hlen
    by_cases hempty : bits.length = 0
    · rw [length_eq_zero_iff.mp hempty]
      rfl
    -- the first byte, then the bytes of the other bits
    have hsplit : toBytes bits = UInt8.ofNat (toNat (bits.take 8) * 2 ^ (8 - (bits.take 8).length))
        :: toBytes (bits.drop 8) := by
      have hcount : (bits.length + 7) / 8 = (bits.length - 8 + 7) / 8 + 1 := by omega
      rw [toBytes, toBytes, length_drop, hcount, range_succ_eq_map, map_cons,
        map_map]
      simp only [Nat.mul_zero, drop_zero, drop_drop, Function.comp_def,
        Nat.succ_eq_add_one, Nat.mul_add, Nat.mul_one, Nat.add_comm]
    rw [hsplit, ofBytes_cons, ofNat_paddedByte (by rw [length_take]; omega)]
    by_cases hshort : bits.length ≤ 8
    · rw [take_of_length_le hshort, drop_of_length_le hshort,
        show toBytes [] = [] from rfl, ofBytes_nil, append_nil, padding,
        show 8 - bits.length = (8 - bits.length % 8) % 8 by omega]
    · have hrest := ih (bits.drop 8).length (by rw [length_drop]; omega) (bits.drop 8) rfl
      have hpad : padding (bits.drop 8).length = padding bits.length := by
        rw [length_drop, padding, padding]
        omega
      rw [hrest, hpad, length_take, Nat.min_eq_left (by omega), Nat.sub_self,
        replicate_zero, append_nil, ← append_assoc, take_append_drop]

end BitString
