import OpenRar.Core.Bytes

/-!
# Variable-length integers

`core/vint.cpp`: seven bits a byte, least significant group first, the high bit set on
every byte but the last.  A writer chooses the shortest form or pads to a fixed width;
the reader accepts any form of at most ten bytes whose value fits 64 bits, padded ones
included.
-/

namespace OpenRar.Core

open List

/-- `MAX_VINT_SIZE` -/
def maxVintSize : Nat := 10

/-- The loop of `push_vint`, over the bytes that are still allowed. -/
def pushVintLoop : Nat → Nat → List UInt8
  | 0, _ => []
  | fuel + 1, value =>
    if value / 128 ≠ 0 then UInt8.ofNat (value % 128 + 128) :: pushVintLoop fuel (value / 128)
    else [UInt8.ofNat (value % 128)]

/-- `push_vint` of a 64-bit value. -/
def pushVint (value : Nat) : List UInt8 := pushVintLoop maxVintSize value

/-- `push_vint_fixed` -/
def pushVintFixed : Nat → Nat → List UInt8
  | 0, _ => []
  | 1, value => [UInt8.ofNat (value % 128)]
  | width + 2, value =>
    UInt8.ofNat (value % 128 + 128) :: pushVintFixed (width + 1) (value / 128)

/-- What `push_vint_fixed` returns: whether the groups have taken up the whole value. -/
def pushVintFixedResult : Nat → Nat → Bool
  | 0, value => value = 0
  | width + 1, value => pushVintFixedResult width (value / 128)

/-- The loop of `read_vint`; the last byte of ten has room for one bit only. -/
def readVintLoop : Nat → Nat → Nat → List UInt8 → Option (Nat × List UInt8)
  | 0, _, _, _ => none
  | _ + 1, _, _, [] => none
  | fuel + 1, shift, value, b :: rest =>
    if shift = 63 ∧ b.toNat &&& 0x7E ≠ 0 then none
    else
      let group := if shift = 63 then b.toNat &&& 0x01 else b.toNat &&& 0x7F
      let value := value ||| group <<< shift
      if b.toNat &&& 0x80 = 0 then some (value, rest)
      else readVintLoop fuel (shift + 7) value rest

/-- `read_vint`: the value and the bytes behind it. -/
def readVint (data : List UInt8) : Option (Nat × List UInt8) := readVintLoop maxVintSize 0 0 data

/-! ## The encodings of a value -/

variable {value v fuel : Nat} {data rest : List UInt8}

theorem or_shiftLeft {shift : Nat} (h : value < 2 ^ shift) (group : Nat) :
    value ||| group <<< shift = value + group * 2 ^ shift := by
  rw [Nat.lor_comm, ← Nat.shiftLeft_add_eq_or_of_lt h, Nat.shiftLeft_eq, Nat.add_comm]

/-- The groups of seven bits, the least significant one first. -/
def vintValue : List UInt8 → Nat
  | [] => 0
  | b :: bytes => b.toNat % 128 + 128 * vintValue bytes

/-- The high bit is set on every byte but the last. -/
def Terminated : List UInt8 → Prop
  | [] => False
  | [b] => b.toNat < 128
  | b :: bytes => 128 ≤ b.toNat ∧ Terminated bytes

variable {b : UInt8} {bytes : List UInt8} {k acc width : Nat}

theorem terminated_cons (hb : 128 ≤ b.toNat) : Terminated (b :: bytes) ↔ Terminated bytes := by
  cases bytes with
  | nil => simp [Terminated, hb]
  | cons c bytes => simp [Terminated, hb]

theorem Terminated.head_lt (hb : b.toNat < 128) (h : Terminated (b :: bytes)) : bytes = [] := by
  cases bytes with
  | nil => rfl
  | cons c bytes => exact absurd h.1 (Nat.not_le.mpr hb)

theorem readVintLoop_cons (hk : k + fuel = 9) (hacc : acc < 128 ^ k) (b : UInt8)
    (data : List UInt8) :
    readVintLoop (fuel + 1) (7 * k) acc (b :: data) =
      if k = 9 ∧ 2 ≤ b.toNat % 128 then none
      else if b.toNat < 128 then some (acc + b.toNat % 128 * 128 ^ k, data)
      else readVintLoop fuel (7 * (k + 1)) (acc + b.toNat % 128 * 128 ^ k) data := by
  have hpow : 128 ^ k = 2 ^ (7 * k) := by rw [pow_mul]; rfl
  have hbits : ∀ n < 256, (n &&& 0x7E ≠ 0 ↔ 2 ≤ n % 128) ∧ n &&& 0x7F = n % 128 ∧
      (n &&& 0x80 = 0 ↔ n < 128) ∧ (n % 128 < 2 → n &&& 0x01 = n % 128) := by
    decide +kernel
  obtain ⟨hover, hlow, hend, hone⟩ := hbits b.toNat b.toNat_lt
  rw [hpow] at hacc ⊢
  have hlast : 7 * k = 63 ↔ k = 9 := by omega
  simp only [readVintLoop, hover, hend, hlast, hlow]
  split
  · rfl
  · next hfits =>
    have hgroup : (if k = 9 then b.toNat &&& 0x01 else b.toNat % 128) = b.toNat % 128 := by
      split
      · next hnine => exact hone (by omega)
      · rfl
    rw [hgroup, or_shiftLeft hacc]
    rfl

/-- What the loop accepts behind the `k` groups of `acc`. -/
theorem readVintLoop_iff (hk : k + fuel = 10) (hacc : acc < 128 ^ k) :
    readVintLoop fuel (7 * k) acc data = some (v, rest) ↔
      ∃ bytes, data = bytes ++ rest ∧ Terminated bytes ∧ bytes.length ≤ fuel ∧
        v = acc + vintValue bytes * 128 ^ k ∧ v < 2 ^ 64 := by
  induction fuel generalizing k acc data with
  | zero =>
    refine iff_of_false nofun ?_
    rintro ⟨bytes, -, hterm, hlen, -⟩
    obtain rfl := eq_nil_of_length_eq_zero (Nat.le_zero.mp hlen)
    exact hterm
  | succ fuel ih =>
    cases data with
    | nil =>
      refine iff_of_false nofun ?_
      rintro ⟨bytes, hdata, hterm, -⟩
      obtain ⟨rfl, -⟩ := append_eq_nil_iff.mp hdata.symm
      exact hterm
    | cons b data =>
      have hgroup := Nat.mod_lt b.toNat (show 128 > 0 by decide)
      have hnext : acc + b.toNat % 128 * 128 ^ k < 128 ^ (k + 1) := by
        rw [pow_succ]
        nlinarith
      rw [readVintLoop_cons (by omega) hacc]
      by_cases hb : b.toNat < 128
      · -- the last byte: alone, and it must not exceed the word
        have hfits : acc + b.toNat % 128 * 128 ^ k < 2 ^ 64 ↔ ¬ (k = 9 ∧ 2 ≤ b.toNat % 128) := by
          by_cases hnine : k = 9
          · subst hnine
            norm_num at hacc ⊢
            omega
          · refine iff_of_true (hnext.trans_le ?_) fun h => hnine h.1
            exact (Nat.pow_le_pow_right (by decide) (show k + 1 ≤ 9 by omega)).trans (by decide)
        rw [if_pos hb]
        constructor
        · intro h
          split at h
          · cases h
          · next hok =>
            cases h
            exact ⟨[b], rfl, hb, by simp, by simp [vintValue], hfits.mpr hok⟩
        · rintro ⟨bytes, hdata, hterm, -, rfl, hlt⟩
          cases bytes with
          | nil => exact absurd hterm id
          | cons c bytes =>
            obtain ⟨rfl, rfl⟩ := cons.inj hdata
            obtain rfl := hterm.head_lt hb
            simp only [vintValue, Nat.mul_zero, Nat.add_zero] at hlt ⊢
            rw [if_neg (hfits.mp hlt)]
            rfl
      · have hnot : ∀ bytes, Terminated (b :: bytes) ↔ Terminated bytes := fun _ =>
          terminated_cons (Nat.not_lt.mp hb)
        have hsum : ∀ bytes, acc + vintValue (b :: bytes) * 128 ^ k
            = acc + b.toNat % 128 * 128 ^ k + vintValue bytes * 128 ^ (k + 1) := by
          intro bytes
          rw [vintValue]
          ring
        rw [if_neg hb]
        by_cases hnine : k = 9
        · -- ten bytes without an end
          obtain rfl : fuel = 0 := by omega
          refine iff_of_false (by simp [readVintLoop]) ?_
          rintro ⟨bytes, hdata, hterm, hlen, -⟩
          match bytes with
          | [] => exact hterm
          | [c] => exact hb ((cons.inj hdata).1 ▸ hterm)
          | _ :: _ :: _ => simp at hlen
        · rw [if_neg fun h => hnine h.1, ih (by omega) hnext]
          constructor
          · rintro ⟨bytes, rfl, hterm, hlen, rfl, hlt⟩
            exact ⟨b :: bytes, rfl, (hnot _).mpr hterm, by simpa, (hsum _).symm, hlt⟩
          · rintro ⟨bytes, hdata, hterm, hlen, rfl, hlt⟩
            cases bytes with
            | nil => exact absurd hterm id
            | cons c bytes =>
              obtain ⟨rfl, rfl⟩ := cons.inj hdata
              exact ⟨bytes, rfl, (hnot _).mp hterm, by simpa using hlen, hsum _, hlt⟩

theorem readVint_iff : readVint data = some (v, rest) ↔
    ∃ bytes, data = bytes ++ rest ∧ Terminated bytes ∧ bytes.length ≤ 10 ∧ v = vintValue bytes ∧
      v < 2 ^ 64 := by
  have h := @readVintLoop_iff v 10 data rest 0 0 rfl (by decide)
  simpa [readVint, maxVintSize] using h

/-! ## What is written -/

theorem vintByte {group : Nat} (h : group < 128) :
    (UInt8.ofNat group).toNat = group ∧ (UInt8.ofNat (group + 128)).toNat = group + 128 :=
  ⟨UInt8.toNat_ofNat_of_lt' (by rw [UInt8.size]; omega),
    UInt8.toNat_ofNat_of_lt' (by rw [UInt8.size]; omega)⟩

/-- The bytes of a value in `fuel` groups at most. -/
theorem pushVintLoop_spec (h : value < 128 ^ (fuel + 1)) :
    Terminated (pushVintLoop (fuel + 1) value) ∧
      vintValue (pushVintLoop (fuel + 1) value) = value := by
  induction fuel generalizing value with
  | zero =>
    rw [pushVintLoop, if_neg (by omega)]
    simp only [Terminated, vintValue, (vintByte (Nat.mod_lt value (by decide))).1]
    omega
  | succ fuel ih =>
    obtain ⟨hlow, hhigh⟩ := vintByte (Nat.mod_lt value (show 128 > 0 by decide))
    rw [pushVintLoop]
    split
    · obtain ⟨hterm, hval⟩ := @ih (value / 128) (by rw [pow_succ] at h; omega)
      refine ⟨(terminated_cons (by omega)).mpr hterm, ?_⟩
      rw [vintValue, hval, hhigh]
      omega
    · simp only [Terminated, vintValue, hlow]
      omega

theorem pushVintFixedResult_iff : pushVintFixedResult width value ↔ value < 128 ^ width := by
  induction width generalizing value with
  | zero => simp [pushVintFixedResult]
  | succ width ih => rw [pushVintFixedResult, ih, Nat.div_lt_iff_lt_mul (by decide), pow_succ]

/-- The padded form in `width` groups. -/
theorem pushVintFixed_spec (h : value < 128 ^ (width + 1)) :
    Terminated (pushVintFixed (width + 1) value) ∧
      vintValue (pushVintFixed (width + 1) value) = value ∧
      (pushVintFixed (width + 1) value).length = width + 1 := by
  induction width generalizing value with
  | zero =>
    simp only [pushVintFixed, Terminated, vintValue, (vintByte (Nat.mod_lt value (by decide))).1]
    exact ⟨by omega, by omega, rfl⟩
  | succ width ih =>
    obtain ⟨-, hhigh⟩ := vintByte (Nat.mod_lt value (show 128 > 0 by decide))
    obtain ⟨hterm, hval, hlen⟩ := @ih (value / 128) (by rw [pow_succ] at h; omega)
    refine ⟨(terminated_cons (by omega)).mpr hterm, ?_, by simp [pushVintFixed, hlen]⟩
    rw [pushVintFixed, vintValue, hval, hhigh]
    omega

theorem pushVintLoop_length_le (fuel value : Nat) : (pushVintLoop fuel value).length ≤ fuel := by
  induction fuel generalizing value with
  | zero => exact Nat.le_refl _
  | succ fuel ih =>
    unfold pushVintLoop
    split
    · exact Nat.succ_le_succ (ih _)
    · exact Nat.succ_le_succ (Nat.zero_le _)

theorem pushVint_length_le (value : Nat) : (pushVint value).length ≤ 10 :=
  pushVintLoop_length_le maxVintSize value

theorem pushVint_ne_nil (value : Nat) : pushVint value ≠ [] := by
  unfold pushVint maxVintSize pushVintLoop
  split
  · exact cons_ne_nil _ _
  · exact cons_ne_nil _ _

@[simp]
theorem readVint_pushVint (h : value < 2 ^ 64) (rest : List UInt8) :
    readVint (pushVint value ++ rest) = some (value, rest) := by
  obtain ⟨hterm, hval⟩ := @pushVintLoop_spec value 9 (h.trans (by decide))
  exact readVint_iff.mpr ⟨_, rfl, hterm, pushVint_length_le value, hval.symm, h⟩

theorem readVint_padded (h : value < 2 ^ 64) (hpos : 0 < width) (hle : width ≤ 10)
    (hfits : pushVintFixedResult width value) (rest : List UInt8) :
    readVint (pushVintFixed width value ++ rest) = some (value, rest) := by
  obtain ⟨width, rfl⟩ := Nat.exists_eq_succ_of_ne_zero hpos.ne'
  obtain ⟨hterm, hval, hlen⟩ := pushVintFixed_spec (pushVintFixedResult_iff.mp hfits)
  exact readVint_iff.mpr ⟨_, rfl, hterm, hlen.trans_le hle, hval.symm, h⟩

@[simp]
theorem readVint_pushVintFixed (h : value < 2 ^ 64) (rest : List UInt8) :
    readVint (pushVintFixed 10 value ++ rest) = some (value, rest) :=
  readVint_padded h (by decide) le_rfl (pushVintFixedResult_iff.mpr (h.trans (by decide))) rest

/-! ## What a successful read says -/

section

variable (h : readVint data = some (v, rest))
include h

/-- The bytes of an integer determine it, whatever follows. -/
theorem readVint_split : ∃ bytes, data = bytes ++ rest ∧ bytes ≠ [] ∧
      ∀ tail, readVint (bytes ++ tail) = some (v, tail) := by
  obtain ⟨bytes, rfl, hterm, hread⟩ := readVint_iff.mp h
  refine ⟨bytes, rfl, ?_, fun tail => readVint_iff.mpr ⟨bytes, rfl, hterm, hread⟩⟩
  rintro rfl
  exact hterm

theorem readVint_length : rest.length < data.length := by
  obtain ⟨bytes, rfl, hne, _⟩ := readVint_split h
  have := length_pos_iff.mpr hne
  rw [length_append]
  omega

theorem readVint_lt : v < 2 ^ 64 := by
  obtain ⟨_, _, _, _, _, hlt⟩ := readVint_iff.mp h
  exact hlt

end

/-- **Variable-length integers.**  Every 64-bit value is read back from its shortest form and
from every padded form of one to ten bytes that it fits, and the bytes behind it are left;
and what is read is the sum of the groups that were consumed, below `2 ^ 64`. -/
theorem vint_laws :
    (∀ v < 2 ^ 64, ∀ rest, readVint (pushVint v ++ rest) = some (v, rest) ∧
      ∀ n, 1 ≤ n → n ≤ 10 → v < 128 ^ n →
        readVint (pushVintFixed n v ++ rest) = some (v, rest)) ∧
    ∀ data v rest, readVint data = some (v, rest) →
      ∃ bytes, data = bytes ++ rest ∧ v = vintValue bytes ∧ v < 2 ^ 64 := by
  refine ⟨fun v hv rest => ⟨readVint_pushVint hv rest, fun n hpos hle hfits => ?_⟩,
    fun data v rest h => ?_⟩
  · exact readVint_padded hv hpos hle (pushVintFixedResult_iff.mpr hfits) rest
  · obtain ⟨bytes, hdata, -, -, hval, hlt⟩ := readVint_iff.mp h
    exact ⟨bytes, hdata, hval, hlt⟩

/-- The value 300 in three bytes, with a byte behind them. -/
theorem vint_laws_padded :
    300 < 2 ^ 64 ∧ readVint (pushVintFixed 3 300 ++ [7]) = some (300, [7]) :=
  ⟨by decide, (vint_laws.1 300 (by decide) [7]).2 3 (by decide) (by decide) (by decide)⟩

/-- Eleven bytes hold the value 0, and the reader gives up after ten. -/
theorem readVint_eleven : (0 : Nat) < 128 ^ 11 ∧ readVint (pushVintFixed 11 0) = none :=
  ⟨by decide, by decide⟩

end OpenRar.Core
