import OpenRar.Format.HeaderReader
import OpenRar.Format.HeaderWriter

/-!
# The fixed fields of a header

Reading the fixed fields of a written body gives the fields back, for every width of
the packed size and every combination of the optional fields.  The compression
information packs six fields into one word; a window on its grid survives, with one
exception: the reader reports no window for a stored file without dictionary bits.
-/

namespace OpenRar.Format

open OpenRar.Core List Option

/-! ## Compression information -/

theorem and_0x3F (n : Nat) : n &&& 0x3F = n % 64 := Nat.and_two_pow_sub_one_eq_mod n 6

theorem and_0x07 (n : Nat) : n &&& 7 = n % 8 := Nat.and_two_pow_sub_one_eq_mod n 3

theorem and_0x1F (n : Nat) : n &&& 0x1F = n % 32 := Nat.and_two_pow_sub_one_eq_mod n 5

theorem and_0x7C00 (n : Nat) : n &&& 0x7C00 = 0 ↔ n / 1024 % 32 = 0 := by
  have hmask : n &&& 0x7C00 = ((n >>> 10) &&& 0x1F) <<< 10 := by
    apply Nat.eq_of_testBit_eq
    intro i
    rw [show 0x7C00 = 0x1F <<< 10 from rfl, Nat.testBit_and, Nat.testBit_shiftLeft,
      Nat.testBit_shiftLeft, Nat.testBit_and, Nat.testBit_shiftRight]
    by_cases hi : 10 ≤ i
    · simp [hi]
    · simp [hi]
  rw [hmask, Nat.shiftLeft_eq, and_0x1F, Nat.shiftRight_eq_div_pow, Nat.mul_eq_zero]
  simp

variable {limit winSize n : Nat} {c : Compression} {b : FileBlock}

theorem dictLoop_le (winSize fuel pow2 : Nat) {bits : Nat} (h : bits ≤ limit) :
    (dictLoop winSize limit fuel pow2 bits).2 ≤ limit := by
  induction fuel generalizing pow2 bits with
  | zero => exact h
  | succ fuel ih =>
    unfold dictLoop
    split
    · exact ih _ (by omega)
    · exact h

theorem dictFields_lt (c : Compression) : (dictFields c).1 < 32 ∧ (dictFields c).2 < 32 := by
  unfold dictFields
  split
  · have hbits := dictLoop_le c.winSize 23 0x20000 (Nat.zero_le (if c.unpVer = 1 then 23 else 15))
    dsimp only
    generalize dictLoop c.winSize (if c.unpVer = 1 then 23 else 15) 23 0x20000 0 = found at hbits ⊢
    split
    · constructor
      · dsimp only
        split at hbits <;> omega
      · exact lt_of_le_of_lt (Nat.min_le_right _ _) (by decide)
    · constructor
      · dsimp only
        split at hbits <;> omega
      · exact Nat.zero_lt_succ _
  · exact ⟨Nat.zero_lt_succ _, Nat.zero_lt_succ _⟩

/-- The fields of the word do not overlap. -/
theorem encodeCompInfo_eq (c : Compression) :
    encodeCompInfo c = c.unpVer % 64 + (if c.isSolid then 1 else 0) * 64 + c.method % 8 * 128 +
      (dictFields c).1 * 1024 + (dictFields c).2 * 32768 +
      (if c.unpVer = 1 ∧ ¬ c.extraDist then 1 else 0) * 1048576 := by
  obtain ⟨hbits, hfract⟩ := dictFields_lt c
  have hsolid : (if c.isSolid then 1 else 0) < 2 := by split <;> decide
  have hver := Nat.mod_lt c.unpVer (show 64 > 0 by decide)
  unfold encodeCompInfo
  rw [and_0x3F, and_0x07]
  generalize (if c.isSolid then 1 else 0) = s at *
  generalize (dictFields c).1 = d at *
  generalize (dictFields c).2 = f at *
  rw [or_shiftLeft (show c.unpVer % 64 < 2 ^ 6 from hver) s]
  rw [or_shiftLeft (show c.unpVer % 64 + s * 2 ^ 6 < 2 ^ 7 by omega)]
  rw [or_shiftLeft (show c.unpVer % 64 + s * 2 ^ 6 + c.method % 8 * 2 ^ 7 < 2 ^ 10 by omega)]
  rw [or_shiftLeft (show c.unpVer % 64 + s * 2 ^ 6 + c.method % 8 * 2 ^ 7 + d * 2 ^ 10 < 2 ^ 15 by
    omega)]
  rw [or_shiftLeft (show c.unpVer % 64 + s * 2 ^ 6 + c.method % 8 * 2 ^ 7 + d * 2 ^ 10 +
    f * 2 ^ 15 < 2 ^ 20 by omega)]
  rfl

theorem encodeCompInfo_lt (c : Compression) : encodeCompInfo c < 2 ^ 21 := by
  obtain ⟨hbits, hfract⟩ := dictFields_lt c
  have hsolid : (if c.isSolid then 1 else 0) < 2 := by split <;> decide
  have hcompat : (if c.unpVer = 1 ∧ ¬ c.extraDist then 1 else 0) < 2 := by split <;> decide
  rw [encodeCompInfo_eq]
  omega

/-- What the reader makes of the word, in terms of its fields. -/
theorem decodeCompInfo_encodeCompInfo (c : Compression) :
    (decodeCompInfo (encodeCompInfo c)).unpVer = c.unpVer % 64 ∧
      (decodeCompInfo (encodeCompInfo c)).isSolid = c.isSolid ∧
      (decodeCompInfo (encodeCompInfo c)).method = c.method % 8 := by
  have hword := encodeCompInfo_eq c
  refine ⟨?_, ?_, ?_⟩
  · show encodeCompInfo c &&& 0x3F = _
    rw [and_0x3F]
    omega
  · show hasFlag (encodeCompInfo c) (2 ^ 6) = _
    rw [hasFlag_two_pow, Nat.testBit_eq_decide_div_mod_eq]
    cases hsolid : c.isSolid with
    | false =>
      rw [hsolid] at hword
      simp only [Bool.false_eq_true, if_false] at hword
      rw [decide_eq_false_iff_not]
      omega
    | true =>
      rw [hsolid] at hword
      simp only [if_true] at hword
      rw [decide_eq_true_iff]
      omega
  · show (encodeCompInfo c >>> 7) &&& 7 = _
    rw [and_0x07, Nat.shiftRight_eq_div_pow]
    have hsolid : (if c.isSolid then 1 else 0) < 2 := by split <;> decide
    omega

theorem decodeCompInfo_extraDist (hver : c.unpVer < 64)
    (hflavour : c.extraDist = true → c.unpVer = 1) :
    (decodeCompInfo (encodeCompInfo c)).extraDist = c.extraDist := by
  have hdecVer := (decodeCompInfo_encodeCompInfo c).1
  rw [Nat.mod_eq_of_lt hver] at hdecVer
  obtain ⟨hbits, hfract⟩ := dictFields_lt c
  have hword := encodeCompInfo_eq c
  have hsolid : (if c.isSolid then 1 else 0) < 2 := by split <;> decide
  show decide ((decodeCompInfo (encodeCompInfo c)).unpVer = 1 ∧
    encodeCompInfo c &&& 2 ^ 20 = 0) = c.extraDist
  have hbit : encodeCompInfo c &&& 2 ^ 20 = 0 ↔ ¬ (c.unpVer = 1 ∧ ¬ c.extraDist) := by
    rw [Nat.and_two_pow, Nat.testBit_eq_decide_div_mod_eq]
    by_cases hflag : c.unpVer = 1 ∧ ¬ c.extraDist
    · rw [if_pos hflag] at hword
      have : encodeCompInfo c / 1048576 % 2 = 1 := by omega
      simp [this, hflag]
    · rw [if_neg hflag] at hword
      have : ¬ encodeCompInfo c / 2 ^ 20 % 2 = 1 := by omega
      simp only [this, hflag, decide_false, Bool.toNat_false, Nat.zero_mul, not_false_eq_true]
  rw [hdecVer]
  simp only [hbit]
  cases hflag : c.extraDist with
  | false => simp
  | true => simp [hflavour hflag]

/-! ### Windows on the grid -/

/-- The windows that the word can name. -/
inductive OnGrid (unpVer winSize : Nat) : Prop
  | rar5 (n : Nat) (hver : unpVer = 0) (hn : n ≤ 15) (hwin : winSize = rarDictBase * 2 ^ n)
  | rar7 (n f : Nat) (hver : unpVer = 1) (hn : n ≤ 23) (hf : f ≤ 31)
      (hwin : winSize = rarDictBase * 2 ^ n + rarDictBase * 2 ^ n / 32 * f)
      (hmax : winSize ≤ rarDictMaxV1)

theorem dictLoop_eq (hn : n ≤ limit) (hlow : 0x20000 * 2 ^ n ≤ winSize)
    (hhigh : winSize < 0x20000 * 2 ^ (n + 1)) (fuel bits : Nat) (hbits : bits ≤ n)
    (hfuel : n ≤ bits + fuel) :
    dictLoop winSize limit fuel (0x20000 * 2 ^ bits) bits = (0x20000 * 2 ^ n, n) := by
  induction fuel generalizing bits with
  | zero =>
    obtain rfl : bits = n := by omega
    rfl
  | succ fuel ih =>
    have hdouble : 2 * (0x20000 * 2 ^ bits) = 0x20000 * 2 ^ (bits + 1) := by
      ring
    rw [dictLoop, hdouble]
    by_cases hmore : bits < n
    · have hpow : 2 ^ (bits + 1) ≤ 2 ^ n := Nat.pow_le_pow_right (by decide) hmore
      rw [if_pos ⟨by omega, by omega⟩]
      exact ih (bits + 1) hmore (by omega)
    · obtain rfl : bits = n := by omega
      rw [if_neg]
      omega

theorem dictLoop_start (hn : n ≤ limit) (hlimit : limit ≤ 23) (hlow : 0x20000 * 2 ^ n ≤ winSize)
    (hhigh : winSize < 0x40000 * 2 ^ n) :
    dictLoop winSize limit 23 0x20000 0 = (0x20000 * 2 ^ n, n) :=
  dictLoop_eq hn hlow (by rw [pow_succ]; omega) 23 0 (Nat.zero_le _) (by omega)

theorem power_zero_iff (hlow : 0x20000 * 2 ^ n ≤ winSize) (hhigh : winSize < 0x40000 * 2 ^ n) :
    n = 0 ↔ winSize < 0x40000 := by
  constructor
  · rintro rfl
    omega
  · intro hless
    by_contra hne
    have : 2 ^ 1 ≤ 2 ^ n := Nat.pow_le_pow_right (by decide) (by omega)
    omega

theorem OnGrid.dictFields (h : OnGrid c.unpVer c.winSize) :
    ∃ n f, dictFields c = (n, f) ∧ c.unpVer ≤ 1 ∧ n ≤ (if c.unpVer = 1 then 23 else 15) ∧
      c.winSize = 0x20000 * 2 ^ n + (if c.unpVer = 1 then 0x20000 * 2 ^ n / 32 * f else 0) ∧
      (c.unpVer = 1 → c.winSize ≤ rarDictMaxV1) ∧ (n = 0 ↔ c.winSize < 0x40000) := by
  cases h with
  | rar5 n hver hn hwin =>
    have hpos := Nat.one_le_two_pow (n := n)
    rw [rarDictBase] at hwin
    refine ⟨n, 0, ?_, by omega, ?_, ?_, by omega, power_zero_iff (by omega) (by omega)⟩
    · unfold Format.dictFields
      rw [if_pos (by omega), if_neg (by omega)]
      dsimp only
      rw [dictLoop_start hn (by decide) (by omega) (by omega)]
      exact if_neg (by omega)
    · rw [if_neg (by omega)]
      exact hn
    · rw [if_neg (by omega)]
      exact hwin
  | rar7 n f hver hn hf hwin hmax =>
    have hpos := Nat.one_le_two_pow (n := n)
    rw [rarDictBase] at hwin
    have hdiv : 0x20000 * 2 ^ n / 32 = 4096 * 2 ^ n := by omega
    have hfract : 4096 * 2 ^ n * f ≤ 4096 * 2 ^ n * 31 := Nat.mul_le_mul_left _ hf
    rw [hdiv] at hwin
    refine ⟨n, f, ?_, by omega, ?_, ?_, fun _ => hmax, power_zero_iff (by omega) (by omega)⟩
    · unfold Format.dictFields
      rw [if_pos (by omega), if_pos hver]
      dsimp only
      rw [dictLoop_start hn (by decide) (by omega) (by omega)]
      split
      · have hquot : (c.winSize - 0x20000 * 2 ^ n) * 32 / (0x20000 * 2 ^ n) = f := by
          rw [hwin, Nat.add_sub_cancel_left,
            show 4096 * 2 ^ n * f * 32 = f * (0x20000 * 2 ^ n) by ring]
          exact Nat.mul_div_cancel _ (by omega)
        rw [hquot, Nat.min_eq_left hf]
      · have hzero : 4096 * 2 ^ n * f = 0 := by omega
        rcases Nat.mul_eq_zero.mp hzero with hzero | hzero
        · omega
        · rw [hzero]
    · rw [if_pos hver]
      exact hn
    · rw [if_pos hver, hdiv]
      exact hwin

/-- The window that the reader derives from the fields of a word. -/
theorem decodeWinSize_eq {word unpVer method f : Nat} (hbits : word / 1024 % 32 = n)
    (hfract : word / 32768 % 32 = f) (hver : unpVer ≤ 1)
    (hn : n ≤ (if unpVer = 1 then 23 else 15))
    (hwin : winSize = 0x20000 * 2 ^ n + (if unpVer = 1 then 0x20000 * 2 ^ n / 32 * f else 0))
    (hmax : unpVer = 1 → winSize ≤ rarDictMaxV1) :
    decodeWinSize word unpVer method = if method = 0 ∧ n = 0 then 0 else winSize := by
  have hraw : (word >>> 10) &&& 0x1F = n := by
    rw [and_0x1F, Nat.shiftRight_eq_div_pow]
    exact hbits
  have hrawFract : (word >>> 15) &&& 0x1F = f := by
    rw [and_0x1F, Nat.shiftRight_eq_div_pow]
    exact hfract
  have hbase : rarDictBase <<< n = 0x20000 * 2 ^ n := Nat.shiftLeft_eq _ _
  unfold decodeWinSize
  by_cases hstored : method = 0 ∧ n = 0
  · rw [if_pos hstored, if_pos]
    exact Or.inr ⟨hstored.1, (and_0x7C00 word).mpr (hbits.trans hstored.2)⟩
  · rw [if_neg hstored, if_neg]
    · dsimp only
      rw [hraw, hrawFract, hbase]
      by_cases hrar7 : unpVer = 1
      · rw [if_pos hrar7] at hwin hn
        rw [if_neg (by omega), if_neg (by omega), if_pos hrar7, if_neg (by omega)]
        exact hwin.symm
      · rw [if_neg hrar7] at hwin hn
        have hpow : 2 ^ n ≤ 2 ^ 15 := Nat.pow_le_pow_right (by decide) hn
        have hv0 : rarDictMaxV0 = 0x20000 * 2 ^ 15 := rfl
        rw [if_neg (by omega), if_neg (by omega), if_neg hrar7, if_neg (by omega)]
        exact hwin.symm
    · rintro (hbad | ⟨hzero, hmask⟩)
      · omega
      · exact hstored ⟨hzero, hbits.symm.trans ((and_0x7C00 word).mp hmask)⟩

/-- **A window on the grid survives**, unless the file is stored without dictionary
bits. -/
theorem decodeCompInfo_onGrid (h : OnGrid c.unpVer c.winSize) (hmethod : c.method < 8)
    (hflavour : c.extraDist = true → c.unpVer = 1) :
    decodeCompInfo (encodeCompInfo c) =
      { c with winSize := if c.method = 0 ∧ c.winSize < 0x40000 then 0 else c.winSize } := by
  obtain ⟨n, f, hfields, hver, hn, hwin, hmax, hzero⟩ := h.dictFields
  obtain ⟨hdecVer, hdecSolid, hdecMethod⟩ := decodeCompInfo_encodeCompInfo c
  rw [Nat.mod_eq_of_lt (by omega)] at hdecVer hdecMethod
  have hlt := dictFields_lt c
  have hword := encodeCompInfo_eq c
  rw [hfields] at hword hlt
  have hsolid : (if c.isSolid then 1 else 0) < 2 := by split <;> decide
  have hbits : encodeCompInfo c / 1024 % 32 = n := by omega
  have hfract : encodeCompInfo c / 32768 % 32 = f := by omega
  have hextra := decodeCompInfo_extraDist (by omega) hflavour
  have hwindow : (decodeCompInfo (encodeCompInfo c)).winSize =
      if c.method = 0 ∧ c.winSize < 0x40000 then 0 else c.winSize := by
    show decodeWinSize (encodeCompInfo c) (decodeCompInfo (encodeCompInfo c)).unpVer
      (decodeCompInfo (encodeCompInfo c)).method = _
    rw [hdecVer, hdecMethod, decodeWinSize_eq hbits hfract hver hn hwin hmax]
    simp [hzero]
  generalize decodeCompInfo (encodeCompInfo c) = dec at *
  obtain ⟨method, winSize, isSolid, unpVer, extraDist⟩ := dec
  subst hdecVer hdecSolid hdecMethod hextra hwindow
  rfl

/-! ## The flags -/

open HeaderWriter

theorem or_of_hasFlag {flags k : Nat} (h : hasFlag flags (2 ^ k) = true) :
    flags ||| 2 ^ k = flags := by
  rw [hasFlag_two_pow] at h
  apply Nat.eq_of_testBit_eq
  intro i
  rw [Nat.testBit_or, Nat.testBit_two_pow]
  by_cases hi : k = i
  · rw [← hi, h, Bool.true_or]
  · rw [decide_eq_false hi, Bool.or_false]

section

variable (b : FileBlock) (extraHeadFlags : Nat)

theorem headFlags_extra :
    hasFlag (headFlags b extraHeadFlags) hflExtra = decide (extraArea b ≠ []) := by
  have hmask : hasFlag (extraHeadFlags &&& 0x78) 0x0001 = false := by
    rw [hasFlag, Nat.and_assoc, show 0x78 &&& 0x0001 = 0 from rfl, Nat.and_zero]
    rfl
  unfold headFlags
  rw [hasFlag_or, hasFlag_or, show hflSplitBefore ||| hflSplitAfter ||| hflChild ||| hflInherited
    = 0x78 from rfl, show hflExtra = 0x0001 from rfl, hmask]
  split <;> split <;> simp_all [hasFlag, hflData]

theorem headFlags_data :
    hasFlag (headFlags b extraHeadFlags) hflData = decide (b.packSize ≥ 0) := by
  have hmask : hasFlag (extraHeadFlags &&& 0x78) 0x0002 = false := by
    rw [hasFlag, Nat.and_assoc, show 0x78 &&& 0x0002 = 0 from rfl, Nat.and_zero]
    rfl
  unfold headFlags
  rw [hasFlag_or, hasFlag_or, show hflSplitBefore ||| hflSplitAfter ||| hflChild ||| hflInherited
    = 0x78 from rfl, show hflData = 0x0002 from rfl, hmask]
  split <;> split <;> simp_all [hasFlag, hflExtra]

theorem headFlags_lt : headFlags b extraHeadFlags < 2 ^ 64 := by
  have hmask : extraHeadFlags &&& 0x78 < 2 ^ 7 := lt_of_le_of_lt Nat.and_le_right (by decide)
  have hdata : (if b.packSize ≥ 0 then hflData else 0) < 2 ^ 7 := by split <;> decide
  have hextra : (if extraArea b ≠ [] then hflExtra else 0) < 2 ^ 7 := by split <;> decide
  exact lt_trans (Nat.or_lt_two_pow (Nat.or_lt_two_pow hdata hextra) hmask) (by decide)

end

theorem effFileFlags_lt (h : b.fileFlags < 2 ^ 64) : effFileFlags b < 2 ^ 64 := by
  have hcrc : (if b.hasCrc32 then fhflCrc32 else 0) < 2 ^ 64 := by split <;> decide
  have htime : (if b.utimeUnix ≠ 0 then fhflUtime else 0) < 2 ^ 64 := by split <;> decide
  exact Nat.or_lt_two_pow (Nat.or_lt_two_pow h hcrc) htime

/-- Flags that announce the optional fields are written as they are. -/
theorem effFileFlags_eq (hcrc : b.hasCrc32 = hasFlag b.fileFlags fhflCrc32)
    (hutime : b.utimeUnix ≠ 0 → hasFlag b.fileFlags fhflUtime = true) :
    effFileFlags b = b.fileFlags := by
  have hchecked : b.fileFlags ||| (if b.hasCrc32 then fhflCrc32 else 0) = b.fileFlags := by
    split
    · next hhas =>
      rw [hcrc] at hhas
      exact or_of_hasFlag (k := 2) hhas
    · exact Nat.or_zero _
  unfold effFileFlags
  rw [hchecked]
  split
  · next htime => exact or_of_hasFlag (k := 1) (hutime htime)
  · exact Nat.or_zero _

/-! ## Reading the fields back -/

open HeaderReader

theorem readField_writeLe (width : Nat) {value : Nat} (h : value < 256 ^ width)
    (rest : List UInt8) :
    readField width (writeLe width value ++ rest) = some (value, rest) := by
  have hlen := writeLe_length width value
  unfold readField
  rw [if_pos (by rw [length_append, hlen]; omega), take_left' hlen, drop_left' hlen,
    readLe_writeLe, Nat.mod_eq_of_lt h]

theorem readBytes_append (bytes rest : List UInt8) :
    readBytes bytes.length (bytes ++ rest) = some (bytes, rest) := by
  unfold readBytes
  rw [if_pos (by rw [length_append]; omega), take_left, drop_left]

/-- An optional field, read under the condition under which it was written. -/
theorem readIf_optional (present : Bool) {read : List UInt8 → Option (Nat × List UInt8)}
    {bytes rest : List UInt8} {value : Nat} (h : read (bytes ++ rest) = some (value, rest)) :
    readIf present 0 read ((if present then bytes else []) ++ rest) =
      some (if present then value else 0, rest) := by
  cases present with
  | false => rfl
  | true => exact h

/-- The numbers of a block fit their types. -/
structure Bounded (b : FileBlock) : Prop where
  fileFlags : b.fileFlags < 2 ^ 64
  unpSize : b.unpSize < 2 ^ 64
  attributes : b.attributes < 2 ^ 64
  packSize : b.packSize = -1 ∨ (0 ≤ b.packSize ∧ b.packSize < 2 ^ 63)
  utimeUnix : b.utimeUnix < 2 ^ 32
  dataCrc32 : b.dataCrc32 < 2 ^ 32
  hostOs : b.hostOs < 2 ^ 32

/-- What the fixed fields say about a block. -/
def fixedPart (b : FileBlock) : FileBlock :=
  { isService := b.isService
    serviceType := if b.isService then b.fileName else []
    fileFlags := effFileFlags b
    unpSize := b.unpSize
    unpUnknown := hasFlag (effFileFlags b) fhflUnpUnknown
    packSize := b.packSize
    attributes := b.attributes
    utimeUnix := if hasFlag (effFileFlags b) fhflUtime then b.utimeUnix else 0
    hasCrc32 := hasFlag (effFileFlags b) fhflCrc32
    dataCrc32 := if hasFlag (effFileFlags b) fhflCrc32 then b.dataCrc32 else 0
    comp := decodeCompInfo (encodeCompInfo b.comp)
    hostOs := b.hostOs
    fileName := b.fileName }

theorem readPackSize_packSizeField (hb : Bounded b) (extraHeadFlags : Nat)
    (fixedPackSizeVint : Bool) (rest : List UInt8) :
    readPackSize (headFlags b extraHeadFlags) (packSizeField b fixedPackSizeVint ++ rest) =
      some (b.packSize, rest) := by
  unfold readPackSize packSizeField
  rw [headFlags_data]
  rcases hb.packSize with hnone | ⟨hpos, hlt⟩
  · rw [hnone]
    rfl
  · have hsize : b.packSize.toNat < 2 ^ 64 := by omega
    have hread : readVint ((if fixedPackSizeVint then pushVintFixed 10 b.packSize.toNat
        else pushVint b.packSize.toNat) ++ rest) = some (b.packSize.toNat, rest) := by
      cases fixedPackSizeVint with
      | false => exact readVint_pushVint hsize rest
      | true => exact readVint_pushVintFixed hsize rest
    rw [if_pos (by simpa using hpos), if_pos hpos, hread]
    show (if b.packSize.toNat > 2 ^ 63 - 1 then none
      else some ((b.packSize.toNat : Int), rest)) = some (b.packSize, rest)
    rw [if_neg (by omega), Int.toNat_of_nonneg hpos]

theorem readIf_extraSize (extraHeadFlags : Nat) (hextra : (extraArea b).length < 2 ^ 64)
    (rest : List UInt8) :
    readIf (hasFlag (headFlags b extraHeadFlags) hflExtra) 0 readVint
        ((if extraArea b ≠ [] then pushVint (extraArea b).length else []) ++ rest) =
      some ((extraArea b).length, rest) := by
  rw [headFlags_extra]
  by_cases hnone : extraArea b = []
  · rw [hnone]
    rfl
  · rw [if_pos hnone, readIf, if_pos (by simpa using hnone)]
    exact readVint_pushVint hextra rest

/-- Next to the name and the extra area a body has little. -/
theorem fileBody_length_le (b : FileBlock) (extraHeadFlags : Nat) :
    (fileBody b extraHeadFlags false).length ≤ 108 + b.fileName.length + (extraArea b).length := by
  have hvint := pushVint_length_le
  have hif : ∀ (c : Prop) [Decidable c] (bytes : List UInt8) (n : Nat), bytes.length ≤ n →
      (if c then bytes else []).length ≤ n := by
    intro c _ bytes n hle
    split
    · exact hle
    · exact Nat.zero_le n
  have hle := fun n => (writeLe_length 4 n).le
  unfold fileBody packSizeField
  simp only [length_append]
  have h1 := hvint (if b.isService then headService else headFile)
  have h2 := hvint (headFlags b extraHeadFlags)
  have h3 := hif (extraArea b ≠ []) _ 10 (hvint (extraArea b).length)
  have h4 := hif (b.packSize ≥ 0) _ 10 (hvint b.packSize.toNat)
  have h5 := hvint (effFileFlags b)
  have h6 := hvint b.unpSize
  have h7 := hvint b.attributes
  have h8 := hif (hasFlag (effFileFlags b) fhflUtime = true) _ 4 (hle b.utimeUnix)
  have h9 := hif (hasFlag (effFileFlags b) fhflCrc32 = true) _ 4 (hle b.dataCrc32)
  have h10 := hvint (encodeCompInfo b.comp)
  have h11 := hvint b.hostOs
  have h12 := hvint b.fileName.length
  rw [if_neg (show ¬ false = true by decide)]
  omega

/-- **The fixed fields of a written body are read back.** -/
theorem parseFixed_fileBody (hb : Bounded b) {extraHeadFlags : Nat} {fixedPackSizeVint : Bool}
    (hname : b.fileName.length < 2 ^ 64)
    (hextra : (extraArea b).length < 2 ^ 64) :
    parseFixed (fileBody b extraHeadFlags fixedPackSizeVint) =
      some (fixedPart b, (extraArea b).length, extraArea b) := by
  have htype : (if b.isService then headService else headFile) < 2 ^ 64 := by split <;> decide
  have hinfo := lt_trans (encodeCompInfo_lt b.comp) (show 2 ^ 21 < 2 ^ 64 by decide)
  have hhost := lt_trans hb.hostOs (show 2 ^ 32 < 2 ^ 64 by decide)
  have hutime := fun rest => readIf_optional (hasFlag (effFileFlags b) fhflUtime)
    (readField_writeLe 4 hb.utimeUnix rest)
  have hcrc := fun rest => readIf_optional (hasFlag (effFileFlags b) fhflCrc32)
    (readField_writeLe 4 hb.dataCrc32 rest)
  unfold parseFixed fileBody
  rw [readVint_pushVint htype]
  dsimp only [bind_eq_bind, bind_some]
  rw [readVint_pushVint (headFlags_lt b extraHeadFlags)]
  dsimp only [bind_some]
  rw [readIf_extraSize _ hextra]
  dsimp only [bind_some]
  rw [readPackSize_packSizeField hb]
  dsimp only [bind_some]
  rw [readVint_pushVint (effFileFlags_lt hb.fileFlags)]
  dsimp only [bind_some]
  rw [readVint_pushVint hb.unpSize]
  dsimp only [bind_some]
  rw [readVint_pushVint hb.attributes]
  dsimp only [bind_some]
  rw [hutime]
  dsimp only [bind_some]
  rw [hcrc]
  dsimp only [bind_some]
  rw [readVint_pushVint hinfo]
  dsimp only [bind_some]
  rw [readVint_pushVint hhost]
  dsimp only [bind_some]
  rw [readVint_pushVint hname]
  dsimp only [bind_some]
  rw [readBytes_append]
  rw [Nat.mod_eq_of_lt hb.hostOs]
  cases hservice : b.isService with
  | false => simp [fixedPart, hservice, headFile, headService]
  | true => simp [fixedPart, hservice]

end OpenRar.Format
