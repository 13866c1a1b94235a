import OpenRar.Recovery.VolumeNames

/-!
# The chain of volume names

`next_volume_name` and `vol_name_to_first_name`.  With part numbers the last run of digits
is counted up, and grows when it is full; in the legacy scheme the extension runs from
`r00` to `z99`.  The way back writes a one into a run of the width it finds, so it misses
the first volume once the run has grown (`namesFrom_iff`).

The functions work on the last component of a path and put the directory in front again.
-/

namespace OpenRar.Archive

open OpenRar.Recovery List

/-! ## Names and their parts -/

/-- The name up to its last dot, and the rest. -/
def splitDot (name : FileName) : FileName × FileName :=
  match rfind name ['.'] with
  | some d => (name.take d, name.drop d)
  | none => (name, [])

/-- The extension that a volume gets before it is numbered. -/
def withVolumeExtension (name : FileName) : FileName :=
  let ext := extensionOf name
  let lowerExt := ext.map Char.toLower
  if ext = [] then name ++ rarExtension
  else if name.getLast? = some '.' then name ++ ['r', 'a', 'r']
  else if lowerExt = exeExtension ∨ lowerExt = ['.', 's', 'f', 'x'] then stemOf name ++ rarExtension
  else name

/-- The last run of digits, with what stands before and behind it. -/
def lastRun (name : FileName) : FileName × FileName × FileName :=
  let rest := name.reverse.dropWhile (! ·.isDigit)
  ((rest.dropWhile Char.isDigit).reverse, (rest.takeWhile Char.isDigit).reverse,
    (name.reverse.takeWhile (! ·.isDigit)).reverse)

/-- The loop that adds the carry, from the last digit on. -/
def addCarry : FileName → Nat → FileName × Nat
  | [], carry => ([], carry)
  | c :: digits, carry =>
    let d := (c.toNat - 48) + carry
    let rest := addCarry digits (d / 10)
    (Char.ofNat (48 + d % 10) :: rest.1, rest.2)

def nextDigits (digits : FileName) : FileName :=
  let sum := addCarry digits.reverse 1
  if sum.2 ≠ 0 then '1' :: sum.1.reverse else sum.1.reverse

/-- The legacy loop over an extension, from its last character on: digits are counted up
while there is a carry, and other characters are passed over. -/
def bumpDigits : FileName → FileName × Bool
  | [] => ([], true)
  | c :: more =>
    if '0' ≤ c ∧ c ≤ '9' then
      if c.toNat - 48 + 1 < 10 then (Char.ofNat (c.toNat + 1) :: more, false)
      else ('0' :: (bumpDigits more).1, (bumpDigits more).2)
    else (c :: (bumpDigits more).1, (bumpDigits more).2)

/-- The legacy extension behind `ext`; none where the scheme ends. -/
def nextExtension (ext : FileName) : Option FileName :=
  match ext.reverse with
  | d2 :: d1 :: _ =>
    if d1.isDigit ∧ d2.isDigit then
      let sum := bumpDigits ext.reverse
      if sum.2 = false then some sum.1.reverse
      else
        match sum.1.reverse with
        | letter :: digits =>
          if letter < 'a' ∨ 'z' ≤ letter then none
          else some (Char.ofNat (letter.toNat + 1) :: digits)
        | [] => none
    else some ['r', '0', '0']
  | _ => some ['r', '0', '0']

def nextVolumeName (oldNumbering : Bool) (name : FileName) : FileName :=
  if oldNumbering then
    match nextExtension ((splitDot name).2.drop 1) with
    | some ext => (splitDot name).1 ++ '.' :: ext
    | none => name
  else
    let fname := withVolumeExtension name
    let run := lastRun fname
    if run.2.1 = [] then
      (splitDot fname).1 ++ (partMark ++ ['0', '1']) ++ (splitDot fname).2
    else run.1 ++ nextDigits run.2.1 ++ run.2.2

/-- The digits of the first volume, in a given width. -/
def firstDigits (width : Nat) : FileName := List.replicate (width - 1) '0' ++ ['1']

/-- `vol_name_to_first_name`; `present` says which files there are. -/
def volNameToFirstName (present : FileName → Bool) (oldNumbering : Bool) (name : FileName) :
    FileName :=
  if oldNumbering then (splitDot name).1 ++ rarExtension
  else
    let run := lastRun name
    if run.2.1 = [] then
      let fname := splitDot (withVolumeExtension name)
      let candidates := [1, 2, 3, 4, 5].map fun w =>
        fname.1 ++ (partMark ++ firstDigits w) ++ fname.2
      (candidates.find? present).getD (fname.1 ++ (partMark ++ firstDigits 2) ++ fname.2)
    else run.1 ++ firstDigits run.2.1.length ++ run.2.2

/-! ## Dots -/

theorem rfind_dot (base : FileName) {ext : FileName} (hext : '.' ∉ ext) :
    rfind (base ++ '.' :: ext) ['.'] = some base.length := by
  have hlen : (base ++ '.' :: ext).length + 1 = base.length + 1 + (ext.length + 1) := by
    simp only [length_append, length_cons]
    omega
  unfold rfind occurrences
  rw [hlen, range_add, filter_append, range_succ, filter_append]
  have hlast : [base.length].filter (fun i => ['.'].isPrefixOf ((base ++ '.' :: ext).drop i))
      = [base.length] := by
    simp
  have hnone : ((List.range (ext.length + 1)).map (base.length + 1 + ·)).filter
      (fun i => ['.'].isPrefixOf ((base ++ '.' :: ext).drop i)) = [] := by
    rw [filter_eq_nil_iff]
    intro i hi hdot
    obtain ⟨j, -, rfl⟩ := mem_map.mp hi
    rw [Nat.add_assoc, drop_append, Nat.add_sub_cancel_left,
      drop_eq_nil_of_le (Nat.le_add_right _ _), nil_append, Nat.add_comm 1 j,
      drop_succ_cons, isPrefixOf_iff_prefix] at hdot
    exact hext (mem_of_mem_drop (hdot.subset mem_cons_self))
  rw [hlast, hnone, append_nil, List.getLast?_concat]

theorem splitDot_append (base : FileName) {ext : FileName} (hext : '.' ∉ ext) :
    splitDot (base ++ '.' :: ext) = (base, '.' :: ext) := by
  rw [splitDot, rfind_dot base hext]
  simp

/-! ## Part numbers -/

/-- The number that digits stand for, the least significant one first. -/
def digitsValue (digits : FileName) : Nat := Nat.ofDigits 10 (digits.map (·.toNat - 48))

theorem ofNat_digit : ∀ d < 10, (Char.ofNat (48 + d)).isDigit ∧
    (Char.ofNat (48 + d)).toNat - 48 = d := by
  decide

theorem digitsValue_lt (digits : FileName) (h : ∀ c ∈ digits, c.isDigit) :
    digitsValue digits < 10 ^ digits.length := by
  have hbound := Nat.ofDigits_lt_base_pow_length (b := 10) (l := digits.map (·.toNat - 48))
    (by decide) (fun d hd => by
      obtain ⟨c, hc, rfl⟩ := mem_map.mp hd
      have hdigit := h c hc
      simp only [Char.isDigit, Bool.and_eq_true, decide_eq_true_eq] at hdigit
      have : c.toNat ≤ 57 := hdigit.2
      omega)
  rwa [length_map] at hbound

theorem addCarry_spec (digits : FileName) (carry : Nat) :
    (addCarry digits carry).1.length = digits.length ∧
      (∀ c ∈ (addCarry digits carry).1, c.isDigit) ∧
      digitsValue (addCarry digits carry).1 + 10 ^ digits.length * (addCarry digits carry).2
        = digitsValue digits + carry := by
  induction digits generalizing carry with
  | nil => simp [addCarry]
  | cons c digits ih =>
    obtain ⟨hlen, hdigits, hvalue⟩ := ih ((c.toNat - 48 + carry) / 10)
    obtain ⟨hdigit, hd⟩ := ofNat_digit _ (Nat.mod_lt (c.toNat - 48 + carry) (by decide))
    simp only [addCarry, length_cons, digitsValue, map_cons, Nat.ofDigits_cons] at *
    refine ⟨by rw [hlen], ?_, ?_⟩
    · intro x hx
      rcases mem_cons.mp hx with rfl | hx
      · exact hdigit
      · exact hdigits x hx
    · rw [pow_succ, Nat.mul_comm (10 ^ digits.length) 10, Nat.mul_assoc]
      omega

/-- The digits of a part number: a run of a width that is full once it has grown. -/
structure PartDigits (width number : Nat) (digits : FileName) : Prop where
  digit : ∀ c ∈ digits, c.isDigit
  value : digitsValue digits.reverse = number
  wide : width ≤ digits.length
  pos : 0 < width
  full : digits.length = width ∨ 10 ^ (digits.length - 1) ≤ number

section

variable {width number : Nat} {digits : FileName}

theorem PartDigits.length_iff (h : PartDigits width number digits) :
    digits.length = width ↔ number < 10 ^ width := by
  have hlt := digitsValue_lt digits.reverse (by simpa using h.digit)
  rw [h.value, length_reverse] at hlt
  constructor
  · rintro rfl
    exact hlt
  · intro hvalue
    rcases h.full with hfull | hfull
    · exact hfull
    · have hpow := (Nat.pow_lt_pow_iff_right (by decide)).mp (lt_of_le_of_lt hfull hvalue)
      have := h.wide
      omega

theorem PartDigits.next (h : PartDigits width number digits) :
    PartDigits width (number + 1) (nextDigits digits) := by
  obtain ⟨hlen, hdigit, hsum⟩ := addCarry_spec digits.reverse 1
  have hlt := digitsValue_lt digits.reverse (by simpa using h.digit)
  obtain ⟨hold, hvalue, hwide, hpos, hfull⟩ := h
  rw [length_reverse] at hlen hlt hsum
  rw [hvalue] at hsum hlt
  unfold nextDigits
  dsimp only
  split
  · next hcarry =>
    -- A carry out of the run is one, since the run held its value.
    have hone : (addCarry digits.reverse 1).2 = 1 := by
      have hle : 10 ^ digits.length * (addCarry digits.reverse 1).2 ≤ 10 ^ digits.length * 1 := by
        omega
      have := Nat.le_of_mul_le_mul_left hle (by positivity)
      omega
    rw [hone, Nat.mul_one] at hsum
    refine ⟨?_, ?_, ?_, hpos, Or.inr ?_⟩
    · simpa using hdigit
    · rw [← hsum, reverse_cons, reverse_reverse, digitsValue, map_append,
        Nat.ofDigits_append, length_map, hlen]
      simp [digitsValue]
    · simp only [length_cons, length_reverse]
      omega
    · simp only [length_cons, length_reverse, hlen, Nat.add_sub_cancel]
      omega
  · next hcarry =>
    rw [not_ne_iff.mp hcarry, Nat.mul_zero, Nat.add_zero] at hsum
    refine ⟨by simpa using hdigit, by rw [reverse_reverse, hsum], ?_, hpos, ?_⟩
    · rwa [length_reverse, hlen]
    · rw [length_reverse, hlen]
      omega

/-- A name with a part number. -/
def partName (stem digits : FileName) : FileName := stem ++ partMark ++ digits ++ rarExtension

theorem lastRun_partName (stem : FileName) (h : ∀ c ∈ digits, c.isDigit) (hne : digits ≠ []) :
    lastRun (partName stem digits) = (stem ++ partMark, digits, rarExtension) := by
  have hreverse : (partName stem digits).reverse
      = rarExtension.reverse ++ (digits.reverse ++ (partMark.reverse ++ stem.reverse)) := by
    simp [partName]
  have hback : ∀ c ∈ digits.reverse, c.isDigit := by simpa using h
  have htail : ∀ c ∈ rarExtension.reverse, (! c.isDigit) = true := by simp [rarExtension]
  obtain ⟨c, more, hcons⟩ : ∃ c more, digits.reverse = c :: more :=
    exists_cons_of_ne_nil (by simpa using hne)
  have hstart : (digits.reverse ++ (partMark.reverse ++ stem.reverse)).dropWhile (! ·.isDigit)
      = digits.reverse ++ (partMark.reverse ++ stem.reverse) ∧
      (digits.reverse ++ (partMark.reverse ++ stem.reverse)).takeWhile (! ·.isDigit) = [] := by
    have hc : c.isDigit = true := hback c (by rw [hcons]; exact mem_cons_self)
    rw [hcons, cons_append, dropWhile_cons, takeWhile_cons]
    simp [hc]
  have hmark : (partMark.reverse ++ stem.reverse).dropWhile Char.isDigit
      = partMark.reverse ++ stem.reverse ∧
      (partMark.reverse ++ stem.reverse).takeWhile Char.isDigit = [] := by simp [partMark]
  unfold lastRun
  rw [hreverse, dropWhile_append_of_pos htail, takeWhile_append_of_pos htail, hstart.1,
    hstart.2]
  dsimp only
  rw [dropWhile_append_of_pos hback, takeWhile_append_of_pos hback, hmark.1,
    hmark.2]
  simp

/-- One step along the part numbers. -/
theorem nextVolumeName_partName (stem : FileName) (h : PartDigits width number digits) :
    nextVolumeName false (partName stem digits) = partName stem (nextDigits digits) := by
  have hname : partName stem digits = (stem ++ partMark ++ digits) ++ '.' :: ['r', 'a', 'r'] := rfl
  have hext : extensionOf (partName stem digits) = rarExtension := by
    have hpos : 0 < (stem ++ partMark ++ digits).length := by
      simp [partMark]
    rw [extensionOf, extensionDot, hname, rfind_dot _ (by decide), Option.filter_some,
      if_pos (by simpa using hpos)]
    exact drop_left
  have hkeep : withVolumeExtension (partName stem digits) = partName stem digits := by
    unfold withVolumeExtension
    rw [hext, if_neg (by decide), if_neg (by simp [partName, rarExtension]), if_neg (by decide)]
  have hne : digits ≠ [] := by
    have := h.pos.trans_le h.wide
    exact ne_nil_of_length_pos this
  simp only [nextVolumeName, hkeep, lastRun_partName stem h.digit hne, if_neg hne]
  rfl

/-- The digits behind so many steps. -/
theorem partDigits_iterate (stem : FileName) (zeros k : Nat) :
    ∃ digits, (nextVolumeName false)^[k] (partName stem (firstDigits (zeros + 1)))
        = partName stem digits ∧ PartDigits (zeros + 1) (k + 1) digits := by
  induction k with
  | zero =>
    refine ⟨_, rfl, ?_, ?_, ?_, Nat.succ_pos zeros, Or.inl ?_⟩
    · intro c hc
      simp only [firstDigits, mem_append, mem_replicate, mem_singleton] at hc
      rcases hc with ⟨-, rfl⟩ | rfl <;> decide
    · simp [firstDigits, digitsValue, Nat.ofDigits_cons]
    · simp [firstDigits]
    · simp [firstDigits]
  | succ k ih =>
    obtain ⟨digits, hname, hdigits⟩ := ih
    exact ⟨_, by rw [Function.iterate_succ_apply', hname, nextVolumeName_partName stem hdigits],
      hdigits.next⟩

end

/-! ## Legacy extensions -/

/-- The extension behind so many steps. -/
def legacyExtension (i : Nat) : FileName :=
  if i = 0 then ['r', 'a', 'r']
  else [Char.ofNat (114 + (i - 1) / 100), Nat.digitChar ((i - 1) / 10 % 10),
    Nat.digitChar ((i - 1) % 10)]

/-- The number of steps to an extension. -/
def legacyIndex : FileName → Nat
  | [letter, d1, d2] =>
    if d1.isDigit then (letter.toNat - 114) * 100 + (d1.toNat - 48) * 10 + (d2.toNat - 48) + 1
    else 0
  | _ => 0

theorem legacyExtension_spec : ∀ i < 901, legacyIndex (legacyExtension i) = i ∧
    '.' ∉ legacyExtension i ∧
    (i < 900 → nextExtension (legacyExtension i) = some (legacyExtension (i + 1))) := by
  decide +kernel

theorem legacy_iterate (stem : FileName) {k : Nat} (hk : k < 901) :
    (nextVolumeName true)^[k] (stem ++ '.' :: legacyExtension 0)
      = stem ++ '.' :: legacyExtension k := by
  induction k with
  | zero => rfl
  | succ k ih =>
    obtain ⟨-, hdot, hnext⟩ := legacyExtension_spec k (by omega)
    rw [Function.iterate_succ_apply', ih (by omega)]
    unfold nextVolumeName
    rw [if_pos rfl, splitDot_append stem hdot]
    rw [drop_one, tail_cons, hnext (by omega)]

/-! ## The chain and the way back -/

/-- The first volume of a set: a part number of one behind zeros, or the legacy name. -/
inductive FirstName where
  | parts (stem : FileName) (zeros : Nat)
  | legacy (stem : FileName)

namespace FirstName

def oldNumbering : FirstName → Bool
  | parts _ _ => false
  | legacy _ => true

def name : FirstName → FileName
  | parts stem zeros => partName stem (firstDigits (zeros + 1))
  | legacy stem => stem ++ rarExtension

/-- The legacy scheme has names for 900 volumes behind the first. -/
def InScheme : FirstName → Nat → Prop
  | parts _ _, _ => True
  | legacy _, k => k ≤ 900

/-- The number of the last volume fits into the digits of the first. -/
def Fits : FirstName → Nat → Prop
  | parts _ zeros, k => k + 1 < 10 ^ (zeros + 1)
  | legacy _, _ => True

end FirstName

/-- The first `k` names behind `first` are distinct, and the last leads back to it. -/
structure NamesFrom (present : FileName → Bool) (oldNumbering : Bool) (first : FileName)
    (k : Nat) : Prop where
  distinct : Set.InjOn (fun i => (nextVolumeName oldNumbering)^[i] first) (Set.Iic k)
  back : volNameToFirstName present oldNumbering ((nextVolumeName oldNumbering)^[k] first) = first

/-- **Names are distinct and lead back to the first volume, exactly as long as the part
number does not outgrow the digits of the first volume.** -/
theorem namesFrom_iff (present : FileName → Bool) (first : FirstName) (k : Nat)
    (hk : first.InScheme k) :
    NamesFrom present first.oldNumbering first.name k ↔ first.Fits k := by
  cases first with
  | parts stem zeros =>
    have hdistinct : Set.InjOn
        (fun i => (nextVolumeName false)^[i] (partName stem (firstDigits (zeros + 1))))
        (Set.Iic k) := by
      intro i _ j _ hij
      obtain ⟨di, hi, hdi⟩ := partDigits_iterate stem zeros i
      obtain ⟨dj, hj, hdj⟩ := partDigits_iterate stem zeros j
      have hnames : partName stem di = partName stem dj := by rw [← hi, ← hj]; exact hij
      have heq := append_cancel_left (append_cancel_right hnames)
      have hvalue := hdi.value
      rw [heq, hdj.value] at hvalue
      omega
    obtain ⟨digits, hname, hdigits⟩ := partDigits_iterate stem zeros k
    have hne : digits ≠ [] := ne_nil_of_length_pos (hdigits.pos.trans_le hdigits.wide)
    have hback : volNameToFirstName present false (partName stem digits)
        = partName stem (firstDigits digits.length) := by
      unfold volNameToFirstName
      rw [lastRun_partName stem hdigits.digit hne]
      simp [hne, partName]
    have hwidth : partName stem (firstDigits digits.length)
        = partName stem (firstDigits (zeros + 1)) ↔ digits.length = zeros + 1 := by
      refine ⟨fun h => ?_, fun h => by rw [h]⟩
      have hlen := congrArg List.length h
      simp only [partName, firstDigits, length_append, length_replicate] at hlen
      have := hdigits.wide
      omega
    show NamesFrom present false (partName stem (firstDigits (zeros + 1))) k ↔ _
    refine Iff.trans ⟨fun h => ?_, fun h => ⟨hdistinct, ?_⟩⟩ (hwidth.trans hdigits.length_iff)
    · rw [← hback, ← hname]
      exact h.back
    · rw [hname, hback, h]
  | legacy stem =>
    have hle : k < 901 := Nat.lt_succ_of_le hk
    refine ⟨fun _ => trivial, fun _ => ⟨?_, ?_⟩⟩
    · intro i hi j hj hij
      have hi' : i < 901 := lt_of_le_of_lt hi hle
      have hj' : j < 901 := lt_of_le_of_lt hj hle
      have hnames : stem ++ '.' :: legacyExtension i = stem ++ '.' :: legacyExtension j := by
        rw [← legacy_iterate stem hi', ← legacy_iterate stem hj']
        exact hij
      have hext := (List.cons.inj (append_cancel_left hnames)).2
      rw [← (legacyExtension_spec i hi').1, hext, (legacyExtension_spec j hj').1]
    · show volNameToFirstName present true
        ((nextVolumeName true)^[k] (stem ++ '.' :: legacyExtension 0)) = _
      rw [legacy_iterate stem hle, volNameToFirstName, if_pos rfl,
        splitDot_append stem (legacyExtension_spec k hle).2.1]
      rfl

/-- Nine parts with one digit lead back to the first. -/
theorem namesFrom_nine :
    NamesFrom (fun _ => false) false (partName ['a'] ['1']) 8 :=
  (namesFrom_iff (fun _ => false) (.parts ['a'] 0) 8 trivial).mpr
    (show 8 + 1 < 10 ^ (0 + 1) by decide)

/-- The tenth part of such a set does not. -/
theorem not_namesFrom_ten : ¬ NamesFrom (fun _ => false) false (partName ['a'] ['1']) 9 :=
  fun h => absurd h.back (by decide +kernel)

end OpenRar.Archive
