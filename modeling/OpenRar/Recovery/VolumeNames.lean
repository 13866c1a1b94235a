import Mathlib

/-!
# Names of volumes and recovery volumes

The name handling of `RecoveryWriter::repair_rev_volumes`.  `slotForName` gives the slot
of a volume from its name, `nameForSlot` the name of a missing volume from the name of
any volume that was found, and `revBelongs` anchors recovery volumes at the archive.

A name is a list of characters.  The character classes of the source are taken from the
low byte of a wide character.
-/

namespace OpenRar.Recovery

open List

abbrev FileName := List Char

/-! ## Searching names -/

/-- The positions at which `pat` occurs. -/
def occurrences (pat s : FileName) : List Nat :=
  (List.range (s.length + 1)).filter fun i => pat.isPrefixOf (s.drop i)

/-- `rfind` of a string. -/
def rfind (s pat : FileName) : Option Nat := (occurrences pat s).getLast?

/-- `find` of a string from a position on. -/
def findFrom (s pat : FileName) (start : Nat) : Option Nat :=
  (occurrences pat s).find? (start ≤ ·)

/-- The last dot that has something in front of it. -/
def extensionDot (name : FileName) : Option Nat := (rfind name ['.']).filter (0 < ·)

/-- `path::extension` of a file name. -/
def extensionOf (name : FileName) : FileName :=
  match extensionDot name with
  | some i => name.drop i
  | none => []

/-- `path::stem` of a file name. -/
def stemOf (name : FileName) : FileName :=
  match extensionDot name with
  | some i => name.take i
  | none => name

def partMark : FileName := ['.', 'p', 'a', 'r', 't']

def rarExtension : FileName := ['.', 'r', 'a', 'r']

def exeExtension : FileName := ['.', 'e', 'x', 'e']

def revExtension : FileName := ['.', 'r', 'e', 'v']

/-- The low byte of a wide character. -/
def lowByte (c : Char) : Nat := c.toNat % 256

def isAlphaByte (c : Char) : Bool :=
  (65 ≤ lowByte c && lowByte c ≤ 90) || (97 ≤ lowByte c && lowByte c ≤ 122)

def isDigitByte (c : Char) : Bool := 48 ≤ lowByte c && lowByte c ≤ 57

/-! ## Which files are volumes -/

/-- The extension of a legacy volume: a letter and two digits. -/
def isLegacyExtension : FileName → Bool
  | ['.', letter, d1, d2] => letter.isAlpha && d1.isDigit && d2.isDigit
  | _ => false

/-- The extensions that the scan for data volumes admits. -/
def isVolumeExtension (ext : FileName) : Bool :=
  let uext := ext.map Char.toLower
  uext ≠ revExtension && (uext = rarExtension || uext = exeExtension || isLegacyExtension uext)

/-- A data volume or a recovery volume, by its name. -/
def isVolumeName (name : FileName) : Bool :=
  isVolumeExtension (extensionOf name) || extensionOf name = revExtension

/-- The stem that recovery volumes of the archive carry. -/
def arcStem (arcName : FileName) : FileName :=
  match rfind (stemOf arcName) partMark with
  | some i => (stemOf arcName).take i
  | none => stemOf arcName

/-- A legacy parity name has a suffix of a letter and two digits. -/
def dropSlotSuffix (name : FileName) : FileName :=
  match rfind name ['.'] with
  | none => name
  | some i =>
    match name.drop i with
    | [_, letter, d1, d2] =>
      if isAlphaByte letter && isDigitByte d1 && isDigitByte d2 then name.take i else name
    | _ => name

/-- The lambda `rev_belongs`. -/
def revBelongs (arcName revName : FileName) : Bool :=
  let name :=
    match rfind (stemOf revName) partMark with
    | some i => (stemOf revName).take i
    | none => dropSlotSuffix (stemOf revName)
  name = arcStem arcName || (arcStem arcName ++ ['.']).isPrefixOf name

/-! ## Slots -/

/-- The stem in front of the number and the extension of the archive's own name. -/
def volumeStem (arcName : FileName) : FileName :=
  match rfind arcName partMark with
  | some i =>
    if (findFrom arcName ['.'] (i + 5)).isSome then arcName.take i
    else
      match rfind arcName ['.'] with
      | some d => arcName.take d
      | none => arcName
  | none =>
    match rfind arcName ['.'] with
    | some d => arcName.take d
    | none => arcName

/-- The number that the digits stand for, in 64 bits. -/
def partNumber (digits : FileName) : Nat :=
  digits.foldl (fun num c => (num * 10 + (c.toNat - 48)) % 2 ^ 64) 0

/-- A 64-bit word read as a signed number. -/
def signed64 (n : Nat) : Int := if n < 2 ^ 63 then n else (n : Int) - 2 ^ 64

/-- The slot in a tail `.partNN.` and anything behind it. -/
def partSlot (tail : FileName) : Option Int :=
  match findFrom tail ['.'] 5 with
  | none => none
  | some d =>
    let digits := (tail.take d).drop 5
    if d = 5 ∨ ¬ digits.all isDigitByte then none
    else if partNumber digits = 0 then none
    else some (signed64 (partNumber digits) - 1)

/-- The slot in a tail of a letter and two digits. -/
def legacySlot : FileName → Option Int
  | ['.', letter, d1, d2] =>
    if isAlphaByte letter && isDigitByte d1 && isDigitByte d2 then
      some (((d1.toNat - 48) * 10 + (d2.toNat - 48)) % 2 ^ 32 + 1 : Nat)
    else none
  | _ => none

/-- `slot_for_name`; none if the name does not match. -/
def slotForName (arcName name : FileName) : Option Int :=
  let stem := volumeStem arcName
  if ¬ stem.isPrefixOf name then none
  else
    let tail := name.drop stem.length
    if partMark.isPrefixOf tail then partSlot tail
    else if tail = rarExtension then some 0
    else legacySlot tail

/-- Decimal digits, padded with zeros to a width. -/
def paddedDigits (width n : Nat) : FileName :=
  let digits := Nat.toDigits 10 n
  List.replicate (width - digits.length) '0' ++ digits

/-- The legacy name of a slot, in the pattern of the volume `sample`. -/
def legacyNameForSlot (sample : FileName) (slot : Nat) : FileName :=
  let (stem, ext) :=
    match rfind sample ['.'] with
    | some d => (sample.take d, sample.drop d)
    | none => (sample, [])
  if slot = 0 then (if ext = [] then stem ++ rarExtension else stem ++ ext)
  else
    let letter :=
      match ext with
      | _ :: c :: _ => if c.isAlpha then c else 'r'
      | _ => 'r'
    stem ++ ['.', letter] ++ paddedDigits 2 (slot - 1)

/-- `name_for_slot`: the name under which a missing volume is reconstructed. -/
def nameForSlot (sample : FileName) (slot : Nat) : FileName :=
  match rfind sample partMark with
  | some i =>
    match findFrom sample ['.'] (i + 5) with
    | some d =>
      sample.take (i + 5) ++ paddedDigits (d - (i + 5)) (slot + 1) ++ sample.drop d
    | none => legacyNameForSlot sample slot
  | none => legacyNameForSlot sample slot

/-- The name under which a corrupt volume is kept. -/
def badName (name : FileName) : FileName := name ++ ['.', 'b', 'a', 'd']

/-! ## No volume has the name of a kept one -/

theorem badName_injective : Function.Injective badName := fun _ _ h => append_cancel_right h

@[simp]
theorem getLast?_badName (name : FileName) : (badName name).getLast? = some 'd' := by
  simp [badName]

variable {name pat s : FileName} {i : Nat}

theorem ne_badName (h : name.getLast? ≠ some 'd') (m : FileName) :
    name ≠ badName m := by
  rintro rfl
  exact h (getLast?_badName m)

theorem mem_occurrences (h : i ∈ occurrences pat s) :
    pat <+: s.drop i := by
  simpa using (mem_filter.mp h).2

/-- What a position of a search points at is in the name. -/
theorem lt_length_of_mem_occurrences (hpat : pat ≠ []) (h : i ∈ occurrences pat s) :
    i < s.length := by
  have hle := (mem_occurrences h).length_le
  have hpos := length_pos_iff.mpr hpat
  rw [length_drop] at hle
  omega

theorem mem_of_rfind (h : rfind s pat = some i) :
    i ∈ occurrences pat s := mem_of_getLast? h

theorem mem_of_findFrom {start : Nat} (h : findFrom s pat start = some i) :
    i ∈ occurrences pat s := mem_of_find?_eq_some h

/-- A suffix that is not empty has the last character of the name. -/
theorem getLast?_drop (h : i < s.length) :
    (s.drop i).getLast? = s.getLast? := by
  rw [List.getLast?_drop, if_neg (by omega)]

theorem getLast?_extensionOf (h : extensionOf name ≠ []) :
    (extensionOf name).getLast? = name.getLast? := by
  unfold extensionOf at h ⊢
  split
  · next i hi =>
    obtain ⟨hi, -⟩ := Option.filter_eq_some_iff.mp hi
    exact getLast?_drop (lt_length_of_mem_occurrences (by decide) (mem_of_rfind hi))
  · next hnone => simp [hnone] at h

theorem getLast?_of_isVolumeExtension {ext : FileName} (h : isVolumeExtension ext = true) :
    ext ≠ [] ∧ ext.getLast? ≠ some 'd' := by
  have hlast : ext.getLast? = some 'd' → (ext.map Char.toLower).getLast? = some 'd' := by
    intro hd
    rw [List.getLast?_map, hd]
    decide
  simp only [isVolumeExtension, Bool.and_eq_true, Bool.or_eq_true, decide_eq_true_eq] at h
  refine ⟨?_, fun hd => ?_⟩
  · rintro rfl
    simp [rarExtension, exeExtension, isLegacyExtension] at h
  · have hd' := hlast hd
    obtain ⟨-, (h | h) | h⟩ := h
    · rw [h] at hd'
      simp [rarExtension] at hd'
    · rw [h] at hd'
      simp [exeExtension] at hd'
    · unfold isLegacyExtension at h
      split at h
      · next d2 hext =>
        rw [hext] at hd'
        have : d2 = 'd' := by simpa using hd'
        subst this
        simp at h
      · cases h

theorem getLast?_of_isVolumeName (h : isVolumeName name = true) :
    name.getLast? ≠ some 'd' := by
  simp only [isVolumeName, Bool.or_eq_true, decide_eq_true_eq] at h
  rcases h with h | h
  · obtain ⟨hne, hlast⟩ := getLast?_of_isVolumeExtension h
    rwa [getLast?_extensionOf hne] at hlast
  · rw [← getLast?_extensionOf (by rw [h]; decide), h]
    decide

theorem getLast?_paddedDigits (width n : Nat) : (paddedDigits width n).getLast? ≠ some 'd' := by
  intro h
  rw [paddedDigits, List.getLast?_append_of_ne_nil _ Nat.toDigits_ne_nil] at h
  have hdigit := Nat.isDigit_of_mem_toDigits (by decide) (by decide) (mem_of_getLast? h)
  simp at hdigit

theorem paddedDigits_ne_nil (width n : Nat) : paddedDigits width n ≠ [] := by
  simp [paddedDigits]

/-- A reconstructed volume ends as the volume its name was taken from, or in a digit. -/
theorem getLast?_legacyNameForSlot {sample : FileName} (h : sample.getLast? ≠ some 'd')
    (slot : Nat) : (legacyNameForSlot sample slot).getLast? ≠ some 'd' := by
  unfold legacyNameForSlot
  split
  next stem ext hsplit =>
  have hsample : sample = stem ++ ext := by
    split at hsplit <;> cases hsplit <;> simp
  split
  · split
    · simp [rarExtension]
    · rwa [← hsample]
  · rw [List.getLast?_append_of_ne_nil _ (paddedDigits_ne_nil _ _)]
    exact getLast?_paddedDigits _ _

theorem getLast?_nameForSlot {sample : FileName} (h : sample.getLast? ≠ some 'd')
    (slot : Nat) : (nameForSlot sample slot).getLast? ≠ some 'd' := by
  unfold nameForSlot
  split
  · split
    · next d hd =>
      have hlt := lt_length_of_mem_occurrences (by decide) (mem_of_findFrom hd)
      have hne : sample.drop d ≠ [] := by simpa using hlt
      rwa [List.getLast?_append_of_ne_nil _ hne, getLast?_drop hlt]
    · exact getLast?_legacyNameForSlot h slot
  · exact getLast?_legacyNameForSlot h slot

end OpenRar.Recovery
