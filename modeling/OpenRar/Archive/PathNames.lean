import Mathlib

/-!
# Names of archive entries on disk

`sanitize_archive_path` and the functions under it (`io/path_util.cpp`): an entry's name
becomes a relative path of components that are safe to join onto an extraction root.

A path is the list of its components, and its slashes count them (`length_splitOn`).
-/

namespace OpenRar.Archive

open List

/-- The bytes of a name or of a path. -/
abbrev Name := List UInt8

def ascii (chars : List Char) : Name := chars.map fun c => UInt8.ofNat c.toNat

def slash : UInt8 := 47
def backslash : UInt8 := 92
def dot : UInt8 := 46
def colon : UInt8 := 58
def underscore : UInt8 := 95

def isAlpha (c : UInt8) : Bool := (65 ≤ c && c ≤ 90) || (97 ≤ c && c ≤ 122)

def toLower (c : UInt8) : UInt8 := if 65 ≤ c && c ≤ 90 then c + 32 else c

/-- `normalize_separators` -/
def normalizeSeparators (path : Name) : Name :=
  path.map fun c => if c = backslash then slash else c

/-! ## Undecodable bytes -/

/-- The length that a lead byte announces, `0` for a byte that starts nothing. -/
def utf8Length (lead : UInt8) : Nat :=
  if lead < 0x80 then 1
  else if lead &&& 0xE0 = 0xC0 then 2
  else if lead &&& 0xF0 = 0xE0 then 3
  else if lead &&& 0xF8 = 0xF0 then 4
  else 0

def isContinuation (c : UInt8) : Bool := c &&& 0xC0 = 0x80

/-- The bits of a sequence of `len` bytes put together. -/
def codePoint (len : Nat) (bytes : Name) : Nat :=
  let lead := (bytes.headD 0).toNat % (if len = 2 then 0x20 else if len = 3 then 0x10 else 0x08)
  bytes.tail.foldl (fun v c => v * 64 + c.toNat % 64) lead

def minCodePoint (len : Nat) : Nat :=
  if len = 2 then 0x80 else if len = 3 then 0x800 else if len = 4 then 0x10000 else 0

/-- A well-formed sequence of `len` bytes at the start: complete, neither overlong nor a
surrogate. -/
def validSequence (len : Nat) (s : Name) : Bool :=
  let bytes := s.take len
  let v := codePoint len bytes
  len ≤ s.length && bytes.tail.all isContinuation &&
    !(v < minCodePoint len || v > 0x10FFFF || (0xD800 ≤ v && v ≤ 0xDFFF))

def hexDigit (n : UInt8) : UInt8 := if n < 10 then 48 + n else 55 + n

def percentEscape (c : UInt8) : Name := [37, hexDigit (c >>> 4), hexDigit (c &&& 0xF)]

/-- The loop of `percent_encode_invalid_utf8`; every step takes at least a byte. -/
def percentEncodeFrom : Nat → Name → Name
  | 0, _ => []
  | _ + 1, [] => []
  | fuel + 1, lead :: rest =>
    let s := lead :: rest
    let len := utf8Length lead
    if len = 1 ∨ (1 < len ∧ validSequence len s) then
      s.take len ++ percentEncodeFrom fuel (s.drop len)
    else
      (s.take (max len 1)).flatMap percentEscape ++ percentEncodeFrom fuel (s.drop (max len 1))

/-- `percent_encode_invalid_utf8` -/
def percentEncodeInvalidUtf8 (s : Name) : Name := percentEncodeFrom s.length s

/-! ## Components -/

/-- Control characters and what Win32 forbids in a name. -/
def isForbidden (c : UInt8) : Bool :=
  c < 0x20 || (ascii ['<', '>', '"', '|', '?', '*', ':']).contains c

def isTrimmed (c : UInt8) : Bool := c = dot || c = 32

def reservedNames : List Name :=
  [ascii ['c', 'o', 'n'], ascii ['p', 'r', 'n'], ascii ['a', 'u', 'x'], ascii ['n', 'u', 'l']] ++
    (List.range 10).map (fun i => ascii ['c', 'o', 'm'] ++ [UInt8.ofNat (48 + i)]) ++
    (List.range 10).map (fun i => ascii ['l', 'p', 't'] ++ [UInt8.ofNat (48 + i)]) ++
    [ascii ['c', 'o', 'n', 'i', 'n', '$'], ascii ['c', 'o', 'n', 'o', 'u', 't', '$'],
      ascii ['c', 'l', 'o', 'c', 'k', '$']]

/-- The part of a component that decides whether it names a device. -/
def deviceStem (item : Name) : Name :=
  ((item.takeWhile (· ≠ dot)).rdropWhile isTrimmed).map toLower

/-- `make_safe_component` -/
def makeSafeComponent (item : Name) : Name :=
  let mapped := item.map fun c => if isForbidden c then underscore else c
  let trimmed := mapped.rdropWhile isTrimmed
  if trimmed = [] then [underscore]
  else if reservedNames.contains (deviceStem trimmed) then underscore :: trimmed
  else trimmed

/-- A name that a directory can hold and that says nothing else. -/
structure Proper (c : Name) : Prop where
  ne_nil : c ≠ []
  ne_dot : c ≠ [dot]
  ne_dotdot : c ≠ [dot, dot]
  no_slash : slash ∉ c
  no_zero : 0 ∉ c

theorem proper_iff (c : Name) :
    Proper c ↔ c ≠ [] ∧ c ≠ [dot] ∧ c ≠ [dot, dot] ∧ slash ∉ c ∧ 0 ∉ c :=
  ⟨fun h => ⟨h.ne_nil, h.ne_dot, h.ne_dotdot, h.no_slash, h.no_zero⟩,
    fun ⟨h₁, h₂, h₃, h₄, h₅⟩ => ⟨h₁, h₂, h₃, h₄, h₅⟩⟩

instance : DecidablePred Proper := fun c => decidable_of_iff _ (proper_iff c).symm

/-! ## Paths -/

/-- One component of an archive path onto those so far. -/
def pushComponent (parts : List Name) (item : Name) : List Name :=
  if item = [] ∨ item = [dot] then parts
  else if item = [dot, dot] then parts.dropLast
  else parts ++ [makeSafeComponent (percentEncodeInvalidUtf8 item)]

def stripDrive (path : Name) : Name :=
  match path with
  | a :: b :: rest => if isAlpha a && b = colon then rest else path
  | _ => path

/-- The components that `sanitize_archive_path` keeps. -/
def sanitizeComponents (path : Name) : List Name :=
  let relative := (stripDrive (normalizeSeparators path)).dropWhile (· = slash)
  (relative.splitOn slash).foldl pushComponent []

def joinComponents (parts : List Name) : Name := [slash].intercalate parts

/-- `sanitize_archive_path` -/
def sanitizeArchivePath (path : Name) : Name := joinComponents (sanitizeComponents path)

/-- `sanitized_name_depth` -/
def sanitizedNameDepth (arcName : Name) : Nat :=
  let rel := sanitizeArchivePath arcName
  if rel = [] then 0 else rel.count slash + 1

variable {parts : List Name}

theorem not_mem_of_mem_splitOn (s : Name) : ∀ item ∈ s.splitOn slash, slash ∉ item := by
  unfold List.splitOn
  induction s with
  | nil => simp
  | cons c s ih =>
    rw [splitOnP_cons_eq_if_modifyHead]
    split
    · exact forall_mem_cons.mpr ⟨not_mem_nil, ih⟩
    · next hc =>
      cases hrest : s.splitOnP (· == slash) with
      | nil => exact fun item hitem => absurd hitem not_mem_nil
      | cons first rest =>
        rw [hrest, forall_mem_cons] at ih
        have hne : c ≠ slash := by simpa using hc
        exact forall_mem_cons.mpr ⟨not_mem_cons_of_ne_of_not_mem hne.symm ih.1, ih.2⟩

theorem length_splitOn (s : Name) : (s.splitOn slash).length = s.count slash + 1 := by
  unfold List.splitOn
  induction s with
  | nil => simp
  | cons c s ih =>
    rw [splitOnP_cons_eq_if_modifyHead, count_cons]
    split <;> simp [ih]

/-! ## Joining and splitting -/

theorem splitOn_joinComponents (hne : parts ≠ []) (hparts : ∀ c ∈ parts, slash ∉ c) :
    (joinComponents parts).splitOn slash = parts :=
  splitOn_intercalate slash hparts hne

theorem joinComponents_cons_cons (c d : Name) (parts : List Name) :
    joinComponents (c :: d :: parts) = c ++ slash :: joinComponents (d :: parts) := by
  simp [joinComponents]

theorem joinComponents_concat (parts : List Name) (c s : Name) :
    joinComponents (parts ++ [c]) ++ s = joinComponents (parts ++ [c ++ s]) := by
  induction parts with
  | nil => simp [joinComponents]
  | cons d parts ih =>
    cases parts with
    | nil => simp [joinComponents]
    | cons e parts =>
      simp only [cons_append] at ih ⊢
      rw [joinComponents_cons_cons, joinComponents_cons_cons, ← ih]
      simp

/-! ## Every component is safe to join onto a root -/

theorem slash_not_mem_percentEscape (c : UInt8) : slash ∉ percentEscape c := by
  revert c
  decide +kernel

theorem slash_not_mem_percentEncodeFrom (fuel : Nat) {s : Name} (hs : slash ∉ s) :
    slash ∉ percentEncodeFrom fuel s := by
  induction fuel generalizing s with
  | zero => exact not_mem_nil
  | succ fuel ih =>
    cases s with
    | nil => exact not_mem_nil
    | cons lead rest =>
      have hdrop : ∀ k, slash ∉ (lead :: rest).drop k := fun k h => hs (mem_of_mem_drop h)
      rw [percentEncodeFrom]
      split
      · exact not_mem_append (fun h => hs (mem_of_mem_take h)) (ih (hdrop _))
      · refine not_mem_append (fun h => ?_) (ih (hdrop _))
        obtain ⟨c, -, hc⟩ := mem_flatMap.mp h
        exact slash_not_mem_percentEscape c hc

/-- A last byte that is no dot rules out `.` and `..`. -/
theorem Proper.of_getLast {c : Name} (hne : c ≠ []) (hlast : c.getLast hne ≠ dot)
    (hslash : slash ∉ c) (hzero : 0 ∉ c) : Proper c where
  ne_nil := hne
  ne_dot := by
    rintro rfl
    exact hlast rfl
  ne_dotdot := by
    rintro rfl
    exact hlast rfl
  no_slash := hslash
  no_zero := hzero

theorem Proper.append {c s : Name} (h : Proper c) (hslash : slash ∉ s) (hzero : 0 ∉ s) :
    Proper (c ++ s) where
  ne_nil := append_ne_nil_of_left_ne_nil h.ne_nil s
  ne_dot heq := by
    rcases append_eq_singleton_iff.mp heq with ⟨hc, -⟩ | ⟨hc, -⟩
    · exact h.ne_nil hc
    · exact h.ne_dot hc
  ne_dotdot heq := by
    obtain _ | ⟨a, _ | ⟨b, c⟩⟩ := c
    · exact h.ne_nil rfl
    · exact h.ne_dot (congrArg (·.take 1) heq)
    · exact h.ne_dotdot (by simp_all)
  no_slash := not_mem_append h.no_slash hslash
  no_zero := not_mem_append h.no_zero hzero

theorem proper_makeSafeComponent {item : Name} (hslash : slash ∉ item) :
    Proper (makeSafeComponent item) := by
  unfold makeSafeComponent
  dsimp only
  set mapped := item.map fun c => if isForbidden c then underscore else c with hmapped
  have hbytes : slash ∉ mapped ∧ 0 ∉ mapped := by
    constructor <;> rw [hmapped, mem_map] <;> rintro ⟨c, hc, heq⟩ <;> split at heq
    · exact absurd heq (by decide)
    · exact hslash (heq ▸ hc)
    · exact absurd heq (by decide)
    · next hforbidden => exact hforbidden (heq ▸ by decide)
  have hsub := IsPrefix.subset ( rdropWhile_prefix isTrimmed mapped)
  split
  · exact .of_getLast (by simp) (by decide) (by decide) (by decide)
  next hne =>
  -- what is left does not end in a dot
  have hplain : Proper (mapped.rdropWhile isTrimmed) := by
    refine .of_getLast hne (fun heq => ?_) (fun h => hbytes.1 (hsub h)) fun h => hbytes.2 (hsub h)
    have hkept := rdropWhile_last_not isTrimmed mapped hne
    rw [heq] at hkept
    exact hkept (by decide)
  split
  · exact Proper.append (c := [underscore]) (by decide) hplain.no_slash hplain.no_zero
  · exact hplain

theorem sanitizeComponents_proper (path : Name) : ∀ c ∈ sanitizeComponents path, Proper c := by
  refine foldlRecOn (motive := fun parts => ∀ c ∈ parts, Proper c) _ _
    (fun c hc => absurd hc not_mem_nil) fun parts hparts item hitem c hc => ?_
  unfold pushComponent at hc
  split at hc
  · exact hparts c hc
  split at hc
  · exact hparts c (mem_of_mem_dropLast hc)
  rcases mem_append.mp hc with hc | hc
  · exact hparts c hc
  · rw [mem_singleton.mp hc]
    exact proper_makeSafeComponent
      (slash_not_mem_percentEncodeFrom _ (not_mem_of_mem_splitOn _ item hitem))

/-! ## Short-name aliases -/

/-- `is_83_alias_component` -/
def is83AliasComponent (component : Name) : Bool :=
  let stem := component.takeWhile (· ≠ dot)
  (stem.zip stem.tail).any fun (a, b) => a = 126 && 48 ≤ b && b ≤ 57

/-- `path_has_83_component` -/
def pathHas83Component (rel : Name) : Bool := (rel.splitOn slash).any is83AliasComponent

end OpenRar.Archive
