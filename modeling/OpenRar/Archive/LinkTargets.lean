import OpenRar.Archive.PathNames
import OpenRar.Foundation.FileTree

/-!
# Targets of redirections

The checks of `archive_reader.cpp` on the target of a link, a hard link or a copy, and
what the file system makes of the same bytes.  The checks split at slashes and
backslashes and read the whole string; a system call splits at slashes only and ends at
the first zero byte.

`resolveUnderRoot_solid` and `solid_path` say how the two readings of a copy's source are
related: the file system reads names, the last of them possibly cut.
-/

namespace OpenRar.Archive

open FileTree List

/-! ## The reading of the checks -/

/-- `strip_trailing_slashes` -/
def stripTrailingSlashes (p : Name) : Name := p.rdropWhile fun c => c = slash || c = backslash

/-- The mark of a native path, `\??\`. -/
def nativeMark : Name := [backslash, 63, 63, backslash]

/-- `is_full_path` -/
def isFullPath (p : Name) : Bool :=
  match normalizeSeparators p with
  | [] => false
  | c :: rest => c = slash || (isAlpha c && rest.head? = some colon) || nativeMark.isPrefixOf p

/-- `calc_allowed_depth` -/
def calcAllowedDepth (arcName : Name) : Nat := sanitizedNameDepth arcName - 1

/-- The loop of `is_relative_symlink_safe` from the level `cur` on. -/
def staysAbove : Nat → List Name → Bool
  | _, [] => true
  | cur, comp :: rest =>
    if comp = [] ∨ comp = [dot] then staysAbove cur rest
    else if comp = [dot, dot] then
      match cur with
      | 0 => false
      | cur + 1 => staysAbove cur rest
    else staysAbove (cur + 1) rest

/-- `is_relative_symlink_safe` -/
def isRelativeSymlinkSafe (arcName target : Name) : Bool :=
  staysAbove (calcAllowedDepth arcName)
    ((normalizeSeparators (stripTrailingSlashes target)).splitOn slash)

/-- One component of a target onto the path below the root. -/
def resolveStep (stack : List Name) (comp : Name) : Option (List Name) :=
  if comp = [] ∨ comp = [dot] then some stack
  else if comp = [dot, dot] then if stack = [] then none else some stack.dropLast
  else some (stack ++ [comp])

/-- `resolve_under_root`, the part below the root: nothing for a target that is absolute,
climbs out or is the root itself. -/
def resolveUnderRoot (rel : Name) : Option (List Name) :=
  if rel.head? = some slash then none
  else
    let comps := (normalizeSeparators (stripTrailingSlashes rel)).splitOn slash
    (comps.foldlM resolveStep []).filter (· ≠ [])

/-! ## The reading of the file system -/

/-- What a component says to the file system. -/
def osComponent (comp : Name) : Component Name :=
  if comp = [] ∨ comp = [dot] then .here
  else if comp = [dot, dot] then .up
  else .name comp

/-- The bytes that reach a system call. -/
def osText (text : Name) : Name := text.takeWhile (· ≠ 0)

/-- The components of a path text. -/
def pathComponents (text : Name) : List (Component Name) :=
  ((osText text).splitOn slash).map osComponent

/-- A symbolic link with a given text. -/
def linkTarget (text : Name) : Target Name where
  absolute := (osText text).head? = some slash
  components := pathComponents text

variable {c : Name} {comps : List Name}

theorem osText_eq_self (h : 0 ∉ c) : osText c = c := by
  unfold osText
  rw [takeWhile_eq_self_iff]
  intro b hb
  exact decide_eq_true fun heq => h (heq ▸ hb)

/-! ## Sources of copies -/

/-- A component of a resolved target: a name, up to a zero byte it may hold. -/
structure Solid (c : Name) : Prop where
  ne_nil : c ≠ []
  ne_dot : c ≠ [dot]
  ne_dotdot : c ≠ [dot, dot]
  no_slash : slash ∉ c

variable {stack stack' : List Name}

theorem resolveStep_solid {comp : Name} (hstack : ∀ c ∈ stack, Solid c) (hcomp : slash ∉ comp)
    (h : resolveStep stack comp = some stack') : ∀ c ∈ stack', Solid c := by
  unfold resolveStep at h
  split at h
  · cases h
    exact hstack
  · next hhere =>
    split at h
    · split at h
      · cases h
      · cases h
        exact fun c hc => hstack c (mem_of_mem_dropLast hc)
    · next hup =>
      cases h
      intro c hc
      rcases mem_append.mp hc with hc | hc
      · exact hstack c hc
      · rw [mem_singleton.mp hc]
        exact ⟨fun h => hhere (.inl h), fun h => hhere (.inr h), hup, hcomp⟩

theorem foldlM_resolveStep_solid (hcomps : ∀ c ∈ comps, slash ∉ c) (hstack : ∀ c ∈ stack, Solid c)
    (h : comps.foldlM resolveStep stack = some stack') : ∀ c ∈ stack', Solid c := by
  induction comps generalizing stack with
  | nil =>
    cases h
    exact hstack
  | cons comp comps ih =>
    obtain ⟨next, hnext, h⟩ := Option.bind_eq_some_iff.mp h
    exact ih (fun c hc => hcomps c (mem_cons_of_mem _ hc))
      (resolveStep_solid hstack (hcomps comp mem_cons_self) hnext) h

theorem resolveUnderRoot_solid {target : Name} {rel : List Name}
    (h : resolveUnderRoot target = some rel) : rel ≠ [] ∧ ∀ c ∈ rel, Solid c := by
  unfold resolveUnderRoot at h
  split at h
  · cases h
  · obtain ⟨hfold, hne⟩ := Option.filter_eq_some_iff.mp h
    refine ⟨by simpa using hne, ?_⟩
    exact foldlM_resolveStep_solid (not_mem_of_mem_splitOn _)
      (fun _ hc => absurd hc not_mem_nil) hfold

/-- The components up to the one that holds a zero byte, which is cut there. -/
def cutAtZero : List Name → List Name
  | [] => []
  | c :: rest => if 0 ∈ c then [osText c] else c :: cutAtZero rest

theorem osText_append_of_mem (h : 0 ∈ c) (rest : Name) :
    osText (c ++ rest) = osText c := by
  unfold osText
  induction c with
  | nil => exact absurd h not_mem_nil
  | cons b c ih =>
    by_cases hb : b = 0
    · simp [hb]
    · have hc : 0 ∈ c := (mem_cons.mp h).resolve_left fun heq => hb heq.symm
      rw [cons_append, takeWhile_cons_of_pos (by simpa using hb), ih hc,
        takeWhile_cons_of_pos (by simpa using hb)]

theorem osText_append_of_not_mem (h : 0 ∉ c) (rest : Name) :
    osText (c ++ rest) = c ++ osText rest := by
  exact takeWhile_append_of_pos fun b hb => decide_eq_true fun heq => h (heq ▸ hb)

theorem osText_joinComponents (comps : List Name) :
    osText (joinComponents comps) = joinComponents (cutAtZero comps) := by
  induction comps with
  | nil => rfl
  | cons c comps ih =>
    rw [cutAtZero]
    cases comps with
    | nil =>
      by_cases h : 0 ∈ c
      · simp [h, joinComponents]
      · simp [joinComponents, osText_eq_self h, cutAtZero]
    | cons d comps =>
      rw [joinComponents_cons_cons]
      by_cases h : 0 ∈ c
      · rw [if_pos h, osText_append_of_mem h]
        simp [joinComponents]
      · have hslash : osText (slash :: joinComponents (d :: comps)) =
            slash :: osText (joinComponents (d :: comps)) :=
          takeWhile_cons_of_pos (by decide)
        rw [if_neg h, osText_append_of_not_mem h, hslash, ih]
        -- the rest is not empty, so a slash stands in front of it
        obtain ⟨e, rest, hcut⟩ : ∃ e rest, cutAtZero (d :: comps) = e :: rest := by
          rw [cutAtZero]
          split
          · exact ⟨_, _, rfl⟩
          · exact ⟨_, _, rfl⟩
        rw [hcut, joinComponents_cons_cons]

theorem pathComponents_joinComponents (hne : comps ≠ []) (hcomps : ∀ c ∈ comps, slash ∉ c) :
    pathComponents (joinComponents comps) = (cutAtZero comps).map osComponent := by
  unfold pathComponents
  rw [osText_joinComponents, splitOn_joinComponents]
  · cases comps with
    | nil => exact absurd rfl hne
    | cons c comps =>
      rw [cutAtZero]
      split <;> simp
  · clear hne
    induction comps with
    | nil => exact fun c hc => absurd hc not_mem_nil
    | cons d comps ih =>
      rw [cutAtZero]
      intro c hc
      split at hc
      · rw [mem_singleton.mp hc]
        exact fun hmem => hcomps d mem_cons_self (( takeWhile_prefix _).subset hmem)
      · rcases mem_cons.mp hc with rfl | hc
        · exact hcomps _ mem_cons_self
        · exact ih (fun e he => hcomps e (mem_cons_of_mem _ he)) c hc

theorem Solid.osComponent_eq (hc : Solid c) : osComponent c = .name c := by
  unfold osComponent
  rw [if_neg (not_or.mpr ⟨hc.ne_nil, hc.ne_dot⟩), if_neg hc.ne_dotdot]

/-- Names, and behind them the component that ends the path: the last one, or an earlier
one that holds a zero byte. -/
theorem cutAtZero_solid (hne : comps ≠ []) (hsolid : ∀ c ∈ comps, Solid c) :
    ∃ (names : List Name) (last : Component Name),
      (cutAtZero comps).map osComponent = names.map .name ++ [last] ∧
        names.length < comps.length ∧
        ∀ i, i < names.length →
          (cutAtZero (comps.take (i + 1))).map osComponent = (names.take (i + 1)).map .name := by
  induction comps with
  | nil => exact absurd rfl hne
  | cons c comps ih =>
    have hc := hsolid c mem_cons_self
    by_cases hzero : 0 ∈ c
    · refine ⟨[], osComponent (osText c), ?_, Nat.succ_pos _,
      fun i hi => absurd hi (Nat.not_lt_zero i)⟩
      simp [cutAtZero, hzero]
    · cases comps with
      | nil =>
        simp [cutAtZero, hzero]
      | cons d comps =>
        obtain ⟨names, last, hmap, hlength, htake⟩ :=
          ih (cons_ne_nil _ _) fun e he => hsolid e (mem_cons_of_mem _ he)
        refine ⟨c :: names, last, ?_, Nat.succ_lt_succ hlength, ?_⟩
        · rw [cutAtZero, if_neg hzero, map_cons, hmap, hc.osComponent_eq]
          rfl
        · intro i hi
          rw [take_succ_cons, cutAtZero, if_neg hzero, map_cons, hc.osComponent_eq,
            take_succ_cons, map_cons]
          cases i with
          | zero => simp [cutAtZero]
          | succ i => rw [htake i (Nat.lt_of_succ_lt_succ hi)]

/-- The same of the text of a resolved target. -/
theorem solid_path (hne : comps ≠ []) (hsolid : ∀ c ∈ comps, Solid c) :
    ∃ (names : List Name) (last : Component Name),
      pathComponents (joinComponents comps) = names.map .name ++ [last] ∧
        names.length < comps.length ∧
        ∀ i, i < names.length →
          pathComponents (joinComponents (comps.take (i + 1))) = (names.take (i + 1)).map .name := by
  obtain ⟨names, last, hmap, hlength, htake⟩ := cutAtZero_solid hne hsolid
  refine ⟨names, last, ?_, hlength, ?_⟩
  · rw [pathComponents_joinComponents hne fun c hc => (hsolid c hc).no_slash, hmap]
  · intro i hi
    have htakeNe : comps.take (i + 1) ≠ [] := by
      rw [Ne, take_eq_nil_iff]
      exact fun h => h.elim (Nat.succ_ne_zero i) hne
    rw [pathComponents_joinComponents htakeNe
      fun c hc => (hsolid c (mem_of_mem_take hc)).no_slash]
    exact htake i hi

end OpenRar.Archive
