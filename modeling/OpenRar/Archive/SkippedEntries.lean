import OpenRar.Archive.LinkConfinement

/-!
# Entries that are left out

`extract_entry` reports success for a redirection that it leaves out.  `skips` follows the
places where that is decided: some before the destination is touched, the others when the
old destination is already gone.  `extractRedirection_cases` says that every other success
puts a file or a link at the destination.

A skipped entry is meant to change nothing.  `extractEntry_skipped_iff` says when it does:
what stood where the destination path leads survives if the decision came early enough, and
its extended attributes survive if the entry brings none that are set.  The path is followed
through links among the parents, as the calls that set attributes follow it.
-/

namespace OpenRar.Archive

open FileTree Option

/-! ## Where a redirection is left out -/

section Skips

variable (o : Options) (root : Root) (s : Session) (e : ArchiveEntry) (comps : List Name)

/-- Left out before the destination is touched. -/
def skipsEarly : Bool :=
  (!o.extractSymlinks && e.header.redir.type ≠ 5) || unsafeTarget e ||
    hasSymlinkParent root s.tree comps

/-- The source of a hard link or a copy is refused; that of a hard link must be
registered. -/
def sourceSkips (registered : Bool) : Bool :=
  copyTarget e = [] ||
    match redirSource root e comps with
    | none => true
    | some ((path, base), rel) =>
      (registered && !s.sessionCreated.contains (path ++ rel)) ||
        (statNode s.tree base rel).isNone ||
        linkedBelow s.tree base rel

/-- Left out at a cleared destination. -/
def skipsLate : Bool :=
  match e.header.redir.type with
  | 1 | 2 | 3 => false
  | 4 => sourceSkips root s e comps true
  | 5 => sourceSkips root s e comps false
  | _ => true

/-- The parent directories of the destination, and nothing at it. -/
def clearDestination : Session × Bool :=
  match createDirectories s root.place comps.dropLast with
  | (s, false) => (s, false)
  | (s, true) => (s.removeAt (root.place ++ comps), true)

/-- A redirection that succeeds and puts nothing. -/
def skips : Bool :=
  skipsEarly o root s e comps ||
    ((clearDestination root s comps).2 && skipsLate root (clearDestination root s comps).1 e comps)

end Skips

section Outcomes

variable {o : Options} {root : Root} {s s' : Session} {e : ArchiveEntry} {comps : List Name}

theorem createHardLink_of_skips (h : sourceSkips root s e comps true = true) :
    createHardLink root s e comps = (s, true) := by
  unfold sourceSkips at h
  unfold createHardLink
  split
  · rfl
  · next htarget =>
    rw [decide_eq_false htarget, Bool.false_or] at h
    split
    · rfl
    · next path base rel hsource =>
      rw [hsource] at h
      split_ifs with hkey hstat hscan
      · rfl
      · rfl
      · exact absurd h (by simp [hkey, hstat, hscan])
      · rfl

theorem createHardLink_of_not_skips (h : sourceSkips root s e comps true = false) :
    ∃ path base rel, redirSource root e comps = some ((path, base), rel) ∧
      path ++ rel ∈ s.sessionCreated ∧ linkedBelow s.tree base rel = false ∧
      createHardLink root s e comps = linkOrCopy root s e comps base rel := by
  unfold sourceSkips at h
  rw [Bool.or_eq_false_iff, decide_eq_false_iff_not] at h
  obtain ⟨htarget, h⟩ := h
  split at h
  · cases h
  · next path base rel hsource =>
    simp only [Bool.true_and, Bool.or_eq_false_iff, Bool.not_eq_false', List.contains_iff_mem] at h
    obtain ⟨⟨hkey, hstat⟩, hscan⟩ := h
    unfold createHardLink
    simp [htarget, hsource, hkey, hstat, hscan]

theorem copyFile_of_skips (h : sourceSkips root s e comps false = true) :
    copyFile root s e comps = (s, true) := by
  unfold sourceSkips at h
  unfold copyFile
  split
  · rfl
  · next htarget =>
    rw [decide_eq_false htarget, Bool.false_or] at h
    split
    · rfl
    · next path base rel hsource =>
      rw [hsource] at h
      split
      · rfl
      · next p v hstat =>
        simp only [hstat, Bool.false_and, Bool.false_or, isNone_some] at h
        rw [if_pos h]

theorem copyFile_of_not_skips (h : sourceSkips root s e comps false = false) :
    ∃ base rel p v, statNode s.tree base rel = some (p, v) ∧ copyFile root s e comps =
        match v with
        | .file bytes => commitCopy root s comps ⟨p, isReparseOrSymlink s.tree base rel⟩ bytes
        | _ => (s, false) := by
  unfold sourceSkips at h
  rw [Bool.or_eq_false_iff, decide_eq_false_iff_not] at h
  obtain ⟨htarget, h⟩ := h
  split at h
  · cases h
  · next path base rel hsource =>
    simp only [Bool.or_eq_false_iff] at h
    obtain ⟨hstat, hscan⟩ := h
    obtain ⟨⟨p, v⟩, hpv⟩ := isSome_iff_exists.mp (by simpa using hstat)
    refine ⟨base, rel, p, v, hpv, ?_⟩
    unfold copyFile
    cases v <;> simp [htarget, hsource, hpv, hscan]

theorem createRedirection_of_skips (h : skipsLate root s e comps = true) :
    createRedirection root s e comps = (s, true) := by
  unfold skipsLate at h
  split at h
  · cases h
  · cases h
  · cases h
  · next htype =>
    rw [createRedirection, htype]
    exact createHardLink_of_skips h
  · next htype =>
    rw [createRedirection, htype]
    exact copyFile_of_skips h
  · unfold createRedirection
    split
    all_goals first | rfl | (exfalso; simp_all)

theorem extractRedirection_of_clear :
    extractRedirection root s e comps =
      if unsafeTarget e || hasSymlinkParent root s.tree comps then (s, true)
      else if (clearDestination root s comps).2 then
        createRedirection root (clearDestination root s comps).1 e comps
      else ((clearDestination root s comps).1, false) := by
  unfold extractRedirection clearDestination
  by_cases hsafe : unsafeTarget e = true
  · simp [hsafe]
  by_cases hscan : hasSymlinkParent root s.tree comps = true
  · simp [hscan]
  simp only [hsafe]
  rcases createDirectories s root.place comps.dropLast with ⟨s₁, ok⟩
  cases ok <;> rfl

/-! ## What a success puts -/

/-- One node at the destination that is no directory, and nothing else. -/
structure Puts (root : Root) (comps : List Name) (v : Node Name UInt8) (s s' : Session) : Prop where
  plain : v ≠ .dir
  node : ∀ q, s'.tree.node q = if q = root.place ++ comps then some v else s.tree.node q
  created : s'.sessionCreated = s.sessionCreated
  links : ∀ l ∈ s'.linksCreated, l ∈ s.linksCreated ∨ l = comps

theorem Puts.at_dest {v : Node Name UInt8} (h : Puts root comps v s s') :
    s'.tree.node (root.place ++ comps) = some v := by
  rw [h.node, if_pos rfl]

/-- Nothing happened and the call fails, or the node is put and it succeeds. -/
def PutsOrFails (root : Root) (comps : List Name) (s : Session) (r : Session × Bool) : Prop :=
  r = (s, false) ∨ r.2 = true ∧ ∃ v, Puts root comps v s r.1

section

variable (hne : comps ≠ [])
include hne

theorem commitFile_cases (bytes : List UInt8) : commitFile root s comps bytes = (s, false) ∨
      (commitFile root s comps bytes).2 = true ∧
        Puts root comps (.file bytes) s (commitFile root s comps bytes).1 := by
  unfold commitFile
  split
  · next t ht =>
    obtain ⟨-, hnode⟩ := Tree.replace_eq_some ht
    rw [dest_eq root hne] at hnode
    exact .inr ⟨rfl, by simp, hnode, rfl, fun l hl => .inl hl⟩
  · exact .inl rfl

theorem commitCopy_cases (source : Source) (bytes : List UInt8) :
    commitCopy root s comps source bytes = (s, false) ∨
      (commitCopy root s comps source bytes).2 = true ∧
        Puts root comps (.file bytes) s (commitCopy root s comps source bytes).1 := by
  unfold commitCopy
  have hcases : commitFile root s comps bytes = (s, false) ∨ _ := commitFile_cases hne bytes
  rcases hcommit : commitFile root s comps bytes with ⟨s₁, ok⟩
  rw [hcommit] at hcases
  rcases hcases with h | ⟨hok, hput⟩
  · cases h
    exact .inl rfl
  · cases hok
    exact .inr ⟨rfl, hput.plain, hput.node, hput.created, hput.links⟩

theorem commitFile_putsOrFails (bytes : List UInt8) :
    PutsOrFails root comps s (commitFile root s comps bytes) :=
  (commitFile_cases hne bytes).imp_right fun h => ⟨h.1, _, h.2⟩

theorem commitCopy_putsOrFails (source : Source) (bytes : List UInt8) :
    PutsOrFails root comps s (commitCopy root s comps source bytes) :=
  (commitCopy_cases hne source bytes).imp_right fun h => ⟨h.1, _, h.2⟩

theorem createSymlink_cases : PutsOrFails root comps s (createSymlink root s e comps) := by
  unfold createSymlink
  split
  · exact .inl rfl
  · split
    · next t ht =>
      obtain ⟨-, hnode⟩ := Tree.create_eq_some ht
      rw [dest_eq root hne] at hnode
      exact .inr ⟨rfl, _, by simp, hnode, rfl, fun l hl => by simpa using hl⟩
    · exact .inl rfl

/-- A hard link takes over the node that its source names. -/
theorem linkOrCopy_cases (base rel : List Name) :
    PutsOrFails root comps s (linkOrCopy root s e comps base rel) ∧
      (e.crossDevice = false → (linkOrCopy root s e comps base rel).2 = true →
        ∃ q v, s.tree.locate maxSymlinks base (osPath rel) = some q ∧ s.tree.node q = some v ∧
          v ≠ .dir ∧ (linkOrCopy root s e comps base rel).1.sources = ⟨q, false⟩ :: s.sources) := by
  unfold linkOrCopy
  split
  · exact ⟨.inl rfl, fun _ h => by cases h⟩
  · next q hq =>
    split
    · exact ⟨.inl rfl, fun _ h => by cases h⟩
    · exact ⟨.inl rfl, fun _ h => by cases h⟩
    · next v hdir hv =>
      split
      · next hcross =>
        -- across file systems only the contents are taken
        refine ⟨?_, fun hno => absurd hno (by simp [hcross])⟩
        split
        · exact commitCopy_putsOrFails hne _ _
        · exact commitFile_putsOrFails hne _
        · exact .inl rfl
      · split
        · next t ht =>
          obtain ⟨-, hnode⟩ := Tree.create_eq_some ht
          rw [dest_eq root hne] at hnode
          have hplain : v ≠ .dir := fun heq => hdir heq
          exact ⟨.inr ⟨rfl, v, hplain, hnode, rfl, fun l hl => .inl hl⟩,
            fun _ _ => ⟨q, v, hq, hv, hplain, rfl⟩⟩
        · exact ⟨.inl rfl, fun _ h => by cases h⟩

theorem createRedirection_cases (hskip : skipsLate root s e comps = false) :
    PutsOrFails root comps s (createRedirection root s e comps) := by
  unfold skipsLate at hskip
  split at hskip
  · next htype =>
    rw [createRedirection, htype]
    exact createSymlink_cases hne
  · next htype =>
    rw [createRedirection, htype]
    exact createSymlink_cases hne
  · next htype =>
    rw [createRedirection, htype]
    exact createSymlink_cases hne
  · next htype =>
    obtain ⟨path, base, rel, -, -, -, hlink⟩ := createHardLink_of_not_skips hskip
    rw [createRedirection, htype]
    exact hlink ▸ (linkOrCopy_cases hne base rel).1
  · next htype =>
    obtain ⟨base, rel, p, v, -, hcopy⟩ := copyFile_of_not_skips hskip
    rw [createRedirection, htype]
    simp only [hcopy]
    split
    · exact commitCopy_putsOrFails hne _ _
    · exact .inl rfl
  · cases hskip

end

/-! ## What comes before -/

/-- Directories come and nodes go; nothing is noted. -/
structure Settles (s s' : Session) : Prop where
  node : ∀ q v, v ≠ .dir → s'.tree.node q = some v → s.tree.node q = some v
  created : s'.sessionCreated = s.sessionCreated
  sources : s'.sources = s.sources
  links : s'.linksCreated = s.linksCreated

theorem Settles.refl (s : Session) : Settles s s := ⟨fun _ _ _ h => h, rfl, rfl, rfl⟩

theorem Settles.trans {s₁ s₂ s₃ : Session} (h : Settles s₁ s₂) (h' : Settles s₂ s₃) :
    Settles s₁ s₃ :=
  ⟨fun q v hv hq => h.node q v hv (h'.node q v hv hq), h'.created.trans h.created,
    h'.sources.trans h.sources, h'.links.trans h.links⟩

theorem removeAt_settles (s : Session) (p : List Name) : Settles s (s.removeAt p) := by
  unfold Session.removeAt
  split
  · next t ht =>
    refine ⟨fun q v _ hq => ?_, rfl, rfl, rfl⟩
    have hnode := Tree.remove_eq_some ht q
    by_cases hp : q = p
    · rw [if_pos hp] at hnode
      exact absurd (hnode.symm.trans hq) (by simp)
    · rw [if_neg hp] at hnode
      exact hnode.symm.trans hq
  · exact .refl s

theorem makeDirs_settles {enter : FileSystem → List Name → Name → Option (List Name)} (s : Session)
    (place dirs : List Name) : Settles s (makeDirs enter s place dirs).1 := by
  induction dirs generalizing s place with
  | nil => exact .refl s
  | cons n rest ih =>
    rw [makeDirs]
    split
    · exact .refl s
    · split
      · exact ih s _
      · split
        · next t ht =>
          have hstep : Settles s (s.advance t) := by
            refine ⟨fun q v hv hq => ?_, rfl, rfl, rfl⟩
            have hnode := (Tree.create_eq_some ht).2 q
            by_cases hp : q = place ++ [n]
            · rw [if_pos hp] at hnode
              exact absurd (Option.some.inj (hq.symm.trans hnode)) hv
            · rw [if_neg hp] at hnode
              exact hnode.symm.trans hq
          exact hstep.trans (ih _ _)
        · exact .refl s
      · exact .refl s

theorem clearDestination_settles (root : Root) (s : Session) (comps : List Name) :
    Settles s (clearDestination root s comps).1 := by
  unfold clearDestination
  have hdirs : Settles s (createDirectories s root.place comps.dropLast).1 := makeDirs_settles s _ _
  split
  · next s₁ h =>
    rw [h] at hdirs
    exact hdirs
  · next s₁ h =>
    rw [h] at hdirs
    exact hdirs.trans (removeAt_settles _ _)

theorem convertSelfLinks_settles (root : Root) (s : Session) (comps : List Name) :
    Settles s (convertSelfLinks root s comps) := by
  refine List.foldlRecOn _ _ (.refl s) fun s' hs' link _ => hs'.trans ?_
  unfold convertSelfLink
  split
  · split
    · exact (removeAt_settles _ _).trans (makeDirs_settles _ _ _)
    · exact .refl s'
  · exact .refl s'

/-! ## The outcome of a call -/

/-- The entry is made as a directory. -/
def ArchiveEntry.isDirectory (e : ArchiveEntry) : Bool :=
  Format.hasFlag e.header.fileFlags Format.fhflDirectory

/-- What a call leaves: a settled state, with success for a directory or a skip only, or a
node that is put on one. -/
def Outcome (root : Root) (comps : List Name) (s : Session) (quiet : Bool) (r : Session × Bool) :
    Prop :=
  Settles s r.1 ∧ (r.2 = true → quiet = true) ∨
    quiet = false ∧ r.2 = true ∧ ∃ s₁ v, Settles s s₁ ∧ Puts root comps v s₁ r.1

theorem PutsOrFails.outcome {s₁ : Session} {r : Session × Bool} (hs : Settles s s₁)
    (h : PutsOrFails root comps s₁ r) : Outcome root comps s false r := by
  rcases h with rfl | ⟨hok, v, hput⟩
  · exact .inl ⟨hs, fun h => h⟩
  · exact .inr ⟨rfl, hok, s₁, v, hs, hput⟩

theorem extractFile_outcome (hne : comps ≠ []) :
    Outcome root comps s false (extractFile root s e comps) := by
  unfold extractFile
  have hlinks := convertSelfLinks_settles root s comps
  generalize convertSelfLinks root s comps = s₁ at hlinks ⊢
  dsimp only
  split
  · exact .inl ⟨hlinks, fun h => h⟩
  · have hdirs : Settles s₁ (resolveDir s₁ root.place comps.dropLast).1 := makeDirs_settles s₁ _ _
    split
    · next s₂ h =>
      rw [h] at hdirs
      exact .inl ⟨hlinks.trans hdirs, fun h => h⟩
    · next s₂ h =>
      rw [h] at hdirs
      split
      · next bytes _ =>
        exact (commitFile_putsOrFails hne bytes).outcome (hlinks.trans hdirs)
      · exact .inl ⟨hlinks.trans hdirs, fun h => h⟩

theorem extractRedirection_outcome (hne : comps ≠ [])
    (hlinks : (!o.extractSymlinks && e.header.redir.type ≠ 5) = false) :
    Outcome root comps s (skips o root s e comps) (extractRedirection root s e comps) := by
  have hclear := clearDestination_settles root s comps
  rw [extractRedirection_of_clear]
  by_cases hearly : (unsafeTarget e || hasSymlinkParent root s.tree comps) = true
  · rw [if_pos hearly]
    refine .inl ⟨.refl s, fun _ => ?_⟩
    unfold skips skipsEarly
    rw [hlinks, Bool.false_or, hearly, Bool.true_or]
  · rw [if_neg hearly]
    have hskips : skips o root s e comps = ((clearDestination root s comps).2 &&
        skipsLate root (clearDestination root s comps).1 e comps) := by
      unfold skips skipsEarly
      rw [hlinks, Bool.false_or, Bool.eq_false_of_not_eq_true hearly, Bool.false_or]
    split
    · next hok =>
      rw [hskips, hok, Bool.true_and]
      cases hlate : skipsLate root (clearDestination root s comps).1 e comps with
      | true =>
        rw [createRedirection_of_skips hlate]
        exact .inl ⟨hclear, fun _ => rfl⟩
      | false => exact (createRedirection_cases hne hlate).outcome hclear
    · exact .inl ⟨hclear, fun h => by cases h⟩

/-- A success of the call that puts neither a file nor a link. -/
def quiet (o : Options) (root : Root) (s : Session) (e : ArchiveEntry) (comps : List Name) : Bool :=
  e.isDirectory || (e.header.redir.type ≠ 0 && skips o root s e comps)

theorem extractEntryImpl_outcome (o : Options) (hne : comps ≠ []) :
    Outcome root comps s (quiet o root s e comps) (extractEntryImpl o root s e comps) := by
  unfold extractEntryImpl quiet ArchiveEntry.isDirectory
  split
  · next hdir =>
    rw [hdir, Bool.true_or]
    exact .inl ⟨makeDirs_settles s _ _, fun _ => rfl⟩
  · next hdir =>
    rw [Bool.eq_false_of_not_eq_true hdir, Bool.false_or]
    split
    · next htype =>
      rw [decide_eq_true htype, Bool.true_and]
      split
      · next hlinks =>
        refine .inl ⟨.refl s, fun _ => ?_⟩
        unfold skips skipsEarly
        rw [hlinks]
        rfl
      · next hlinks => exact extractRedirection_outcome hne (Bool.eq_false_of_not_eq_true hlinks)
    · next htype =>
      rw [decide_eq_false htype, Bool.false_and]
      exact extractFile_outcome hne

end Outcomes

/-! ## Paths of proper names -/

section Paths

open List

variable {t : FileSystem} {base rel : List Name}

theorem Proper.solid {c : Name} (h : Proper c) : Solid c := { h with }

theorem cutAtZero_proper (h : ∀ c ∈ rel, Proper c) : cutAtZero rel = rel := by
  induction rel with
  | nil => rfl
  | cons c rest ih =>
    rw [cutAtZero, if_neg (h c mem_cons_self).no_zero,
      ih fun d hd => h d (mem_cons_of_mem _ hd)]

/-- The file system reads the names as they are. -/
theorem osPath_proper (hne : rel ≠ []) (h : ∀ c ∈ rel, Proper c) : osPath rel = rel.map .name := by
  unfold osPath
  rw [pathComponents_joinComponents hne fun c hc => (h c hc).no_slash, cutAtZero_proper h]
  exact map_congr_left fun c hc => (h c hc).solid.osComponent_eq

theorem osPath_take (h : ∀ c ∈ rel, Proper c) {i : Nat} (hi : i < rel.length) :
    osPath (rel.take (i + 1)) = (rel.take (i + 1)).map .name := by
  refine osPath_proper (fun hnil => ?_) fun c hc => h c (mem_of_mem_take hc)
  have := congrArg List.length hnil
  rw [length_take, length_nil] at this
  omega

theorem linkless_of_scan (h : ∀ c ∈ rel, Proper c) (hscan : linkedBelow t base rel = false) :
    t.Linkless base rel.dropLast := by
  intro i hi
  rw [length_dropLast] at hi
  have hclear : isReparseOrSymlink t base (rel.take (i + 1)) = false := by
    have hmem : i ∈ List.range (rel.length - 1) := mem_range.mpr hi
    simpa using any_eq_false.mp hscan i hmem
  rw [dropLast_eq_take, take_take, Nat.min_eq_left (by omega),
    ← take_append_getElem (by omega : i < rel.length), ← append_assoc]
  refine @Tree.isLinkAt_false_of_locate _ _ _ _ _ _ _ maxSymlinks fun q hq => ?_
  rw [take_append_getElem] at hq
  unfold isReparseOrSymlink at hclear
  rw [osPath_take h (by omega), hq] at hclear
  exact hclear

/-- A path of proper names behind such a scan leads where it says. -/
theorem locate_proper (hne : rel ≠ []) (h : ∀ c ∈ rel, Proper c) {q : List Name}
    (hlinkless : t.Linkless base rel.dropLast)
    (hq : t.locate maxSymlinks base (osPath rel) = some q) : q = base ++ rel := by
  obtain ⟨jump, hjump⟩ := Tree.follow_eq_walkWith t maxSymlinks
  rw [osPath_proper hne h, ← dropLast_append_getLast hne, map_append, map_singleton]
    at hq
  unfold Tree.locate at hq
  rw [List.getLast?_append_cons, List.getLast?_singleton, dropLast_concat, hjump] at hq
  obtain ⟨p, hp, rfl⟩ := Option.map_eq_some_iff.mp hq
  rw [Tree.walkWith_names hlinkless hp, append_assoc, dropLast_append_getLast]

end Paths

/-- Where the destination path leads.  Links among its parents are followed, one at its end is
not. -/
def destination (root : Root) (t : FileSystem) (comps : List Name) : Option (List Name) :=
  t.locate maxSymlinks root.place (osPath comps)

/-! ## Extended attributes -/

/-- `xattr_restorable` -/
def xattrRestorable (name : Name) (securityOptIn : Bool) : Bool :=
  let metadata := ascii ['c', 'o', 'm', '.', 'a', 'p', 'p', 'l', 'e', '.', 'm', 'e', 't', 'a', 'd',
    'a', 't', 'a']
  let defaults := [ascii ['u', 's', 'e', 'r', '.'], metadata ++ [colon], metadata ++ [dot]]
  let privileged :=
    [ascii ['s', 'e', 'c', 'u', 'r', 'i', 't', 'y', '.'],
      ascii ['t', 'r', 'u', 's', 't', 'e', 'd', '.']]
  defaults.any (·.isPrefixOf name) || (securityOptIn && privileged.any (·.isPrefixOf name))

/-- The attributes of one node. -/
abbrev Attributes := Name → Option (List UInt8)

/-- How attributes are restored: the switch for privileged names, and what the system lets
be set on a node. -/
structure XattrPolicy where
  securityOptIn : Bool
  accepts : Node Name UInt8 → Format.FileXattr → Bool

/-- `apply_xattrs_restorable` on what stands at a place; a refused attribute is passed
over. -/
def applyXattrs (policy : XattrPolicy) (node : Option (Node Name UInt8))
    (xattrs : List Format.FileXattr) (attrs : Attributes) : Attributes :=
  xattrs.foldl
    (fun attrs x =>
      if xattrRestorable x.name policy.securityOptIn && node.any (policy.accepts · x) then
        Function.update attrs (osText x.name) (some x.value)
      else attrs)
    attrs

/-- The end of `extract_entry`: attributes for files and copies, on the strength of the
reported success, where the destination path leads by then. -/
def attributesAfter (policy : XattrPolicy) (root : Root) (e : ArchiveEntry) (comps : List Name)
    (r : Session × Bool) (attrs : List Name → Attributes) : List Name → Attributes :=
  if r.2 && !e.isDirectory && (e.header.redir.type = 0 || e.header.redir.type = 5) then
    match destination root r.1.tree comps with
    | some p =>
      Function.update attrs p (applyXattrs policy (r.1.tree.node p) e.header.xattrs (attrs p))
    | none => attrs
  else attrs

/-! ## The frame of a skipped entry -/

section Frame

variable {o : Options} {root : Root} {s s' : Session} {e : ArchiveEntry} {comps : List Name}

variable {place dirs : List Name} {v : Node Name UInt8}

/-- Directories are made only where nothing stands. -/
theorem makeDirs_keeps {enter : FileSystem → List Name → Name → Option (List Name)} {s : Session}
    {q : List Name} (h : s.tree.node q = some v) :
    (makeDirs enter s place dirs).1.tree.node q = some v := by
  induction dirs generalizing s place with
  | nil => exact h
  | cons n rest ih =>
    rw [makeDirs]
    split
    · exact h
    · split
      · exact ih h
      · split
        · next t ht =>
          obtain ⟨hfree, hnode⟩ := Tree.create_eq_some ht
          refine ih ?_
          show t.node q = some v
          rw [hnode, if_neg, h]
          rintro rfl
          exact absurd (h.symm.trans hfree) (by simp)
        · exact h
      · exact h

/-- Directories that exist are passed through. -/
theorem createDirectories_of_dir {s : Session}
    (h : s.tree.node (place ++ dirs) = some .dir) : createDirectories s place dirs = (s, true) := by
  induction dirs generalizing place with
  | nil => rfl
  | cons n rest ih =>
    rw [List.append_cons] at h
    have hn := s.tree.node_of_append rest h
    have henter : s.tree.follow maxSymlinks place [.name n] = some (place ++ [n]) := by
      obtain ⟨jump, hjump⟩ := Tree.follow_eq_walkWith s.tree maxSymlinks
      rw [hjump, Tree.walkWith, hn]
      rfl
    unfold createDirectories makeDirs
    rw [henter]
    simp only [hn]
    exact ih h

theorem clearDestination_of_node (hne : comps ≠ [])
    (h : s.tree.node (root.place ++ comps) = some v) :
    clearDestination root s comps = (s.removeAt (root.place ++ comps), true) := by
  have hparent : s.tree.node (root.place ++ comps.dropLast) = some .dir := by
    have hleaf : s.tree.node (destDir root comps ++ [destLeaf comps]) ≠ none := by
      rw [dest_eq root hne, h]
      exact some_ne_none _
    exact s.tree.node_parent hleaf
  unfold clearDestination
  rw [createDirectories_of_dir hparent]

/-- A removal that fails changes nothing. -/
theorem removeAt_of_hasChild {p : List Name} (h : s.tree.hasChild p = true) : s.removeAt p = s := by
  have hnone : s.tree.remove p = none := by
    unfold Tree.remove
    rw [dif_neg (by simp [h])]
  unfold Session.removeAt
  rw [hnone]

theorem removeAt_node {p : List Name} (h : s.tree.hasChild p = false) :
    (s.removeAt p).tree.node p = none := by
  unfold Session.removeAt
  split
  · next t ht => rw [Session.advance_tree, Tree.remove_eq_some ht, if_pos rfl]
  · next hnone =>
    unfold Tree.remove at hnone
    rw [dif_pos h] at hnone
    cases hnone

theorem extractEntryImpl_directory (hdir : e.isDirectory = true) :
    extractEntryImpl o root s e comps = resolveDir s root.place comps := by
  unfold ArchiveEntry.isDirectory at hdir
  unfold extractEntryImpl
  rw [if_pos hdir]

/-- The session behind a quiet redirection. -/
theorem extractEntryImpl_of_skips (hredir : e.header.redir.type ≠ 0) (hdir : e.isDirectory = false)
    (h : skips o root s e comps = true) :
    extractEntryImpl o root s e comps =
      (if skipsEarly o root s e comps then s else (clearDestination root s comps).1, true) := by
  unfold ArchiveEntry.isDirectory at hdir
  unfold extractEntryImpl
  rw [if_neg (by simp [hdir]), if_pos hredir, extractRedirection_of_clear]
  unfold skips at h
  cases hearly : skipsEarly o root s e comps with
  | true =>
    unfold skipsEarly at hearly
    rw [Bool.or_assoc, Bool.or_eq_true] at hearly
    rw [if_pos (rfl : true = true)]
    by_cases hlinks : (!o.extractSymlinks && e.header.redir.type ≠ 5) = true
    · rw [if_pos hlinks]
    · rw [if_neg hlinks, if_pos (hearly.resolve_left hlinks)]
  | false =>
    rw [hearly, Bool.false_or, Bool.and_eq_true] at h
    unfold skipsEarly at hearly
    rw [Bool.or_assoc, Bool.or_eq_false_iff] at hearly
    rw [if_neg (Bool.eq_false_iff.mp hearly.1), if_neg (Bool.eq_false_iff.mp hearly.2),
      if_pos h.1, createRedirection_of_skips h.2]
    rfl

/-- What stood at the place `p` is there after the call, with its attributes. -/
def Untouched (o : Options) (root : Root) (policy : XattrPolicy) (s : Session) (e : ArchiveEntry)
    (comps p : List Name) (attrs : List Name → Attributes) : Prop :=
  ∀ v, s.tree.node p = some v → (extractEntry o root s e comps).1.tree.node p = some v ∧
    attributesAfter policy root e comps (extractEntry o root s e comps) attrs p = attrs p

theorem extractEntry_tree (o : Options) (root : Root) (s : Session) (e : ArchiveEntry)
    (comps : List Name) :
    (extractEntry o root s e comps).1.tree = (extractEntryImpl o root s e comps).1.tree ∧
      (extractEntry o root s e comps).2 = (extractEntryImpl o root s e comps).2 := by
  unfold extractEntry
  split
  · next h => simp [h]
  · next h => simp [h]

/-- An early skip leaves the tree alone.  A late one leaves it alone if the destination is a
directory that is not empty, and otherwise nothing at the destination. -/
theorem extractEntryImpl_skipped {p : List Name} (hne : comps ≠ [])
    (hproper : ∀ c ∈ comps, Proper c) (hp : destination root s.tree comps = some p)
    (hnode : s.tree.node p = some v) (hredir : e.header.redir.type ≠ 0)
    (hdir : e.isDirectory = false) (hskips : skips o root s e comps = true) :
    if skipsEarly o root s e comps || s.tree.hasChild p then
      (extractEntryImpl o root s e comps).1.tree = s.tree
    else (extractEntryImpl o root s e comps).1.tree.node p = none := by
  rw [extractEntryImpl_of_skips hredir hdir hskips]
  cases hearly : skipsEarly o root s e comps with
  | true => rfl
  | false =>
    -- no parent is a link, so the path leads to the place that is cleared
    have hscan : linkedBelow s.tree root.place comps = false := by
      unfold skipsEarly at hearly
      exact (Bool.or_eq_false_iff.mp (Bool.or_eq_false_iff.mp hearly).2).2
    obtain rfl := locate_proper hne hproper (linkless_of_scan hproper hscan) hp
    rw [clearDestination_of_node hne hnode, Bool.false_or, if_neg Bool.false_ne_true]
    split
    · next hchild => rw [removeAt_of_hasChild hchild]
    · next hchild => exact removeAt_node (Bool.eq_false_of_not_eq_true hchild)

/-- **A successful redirection**, unless it was left out, has put a file or a link.  One that
was left out leaves what stood where the destination path leads alone exactly when nothing was
there, or the decision came before the removal, or the removal failed on a directory that is
not empty; and for a copy no attribute may be set either. -/
theorem extractEntry_skipped_iff (o : Options) (root : Root) (policy : XattrPolicy) (s : Session)
    (e : ArchiveEntry) (comps : List Name) (attrs : List Name → Attributes) (hne : comps ≠ [])
    (hproper : ∀ c ∈ comps, Proper c) (hredir : e.header.redir.type ≠ 0)
    (hok : (extractEntry o root s e comps).2 = true) :
    (quiet o root s e comps = false → ∃ v, v ≠ .dir ∧
      (extractEntry o root s e comps).1.tree.node (root.place ++ comps) = some v) ∧
    (quiet o root s e comps = true → ∀ p, destination root s.tree comps = some p →
      (Untouched o root policy s e comps p attrs ↔
        s.tree.node p = none ∨ e.isDirectory = true ∨
          (skipsEarly o root s e comps = true ∨ s.tree.hasChild p = true) ∧
            (e.header.redir.type = 5 →
              applyXattrs policy (s.tree.node p) e.header.xattrs (attrs p) = attrs p))) := by
  obtain ⟨htree, hresult⟩ := extractEntry_tree o root s e comps
  refine ⟨fun hquiet => ?_, fun hquiet p hp => ?_⟩
  · rcases extractEntryImpl_outcome o hne with ⟨-, hno⟩ | ⟨-, -, s₁, v, -, hput⟩
    · exact absurd (hno (hresult ▸ hok)) (by simp [hquiet])
    · exact ⟨v, hput.plain, htree ▸ hput.at_dest⟩
  unfold Untouched attributesAfter
  rw [hok, htree]
  cases hnode : s.tree.node p with
  | none => simp
  | some v =>
    cases hdir : e.isDirectory with
    | true =>
      rw [extractEntryImpl_directory hdir]
      refine iff_of_true (fun w hw => ?_) (.inr (.inl rfl))
      cases hw
      exact ⟨makeDirs_keeps hnode, by simp⟩
    | false =>
      unfold quiet at hquiet
      rw [hdir, Bool.false_or, decide_eq_true hredir, Bool.true_and] at hquiet
      have hafter := extractEntryImpl_skipped hne hproper hp hnode hredir hdir hquiet
      rw [← Bool.or_eq_true]
      split at hafter
      · next hstay =>
        rw [hafter, hp]
        by_cases hcopy : e.header.redir.type = 5
        · simp [hstay, hcopy, hnode]
        · simp [hstay, hcopy, hredir, hnode]
      · next hstay => simp [hstay, hafter]

end Frame

/-! ## Entries that are left out and change something -/

/-- An empty root but for the file `/h/o/c`. -/
def standingTree : FileSystem := outTree.plant [([homeName, outName], copyName, .file [7])]

/-- Every attribute of an unprivileged name can be set. -/
def openPolicy : XattrPolicy where
  securityOptIn := false
  accepts _ _ := true

/-- `user.a` -/
def userAttribute : Name := ascii ['u', 's', 'e', 'r', '.', 'a']

/-- A copy of a file that is not there. -/
def missingCopy : ArchiveEntry := redirection 5 copyName dirName

/-- A copy of an absolute path, with an attribute. -/
def refusedCopy : ArchiveEntry where
  header := { fileName := copyName, redir := { type := 5, target := slash :: dirName },
              xattrs := [⟨userAttribute, [1]⟩] }

/-- The link `/h/o/l` to the directory `/h/o/d` with the file `/h/o/d/c`. -/
def bypassTree : FileSystem :=
  outTree.plant [([homeName, outName], dirName, .dir),
    ([homeName, outName, dirName], copyName, .file [7]),
    ([homeName, outName], linkName, .link ⟨false, [.name dirName]⟩)]

/-- A success that puts nothing and changes what stood where the destination leads. -/
def ChangesStanding (t : FileSystem) (e : ArchiveEntry) (comps p : List Name) : Prop :=
  (extractEntry fullLayout outRoot (.start t) e comps).2 = true ∧
    quiet fullLayout outRoot (.start t) e comps = true ∧
    destination outRoot t comps = some p ∧
    ¬ Untouched fullLayout outRoot openPolicy (.start t) e comps p fun _ _ => none

/-- The copy of a missing file removes the old destination.  The copy of an absolute path is
refused in time, and sets an attribute of the file that it leaves alone; so does a copy behind
a link, which is refused for its parent. -/
theorem extractEntry_skipped_changes :
    ChangesStanding standingTree missingCopy [copyName] [homeName, outName, copyName] ∧
      ChangesStanding standingTree refusedCopy [copyName] [homeName, outName, copyName] ∧
      ChangesStanding bypassTree refusedCopy [linkName, copyName]
        [homeName, outName, dirName, copyName] := by
  have hstands : standingTree.node [homeName, outName, copyName] = some (.file [7]) := by
    decide +kernel
  have hbehind : bypassTree.node [homeName, outName, dirName, copyName] = some (.file [7]) := by
    decide +kernel
  refine ⟨⟨by decide +kernel, by decide +kernel, by decide +kernel, fun h => ?_⟩,
    ⟨by decide +kernel, by decide +kernel, by decide +kernel, fun h => ?_⟩,
    ⟨by decide +kernel, by decide +kernel, by decide +kernel, fun h => ?_⟩⟩
  · exact absurd (h _ hstands).1 (by decide +kernel)
  · exact absurd (congrFun (h _ hstands).2 userAttribute) (by decide +kernel)
  · exact absurd (congrFun (h _ hbehind).2 userAttribute) (by decide +kernel)

/-- A link with an absolute target over an old file. -/
theorem extractEntry_skipped_iff_absolute :
    quiet fullLayout outRoot (.start standingTree) (redirection 1 copyName (slash :: dirName))
        [copyName] = true ∧
      Untouched fullLayout outRoot openPolicy (.start standingTree)
        (redirection 1 copyName (slash :: dirName)) [copyName] [homeName, outName, copyName]
        fun _ _ => none := by
  have hquiet : quiet fullLayout outRoot (.start standingTree)
      (redirection 1 copyName (slash :: dirName)) [copyName] = true := by decide +kernel
  refine ⟨hquiet, ((extractEntry_skipped_iff _ _ _ _ _ _ _ (by simp) (by decide) (by decide)
    (by decide +kernel)).2 hquiet _ (by decide +kernel)).mpr
      (.inr (.inr ⟨.inl (by decide +kernel), ?_⟩))⟩
  exact fun hcopy => absurd hcopy (by decide)

end OpenRar.Archive
