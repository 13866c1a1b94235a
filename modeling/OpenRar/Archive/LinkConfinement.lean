import OpenRar.Archive.ExtractionSteps

/-!
# Links and sources of an extraction

Two results about whole extractions.  `extractAll_links_inside`: when every symbolic link
that an archive asks for climbs only at its start, and no further than its own directory
lies below the root, no link below the root ever leads out of it.
`extractAll_sources_inside`: when entries lie as deep below the root as their names say,
what a hard link or a copy takes is inside the root, unless its path ends in a link.

Both conditions go beyond the checks of the source; the runs at the end show extractions
that pass the checks and lead outside.
-/

namespace OpenRar.Archive

open FileTree List Option

/-! ## Depths -/

/-- The suffix of a version is made of `;` and digits. -/
theorem versionSuffix_range (o : Options) (e : ArchiveEntry) :
    ∀ b ∈ versionSuffix o e, 48 ≤ b.toNat := by
  unfold versionSuffix
  split
  · intro b h
    obtain ⟨c, hc, rfl⟩ := mem_map.mp h
    rcases mem_cons.mp hc with rfl | hc
    · decide
    · have hdigit := Nat.isDigit_of_mem_toDigits (by decide) (by decide) hc
      have hrange : 48 ≤ c.toNat ∧ c.toNat ≤ 57 := by
        simpa [Char.isDigit, UInt32.le_iff_toNat_le] using hdigit
      rw [UInt8.toNat_ofNat', Nat.mod_eq_of_lt (by omega)]
      exact hrange.1
  · exact fun b h => absurd h not_mem_nil

theorem slash_not_mem_versionSuffix (o : Options) (e : ArchiveEntry) :
    slash ∉ versionSuffix o e :=
  fun h => absurd (versionSuffix_range o e slash h) (by decide)

/-- The target of an entry is a path of proper names. -/
theorem Options.target_proper {o : Options} {e : ArchiveEntry} {comps : List Name}
    (h : o.target e = some comps) : comps ≠ [] ∧ ∀ c ∈ comps, Proper c := by
  unfold Options.target at h
  dsimp only at h
  split at h
  · exact nomatch h
  next hkept =>
  have hproper := sanitizeComponents_proper e.header.fileName
  have hne : sanitizeComponents e.header.fileName ≠ [] := fun hnil => hkept (by
    simp [sanitizeArchivePath, hnil, joinComponents])
  obtain ⟨parts, last, hparts⟩ := eq_nil_or_concat _ |>.resolve_left hne
  rw [concat_eq_append] at hparts
  rw [sanitizeArchivePath, hparts, joinComponents_concat] at h
  rw [hparts] at hproper
  -- the suffix belongs to the last component
  have hall : ∀ c ∈ parts ++ [last ++ versionSuffix o e], Proper c := by
    intro c hc
    rcases mem_append.mp hc with hc | hc
    · exact hproper c (mem_append_left _ hc)
    · rw [mem_singleton.mp hc]
      exact (hproper last (by simp)).append (slash_not_mem_versionSuffix o e)
        fun hzero => absurd (versionSuffix_range o e 0 hzero) (by decide)
  rw [splitOn_joinComponents (by simp) fun c hc => (hall c hc).no_slash] at h
  split at h
  · cases h
    exact ⟨by simp, hall⟩
  · cases h
    rw [getLastD_concat]
    exact ⟨cons_ne_nil _ _, fun c hc => hall c (mem_append_right _ hc)⟩

variable {e : ArchiveEntry} {comps base rel : List Name} {root : Root} {t : FileSystem}
    {s : Session}

/-- In the full layout the target of an entry is as deep as its name. -/
theorem target_length {o : Options}
    (hlayout : o.layout = .full ∨ sanitizedNameDepth e.header.fileName = 1)
    (h : o.target e = some comps) : sanitizedNameDepth e.header.fileName = comps.length := by
  unfold Options.target at h
  dsimp only at h
  split at h
  · cases h
  · next hskip =>
    split at h
    · cases h
      have hsafe : sanitizeArchivePath e.header.fileName ≠ [] := by
        intro hnil
        simp [hnil] at hskip
      rw [length_splitOn, count_append,
        count_eq_zero.mpr (slash_not_mem_versionSuffix o e), sanitizedNameDepth, if_neg hsafe]
    · next hflat =>
      cases h
      rcases hlayout with hfull | hone
      · rw [hflat] at hfull
        cases hfull
      · exact hone

/-- Such an entry's sources are confined to the root itself. -/
theorem redirSource_base {path : List Name}
    (hdepth : sanitizedNameDepth e.header.fileName = comps.length)
    (h : redirSource root e comps = some ((path, base), rel)) :
    base = root.place ∧ resolveUnderRoot (copyTarget e) = some rel := by
  obtain ⟨b, hb, h⟩ := bind_eq_some_iff.mp h
  obtain ⟨r, hr, h⟩ := bind_eq_some_iff.mp h
  cases h
  unfold getDestRoot at hb
  rw [hdepth, if_pos le_rfl, Nat.sub_self] at hb
  exact ⟨(Prod.mk.inj (root.above_zero _ hb)).2, hr⟩

/-! ## Sources -/

/-- The path of a source that passed the scan: names without a link among them, and a
last component. -/
theorem source_path (hne : rel ≠ []) (hsolid : ∀ c ∈ rel, Solid c)
    (hscan : linkedBelow t base rel = false) :
    ∃ (names : List Name) (last : Component Name),
      osPath rel = names.map .name ++ [last] ∧ names.length < rel.length ∧
        t.Linkless base names := by
  obtain ⟨names, last, hpath, hlength, htake⟩ := solid_path hne hsolid
  refine ⟨names, last, hpath, hlength, ?_⟩
  -- the scan looks at the path of every name that is not the last
  intro i hi
  have hclear : isReparseOrSymlink t base (rel.take (i + 1)) = false := by
    have hmem : i ∈ List.range (rel.length - 1) := mem_range.mpr (by omega)
    simpa using any_eq_false.mp hscan i hmem
  have hsplit : names.take (i + 1) = names.take i ++ [names[i]] := (take_append_getElem hi).symm
  rw [hsplit, ← append_assoc]
  refine @Tree.isLinkAt_false_of_locate _ _ _ _ _ _ _ maxSymlinks fun q hq => ?_
  rw [← hsplit] at hq
  unfold isReparseOrSymlink osPath at hclear
  rw [htake i hi, hq] at hclear
  exact hclear

/-- An inode that is linked lies below the base, no deeper than the target says. -/
theorem inode_below {q : List Name} {v : Node Name UInt8} (hbase : t.node base = some .dir)
    (hne : rel ≠ []) (hsolid : ∀ c ∈ rel, Solid c)
    (hscan : linkedBelow t base rel = false)
    (hq : t.locate maxSymlinks base (osPath rel) = some q) (hv : t.node q = some v)
    (hdir : v ≠ .dir) :
    ∃ (names : List Name) (n : Name), q = base ++ names ++ [n] ∧ names.length < rel.length := by
  obtain ⟨names, last, hpath, hlength, hlinkless⟩ := source_path hne hsolid hscan
  obtain ⟨jump, hjump⟩ := Tree.follow_eq_walkWith t maxSymlinks
  unfold Tree.locate at hq
  rw [hpath, List.getLast?_append_cons, List.getLast?_singleton] at hq
  cases last with
  | name n =>
    rw [dropLast_concat] at hq
    obtain ⟨p, hp, rfl⟩ := map_eq_some_iff.mp hq
    exact ⟨names, n, by rw [Tree.walkWith_names hlinkless hp], hlength⟩
  | here =>
    -- the directory that the names lead to
    obtain ⟨hwalk, hdirs⟩ := Tree.walkWith_linkless hlinkless (cons_ne_nil _ _) hq
    cases hwalk
    rw [hdirs hbase] at hv
    cases hv
    exact absurd rfl hdir
  | up =>
    obtain ⟨hwalk, hdirs⟩ := Tree.walkWith_linkless hlinkless (cons_ne_nil _ _) hq
    cases hwalk
    rw [t.node_dropLast (hdirs hbase)] at hv
    cases hv
    exact absurd rfl hdir

variable {p : List Name} {t' : FileSystem} {s' : Session}

theorem contents_below {bytes : List UInt8} (hbase : t.node base = some .dir)
    (hne : rel ≠ []) (hsolid : ∀ c ∈ rel, Solid c)
    (hscan : linkedBelow t base rel = false) (hleaf : isReparseOrSymlink t base rel = false)
    (hp : t.follow maxSymlinks base (osPath rel) = some p) (hv : t.node p = some (.file bytes)) :
    base <+: p := by
  obtain ⟨names, last, hpath, -, hlinkless⟩ := source_path hne hsolid hscan
  obtain ⟨jump, hjump⟩ := Tree.follow_eq_walkWith t maxSymlinks
  rw [hpath, hjump] at hp
  obtain ⟨hwalk, hdirs⟩ := Tree.walkWith_linkless hlinkless (cons_ne_nil _ _) hp
  cases last with
  | name n =>
    have hlocate : t.locate maxSymlinks base (osPath rel) = some (base ++ names ++ [n]) := by
      unfold Tree.locate
      rw [hpath, List.getLast?_append_cons, List.getLast?_singleton, dropLast_concat, hjump,
        Tree.walkWith_dirs t jump (hdirs hbase)]
      rfl
    have hplain : t.isLinkAt (base ++ names ++ [n]) = false := by
      unfold isReparseOrSymlink at hleaf
      rwa [hlocate] at hleaf
    have hone : t.Linkless (base ++ names) [n] := by
      intro i hi
      simpa using hplain
    rw [Tree.walkWith_names hone hwalk, append_assoc]
    exact prefix_append _ _
  | here =>
    cases hwalk
    exact prefix_append _ _
  | up =>
    cases hwalk
    rw [t.node_dropLast (hdirs hbase)] at hv
    cases hv

/-! ## The root stays a directory -/

theorem Change.node_root (h : Change root e comps t t') (hroot : t.node root.place = some .dir) :
    t'.node root.place = some .dir := by
  cases h with
  | put p v hfree _ hnode =>
    have hne : root.place ≠ p := by
      rintro rfl
      exact hfree hroot
    rw [hnode, if_neg hne, hroot]
  | drop p hp hnode =>
    have hne : root.place ≠ p := by
      rintro rfl
      exact hp hroot rfl
    rw [hnode, if_neg hne, hroot]

/-! ## Sources stay inside -/

/-- The root is a directory, and what was taken without following a link is inside. -/
structure SourcesInside (root : Root) (s : Session) : Prop where
  root_dir : s.tree.node root.place = some .dir
  inside : ∀ source ∈ s.sources, source.followed = false → root.place <+: source.place

theorem Draws.inside {source : Source}
    (hdepth : sanitizedNameDepth e.header.fileName = comps.length)
    (hroot : t.node root.place = some .dir) (h : Draws root e comps t source)
    (hplain : source.followed = false) : root.place <+: source.place := by
  cases h with
  | inode hsource hscan hq hv hdir =>
    obtain ⟨rfl, hrel⟩ := redirSource_base hdepth hsource
    obtain ⟨hne, hsolid⟩ := resolveUnderRoot_solid hrel
    obtain ⟨names, n, hplace, -⟩ := inode_below hroot hne hsolid hscan hq hv hdir
    show root.place <+: _
    rw [hplace, append_assoc]
    exact prefix_append _ _
  | contents hsource hscan hp hv =>
    obtain ⟨rfl, hrel⟩ := redirSource_base hdepth hsource
    obtain ⟨hne, hsolid⟩ := resolveUnderRoot_solid hrel
    exact contents_below hroot hne hsolid hscan hplain hp hv

theorem Step.sourcesInside
    (hdepth : sanitizedNameDepth e.header.fileName = comps.length) (h : Step root e comps s s')
    (hs : SourcesInside root s) : SourcesInside root s' := by
  cases h with
  | change h => exact ⟨h.node_root hs.root_dir, hs.inside⟩
  | draw h =>
    refine ⟨hs.root_dir, fun source hmem hplain => ?_⟩
    rcases mem_cons.mp hmem with rfl | hmem
    · exact h.inside hdepth hs.root_dir hplain
    · exact hs.inside source hmem hplain
  | noteLink links => exact ⟨hs.root_dir, hs.inside⟩
  | noteCreated paths => exact ⟨hs.root_dir, hs.inside⟩

/-- The sources of a whole extraction. -/
theorem extractAll_sources_inside (o : Options) (root : Root) (t : FileSystem)
    (hroot : t.node root.place = some .dir) (entries : List ArchiveEntry)
    (hlayout : ∀ e ∈ entries, o.layout = .full ∨ sanitizedNameDepth e.header.fileName = 1) :
    ∀ source ∈ (extractAll o root (.start t) entries).sources,
      source.followed = false → root.place <+: source.place := by
  refine (extractAll_invariant (I := SourcesInside root) ?_ ?_).inside
  · intro e he comps htarget s s' hstep hs
    exact hstep.sourcesInside (target_length (hlayout e he) htarget) hs
  · exact ⟨hroot, fun source hmem => absurd hmem not_mem_nil⟩

/-! ## A root to run on -/

/-- The root of an absolute path without links. -/
def Root.ofPath (path : List Name) (hne : path ≠ []) : Root where
  path := path
  place := path
  place_ne := hne
  above k :=
    if k < path.length then some (path.take (path.length - k), path.take (path.length - k))
    else none
  above_zero := by
    intro r h
    rw [if_pos (length_pos_of_ne_nil hne), Nat.sub_zero, take_length] at h
    exact (Option.some.inj h).symm
  chainLinked := false

def homeName : Name := ascii ['h']
def outName : Name := ascii ['o']
def secretName : Name := ascii ['s']
def linkName : Name := ascii ['l']
def copyName : Name := ascii ['c']
def dirName : Name := ascii ['d']

/-- The directory `/h/o`. -/
def outRoot : Root := .ofPath [homeName, outName] (by simp)

/-- An empty root, and a file next to it. -/
def outTree : FileSystem :=
  Tree.empty.plant
    [([], homeName, .dir), ([homeName], outName, .dir), ([homeName], secretName, .file [1])]

/-- An entry that redirects. -/
def redirection (type : Nat) (name target : Name) : ArchiveEntry where
  header := { fileName := name, redir := { type := type, target := target } }

def fullLayout : Options := { layout := .full, extractSymlinks := true }

def flatLayout : Options := { layout := .flat, extractSymlinks := true }

/-- Something was taken from outside the root. -/
def DrawsOutside (root : Root) (s : Session) : Prop :=
  ∃ source ∈ s.sources, ¬ root.place <+: source.place

theorem drawsOutside_of_any
    (h : (s.sources.any fun source => !root.place.isPrefixOf source.place) = true) :
    DrawsOutside root s := by
  obtain ⟨source, hmem, hout⟩ := any_eq_true.mp h
  refine ⟨source, hmem, fun hin => ?_⟩
  rw [ isPrefixOf_iff_prefix.mpr hin] at hout
  exact Bool.noConfusion hout

/-- A link at `/h/o/l` that was there before. -/
def linkedTree : FileSystem :=
  outTree.plant
    [([homeName, outName], linkName, .link ⟨true, [.name homeName, .name secretName]⟩)]

/-- A copy follows a link at the end of its source, and in the flat layout the root it is
confined to is taken from above the extraction root. -/
theorem extractAll_sources_outside :
    DrawsOutside outRoot
        (extractAll fullLayout outRoot (.start linkedTree) [redirection 5 copyName linkName]) ∧
      DrawsOutside outRoot
        (extractAll flatLayout outRoot (.start outTree)
          [redirection 5 (dirName ++ slash :: copyName) secretName]) :=
  ⟨drawsOutside_of_any (by decide +kernel), drawsOutside_of_any (by decide +kernel)⟩

/-- A copy of a file of the root, in a root that holds a link. -/
theorem extractAll_sources_inside_copy :
    (linkedTree.plant [([homeName, outName], dirName, .file [2])]).node outRoot.place = some .dir ∧
      ∀ source ∈ (extractAll fullLayout outRoot
          (.start (linkedTree.plant [([homeName, outName], dirName, .file [2])]))
          [redirection 5 copyName dirName]).sources,
        source.followed = false → outRoot.place <+: source.place :=
  ⟨by decide +kernel,
    extractAll_sources_inside fullLayout outRoot _ (by decide +kernel) _ fun _ _ => .inl rfl⟩

/-! ## Links stay inside -/

/-- A redirection that keeps every link confined: a symbolic link whose text is confined
at its own place, or a hard link no shallower than what it names. -/
def confinedEntry (e : ArchiveEntry) (comps : List Name) : Bool :=
  match e.header.redir.type with
  | 1 | 2 | 3 => (linkTarget (strippedTarget e)).confinedAt (comps.length - 1)
  | 4 =>
    sanitizedNameDepth e.header.fileName = comps.length &&
      (resolveUnderRoot (copyTarget e)).all (·.length ≤ comps.length)
  | _ => true

/-- Every entry is skipped, refused or confined. -/
def confinedArchive (o : Options) (entries : List ArchiveEntry) : Bool :=
  entries.all fun e => (o.target e).all fun comps => unsafeTarget e || confinedEntry e comps

theorem Creates.confined {g : Target Name}
    (hentry : unsafeTarget e = true ∨ confinedEntry e comps = true)
    (hroot : t.node root.place = some .dir) (ht : Confined root.place t)
    (h : Creates root e comps t p (.link g)) :
    p = root.place ++ comps ∧ g.confinedAt (comps.length - 1) = true := by
  cases h with
  | symlink htype hsafe =>
    refine ⟨rfl, ?_⟩
    have hconfined := hentry.resolve_left (by simp [hsafe])
    unfold confinedEntry at hconfined
    rcases htype with htype | htype | htype
    all_goals
      rw [htype] at hconfined
      exact hconfined
  | hardLink htype hsafe hsource hscan hq hv hdir =>
    have hconfined := hentry.resolve_left (by simp [hsafe])
    unfold confinedEntry at hconfined
    rw [htype] at hconfined
    obtain ⟨hdepth, hall⟩ := Bool.and_eq_true_iff.mp hconfined
    obtain ⟨rfl, hrel⟩ := redirSource_base (of_decide_eq_true hdepth) hsource
    obtain ⟨hrelNe, hsolid⟩ := resolveUnderRoot_solid hrel
    obtain ⟨names, n, rfl, hlength⟩ := inode_below hroot hrelNe hsolid hscan hq hv hdir
    rw [hrel] at hall
    have hle : names.length ≤ comps.length - 1 := by
      have := of_decide_eq_true hall
      omega
    exact ⟨rfl, Target.confinedAt_mono hle (ht names n g hv)⟩

theorem Change.confined (hentry : unsafeTarget e = true ∨ confinedEntry e comps = true)
    (hroot : t.node root.place = some .dir) (ht : Confined root.place t)
    (h : Change root e comps t t') : Confined root.place t' := by
  cases h with
  | put p v _ hcreates hnode =>
    intro below n g hg
    rw [hnode] at hg
    split at hg
    · next heq =>
      cases hg
      obtain ⟨hp, hconfined⟩ := hcreates.confined hentry hroot ht
      -- the new link is at the destination, whose depth the entry was measured against
      have hcomps : below ++ [n] = comps := by
        rw [hp, append_assoc] at heq
        exact append_cancel_left heq
      rw [← hcomps] at hconfined
      simpa using hconfined
    · exact ht below n g hg
  | drop p _ hnode =>
    refine ht.mono fun q g hg => ?_
    rw [hnode] at hg
    split at hg
    · cases hg
    · exact hg

/-- The root is a directory, and every link below it is confined. -/
def WellLinked (root : Root) (t : FileSystem) : Prop :=
  t.node root.place = some .dir ∧ Confined root.place t

/-- Now and at every moment before. -/
structure LinksInside (root : Root) (s : Session) : Prop where
  now : WellLinked root s.tree
  before : ∀ t ∈ s.moments, WellLinked root t

theorem Step.linksInside (hentry : unsafeTarget e = true ∨ confinedEntry e comps = true)
    (h : Step root e comps s s') (hs : LinksInside root s) : LinksInside root s' := by
  cases h with
  | change h =>
    have hnow : WellLinked root _ := ⟨h.node_root hs.now.1, h.confined hentry hs.now.1 hs.now.2⟩
    refine ⟨hnow, fun t ht => ?_⟩
    rcases mem_cons.mp ht with rfl | ht
    · exact hnow
    · exact hs.before t ht
  | draw h => exact ⟨hs.now, hs.before⟩
  | noteLink links => exact ⟨hs.now, hs.before⟩
  | noteCreated paths => exact ⟨hs.now, hs.before⟩

/-- The links of a whole extraction, at every moment of it. -/
theorem extractAll_links_inside (o : Options) (root : Root) (t : FileSystem)
    (hroot : t.node root.place = some .dir)
    (hlinkless : ∀ below g, t.node (root.place ++ below) ≠ some (.link g))
    (entries : List ArchiveEntry) (hentries : confinedArchive o entries = true) :
    ∀ moment ∈ (extractAll o root (.start t) entries).moments,
      ∀ below n g, moment.node (root.place ++ below ++ [n]) = some (.link g) →
        ∀ budget p, moment.follow budget (root.place ++ below) [.name n] = some p →
          root.place <+: p := by
  have hstart : WellLinked root t := by
    refine ⟨hroot, fun below n g hg => ?_⟩
    rw [append_assoc] at hg
    exact absurd hg (hlinkless _ g)
  have hrun : LinksInside root (extractAll o root (.start t) entries) := by
    refine extractAll_invariant ?_ ⟨hstart, fun m hm => mem_singleton.mp hm ▸ hstart⟩
    intro e he comps htarget s s' hstep hs
    have hentry := all_eq_true.mp hentries e he
    rw [htarget] at hentry
    exact hstep.linksInside (Bool.or_eq_true_iff.mp hentry) hs
  intro moment hmoment below n g _ budget p hfollow
  exact (hrun.before moment hmoment).2.follow_inside budget (climb_of_not_mem (by simp))
    (Nat.zero_le _) hfollow

/-- At some moment a link below the root leads out of it. -/
def LinksOutside (root : Root) (s : Session) : Prop :=
  ∃ moment ∈ s.moments, ∃ below n g budget p,
    moment.node (root.place ++ below ++ [n]) = some (.link g) ∧
      moment.follow budget (root.place ++ below) [.name n] = some p ∧ ¬ root.place <+: p

theorem linksOutside_of_any (below : List Name) (n : Name) (h : (s.moments.any fun t =>
        t.isLinkAt (root.place ++ below ++ [n]) &&
          (t.follow maxSymlinks (root.place ++ below) [.name n]).any
            fun p => !root.place.isPrefixOf p) = true) : LinksOutside root s := by
  obtain ⟨t, ht, hboth⟩ := any_eq_true.mp h
  obtain ⟨hlink, hout⟩ := Bool.and_eq_true_iff.mp hboth
  obtain ⟨g, hg⟩ := Tree.isLinkAt_iff.mp hlink
  obtain ⟨p, hp, hout⟩ := (any_eq_true _ _).mp hout
  refine ⟨t, ht, below, n, g, maxSymlinks, p, hg, hp, fun hin => ?_⟩
  rw [ isPrefixOf_iff_prefix.mpr hin] at hout
  exact Bool.noConfusion hout

/-- Two dots. -/
def parentText : Name := [dot, dot]

/-- Three archives that pass the checks.  A zero byte hides the climb from the check, the
climb of one link starts behind another, and the flat layout drops the directories that
the check counted on. -/
theorem extractAll_links_outside :
    (outTree.node outRoot.place = some .dir ∧
        ∀ below g, outTree.node (outRoot.place ++ below) ≠ some (.link g)) ∧
      LinksOutside outRoot
        (extractAll fullLayout outRoot (.start outTree)
          [redirection 1 linkName (parentText ++ [0])]) ∧
      LinksOutside outRoot
        (extractAll fullLayout outRoot (.start outTree)
          [redirection 1 (dirName ++ slash :: linkName) parentText,
            redirection 1 copyName
              (dirName ++ slash :: linkName ++ slash :: parentText ++ slash :: secretName)]) ∧
      LinksOutside outRoot
        (extractAll flatLayout outRoot (.start outTree)
          [redirection 1 (dirName ++ slash :: linkName) (parentText ++ slash :: secretName)]) := by
  refine ⟨⟨by decide +kernel, fun below g => Tree.node_ne_link (by decide +kernel) _ g⟩, ?_, ?_, ?_⟩
  · exact linksOutside_of_any [] linkName (by decide +kernel)
  · exact linksOutside_of_any [] copyName (by decide +kernel)
  · exact linksOutside_of_any [] linkName (by decide +kernel)

/-- Two links, the second of them through the first. -/
theorem extractAll_links_inside_pair :
    confinedArchive fullLayout
        [redirection 1 (dirName ++ slash :: linkName) (parentText ++ slash :: dirName),
          redirection 1 copyName (dirName ++ slash :: linkName)] = true ∧
      ∀ moment ∈ (extractAll fullLayout outRoot (.start outTree)
          [redirection 1 (dirName ++ slash :: linkName) (parentText ++ slash :: dirName),
            redirection 1 copyName (dirName ++ slash :: linkName)]).moments,
        ∀ below n g, moment.node (outRoot.place ++ below ++ [n]) = some (.link g) →
          ∀ budget p, moment.follow budget (outRoot.place ++ below) [.name n] = some p →
            outRoot.place <+: p :=
  ⟨by decide +kernel,
    extractAll_links_inside fullLayout outRoot outTree (by decide +kernel)
      (fun _ g => Tree.node_ne_link (by decide +kernel) _ g) _ (by decide +kernel)⟩

end OpenRar.Archive
