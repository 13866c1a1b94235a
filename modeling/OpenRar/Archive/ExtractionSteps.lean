import OpenRar.Archive.LinkExtraction

/-!
# What an extraction does to the tree

Every function of the extraction is a sequence of the steps of `Step`: a node is put
where no directory stands, a node is taken away, something is noted.  `Creates` lists the
nodes that an entry can put, `Draws` the places it can take contents or an inode from.
`extractAll_invariant` is the rule that the results about whole extractions use.
-/

namespace OpenRar.Archive

open FileTree Relation List

/-! ## Steps -/

section Steps

variable (root : Root) (e : ArchiveEntry) (comps : List Name)

/-- The nodes that the entry can put, and where. -/
inductive Creates (t : FileSystem) : List Name → Node Name UInt8 → Prop
  | dir {p : List Name} : Creates t p .dir
  | file {p : List Name} {bytes : List UInt8} : Creates t p (.file bytes)
  | symlink (htype : e.header.redir.type = 1 ∨ e.header.redir.type = 2 ∨ e.header.redir.type = 3)
      (hsafe : unsafeTarget e = false) :
      Creates t (root.place ++ comps) (.link (linkTarget (strippedTarget e)))
  | hardLink {path base rel q : List Name} {v : Node Name UInt8} (htype : e.header.redir.type = 4)
      (hsafe : unsafeTarget e = false)
      (hsource : redirSource root e comps = some ((path, base), rel))
      (hscan : linkedBelow t base rel = false)
      (hq : t.locate maxSymlinks base (osPath rel) = some q) (hv : t.node q = some v)
      (hdir : v ≠ .dir) : Creates t (root.place ++ comps) v

/-- The places that the entry can take an inode or contents from. -/
inductive Draws (t : FileSystem) : Source → Prop
  | inode {path base rel q : List Name} {v : Node Name UInt8}
      (hsource : redirSource root e comps = some ((path, base), rel))
      (hscan : linkedBelow t base rel = false)
      (hq : t.locate maxSymlinks base (osPath rel) = some q) (hv : t.node q = some v)
      (hdir : v ≠ .dir) : Draws t ⟨q, false⟩
  | contents {path base rel p : List Name} {bytes : List UInt8}
      (hsource : redirSource root e comps = some ((path, base), rel))
      (hscan : linkedBelow t base rel = false)
      (hp : t.follow maxSymlinks base (osPath rel) = some p)
      (hv : t.node p = some (.file bytes)) :
      Draws t ⟨p, isReparseOrSymlink t base rel⟩

/-- One change of the tree. -/
inductive Change (t t' : FileSystem) : Prop
  | put (p : List Name) (v : Node Name UInt8) (hfree : t.node p ≠ some .dir)
      (hcreates : Creates root e comps t p v)
      (hnode : ∀ q, t'.node q = if q = p then some v else t.node q)
  | drop (p : List Name) (hroot : t.node p = some .dir → p ≠ root.place)
      (hnode : ∀ q, t'.node q = if q = p then none else t.node q)

/-- One step of the entry's extraction. -/
inductive Step (s : Session) : Session → Prop
  | change {t : FileSystem} (h : Change root e comps s.tree t) : Step s (s.advance t)
  | draw {source : Source} (h : Draws root e comps s.tree source) :
      Step s { s with sources := source :: s.sources }
  | noteLink (links : List (List Name)) : Step s { s with linksCreated := links }
  | noteCreated (paths : List (List Name)) : Step s { s with sessionCreated := paths }

end Steps

variable {root : Root} {e : ArchiveEntry} {comps : List Name}

variable {s : Session} {v : Node Name UInt8} {t : FileSystem}

variable {d p base rel : List Name} {n : Name} {s' : Session} {o : Options} {I : Session → Prop}

theorem Step.of_create (h : s.tree.create d n v = some t)
    (hcreates : Creates root e comps s.tree (d ++ [n]) v) : Step root e comps s (s.advance t) := by
  obtain ⟨hfree, hnode⟩ := Tree.create_eq_some h
  exact .change (.put _ v (by simp [hfree]) hcreates hnode)

theorem Step.of_replace (h : s.tree.replace d n v = some t)
    (hcreates : Creates root e comps s.tree (d ++ [n]) v) : Step root e comps s (s.advance t) := by
  obtain ⟨hfree, hnode⟩ := Tree.replace_eq_some h
  exact .change (.put _ v hfree hcreates hnode)

/-! ## The functions as steps -/

theorem removeAt_steps (hroot : s.tree.node p = some .dir → p ≠ root.place) :
    ReflTransGen (Step root e comps) s (s.removeAt p) := by
  unfold Session.removeAt
  split
  · next t h => exact .single (.change (.drop p hroot (Tree.remove_eq_some h)))
  · exact .refl

theorem makeDirs_steps {enter : FileSystem → List Name → Name → Option (List Name)}
    {place dirs : List Name} {ok : Bool}
    (h : makeDirs enter s place dirs = (s', ok)) : ReflTransGen (Step root e comps) s s' := by
  induction dirs generalizing s place with
  | nil =>
    cases h
    exact .refl
  | cons n rest ih =>
    rw [makeDirs] at h
    split at h
    · cases h
      exact .refl
    · split at h
      · exact ih h
      · split at h
        · next t ht => exact .head (.of_create ht .dir) (ih h)
        · cases h
          exact .refl
      · cases h
        exact .refl

theorem convertSelfLink_steps (dest : List Name) (s : Session) (link : List Name) :
    ReflTransGen (Step root e comps) s (convertSelfLink root dest s link) := by
  unfold convertSelfLink
  split
  · next h =>
    have hlink := (Bool.and_eq_true_iff.mp h).2
    unfold isReparseOrSymlink at hlink
    split
    · next p hp =>
      rw [hp] at hlink
      obtain ⟨g, hg⟩ := Tree.isLinkAt_iff.mp hlink
      -- a link is no directory, so it is not the root
      refine (removeAt_steps fun hdir => ?_).trans (makeDirs_steps rfl)
      rw [hg] at hdir
      cases hdir
    · exact .refl
  · exact .refl

theorem foldl_convertSelfLink_steps (dest : List Name) (links : List (List Name)) (s : Session) :
    ReflTransGen (Step root e comps) s (links.foldl (convertSelfLink root dest) s) :=
  List.foldlRecOn links _ .refl fun s' hs' link _ => hs'.trans (convertSelfLink_steps dest s' link)

theorem commitFile_steps (dest : List Name) (s : Session) (bytes : List UInt8) :
    ReflTransGen (Step root e comps) s (commitFile root s dest bytes).1 := by
  unfold commitFile
  split
  · next t h => exact .single (.of_replace h .file)
  · exact .refl

theorem extractFile_steps (s : Session) :
    ReflTransGen (Step root e comps) s (extractFile root s e comps).1 := by
  unfold extractFile
  refine (foldl_convertSelfLink_steps comps s.linksCreated s).trans ?_
  dsimp only
  split
  · exact .refl
  · split
    · next h => exact makeDirs_steps h
    · next h =>
      refine (makeDirs_steps h).trans ?_
      split
      · exact commitFile_steps comps _ _
      · exact .refl

theorem dest_eq (root : Root) (hne : comps ≠ []) :
    destDir root comps ++ [destLeaf comps] = root.place ++ comps := by
  have hleaf : destLeaf comps = comps.getLast hne := by
    simp [destLeaf, List.getLast?_eq_some_getLast hne]
  rw [destDir, hleaf, append_assoc, dropLast_append_getLast]

theorem createSymlink_steps (hne : comps ≠ []) (s : Session)
    (htype : e.header.redir.type = 1 ∨ e.header.redir.type = 2 ∨ e.header.redir.type = 3)
    (hsafe : unsafeTarget e = false) :
    ReflTransGen (Step root e comps) s (createSymlink root s e comps).1 := by
  unfold createSymlink
  split
  · exact .refl
  · split
    · next t h =>
      refine .tail (.single (.of_create h ?_)) (.noteLink _)
      rw [dest_eq root hne]
      exact .symlink htype hsafe
    · exact .refl

theorem commitCopy_steps {source : Source} (bytes : List UInt8)
    (h : Draws root e comps s.tree source) :
    ReflTransGen (Step root e comps) s (commitCopy root s comps source bytes).1 := by
  unfold commitCopy commitFile
  cases hcommit : s.tree.replace (destDir root comps) (destLeaf comps) (.file bytes) with
  | none => exact .refl
  | some t =>
    refine .head (.draw h) (.single ?_)
    exact Step.of_replace (s := { s with sources := source :: s.sources }) hcommit .file

theorem statNode_eq_some (h : statNode t base rel = some (p, v)) :
    t.follow maxSymlinks base (osPath rel) = some p ∧ t.node p = some v := by
  obtain ⟨q, hq, h⟩ := Option.bind_eq_some_iff.mp h
  obtain ⟨w, hw, h⟩ := Option.bind_eq_some_iff.mp h
  cases h
  exact ⟨hq, hw⟩

theorem linkOrCopy_steps (hne : comps ≠ []) {path : List Name}
    (htype : e.header.redir.type = 4) (hsafe : unsafeTarget e = false)
    (hsource : redirSource root e comps = some ((path, base), rel))
    (hscan : linkedBelow s.tree base rel = false) :
    ReflTransGen (Step root e comps) s (linkOrCopy root s e comps base rel).1 := by
  unfold linkOrCopy
  split
  · exact .refl
  · next q hq =>
    split
    · exact .refl
    · exact .refl
    · next v hdir hv =>
      split
      · -- across file systems the contents are copied
        split
        · next p bytes hstat =>
          obtain ⟨hp, hfile⟩ := statNode_eq_some hstat
          have hlinked : isReparseOrSymlink s.tree base rel = s.tree.isLinkAt q := by
            unfold isReparseOrSymlink
            rw [hq]
          exact commitCopy_steps bytes (hlinked ▸ .contents hsource hscan hp hfile)
        · exact commitFile_steps comps _ _
        · exact .refl
      · split
        · next t h =>
          have hv' : v ≠ .dir := fun heq => hdir heq
          refine .head (.draw (.inode hsource hscan hq hv hv')) (.single ?_)
          refine Step.of_create (s := { s with sources := ⟨q, false⟩ :: s.sources }) h ?_
          rw [dest_eq root hne]
          exact .hardLink htype hsafe hsource hscan hq hv hv'
        · exact .refl

theorem createHardLink_steps (hne : comps ≠ []) (s : Session)
    (htype : e.header.redir.type = 4) (hsafe : unsafeTarget e = false) :
    ReflTransGen (Step root e comps) s (createHardLink root s e comps).1 := by
  unfold createHardLink
  split
  · exact .refl
  · split
    · exact .refl
    · next path base rel hsource =>
      split
      · exact .refl
      · split
        · exact .refl
        · split
          · exact .refl
          · next hscan =>
            exact linkOrCopy_steps hne htype hsafe hsource (Bool.eq_false_of_not_eq_true hscan)

theorem copyFile_steps (s : Session) :
    ReflTransGen (Step root e comps) s (copyFile root s e comps).1 := by
  unfold copyFile
  split
  · exact .refl
  · split
    · exact .refl
    · next path base rel hsource =>
      split
      · exact .refl
      · next p v hstat =>
        split
        · exact .refl
        · next hscan =>
          obtain ⟨hp, hv⟩ := statNode_eq_some hstat
          split
          · exact commitCopy_steps _ (.contents hsource (Bool.eq_false_of_not_eq_true hscan) hp hv)
          · exact .refl

theorem createRedirection_steps (hne : comps ≠ []) (s : Session) (hsafe : unsafeTarget e = false) :
    ReflTransGen (Step root e comps) s (createRedirection root s e comps).1 := by
  unfold createRedirection
  split
  · next h => exact createSymlink_steps hne s (.inl h) hsafe
  · next h => exact createSymlink_steps hne s (.inr (.inl h)) hsafe
  · next h => exact createSymlink_steps hne s (.inr (.inr h)) hsafe
  · next h => exact createHardLink_steps hne s h hsafe
  · exact copyFile_steps s
  · exact .refl

theorem extractRedirection_steps (hne : comps ≠ []) (s : Session) :
    ReflTransGen (Step root e comps) s (extractRedirection root s e comps).1 := by
  unfold extractRedirection
  split
  · exact .refl
  · next hsafe =>
    split
    · exact .refl
    · split
      · next h => exact makeDirs_steps h
      · next h =>
        refine (makeDirs_steps h).trans (.trans (removeAt_steps fun _ => ?_)
          (createRedirection_steps hne _ (Bool.eq_false_of_not_eq_true hsafe)))
        simpa using hne

theorem extractEntry_steps (o : Options) (hne : comps ≠ []) (s : Session) :
    ReflTransGen (Step root e comps) s (extractEntry o root s e comps).1 := by
  have himpl : ReflTransGen (Step root e comps) s (extractEntryImpl o root s e comps).1 := by
    unfold extractEntryImpl
    split
    · exact makeDirs_steps rfl
    · split
      · split
        · exact .refl
        · exact extractRedirection_steps hne s
      · exact extractFile_steps s
  unfold extractEntry
  split
  · next s' h =>
    rw [h] at himpl
    exact himpl.tail (.noteCreated _)
  · next s' h =>
    rw [h] at himpl
    exact himpl

/-! ## Whole extractions -/

theorem target_ne_nil {e : ArchiveEntry} {comps : List Name}
    (h : o.target e = some comps) : comps ≠ [] := by
  unfold Options.target at h
  dsimp only at h
  split at h
  · cases h
  · split at h
    · cases h
      exact splitOn_ne_nil _ _
    · cases h
      exact cons_ne_nil _ _

theorem steps_invariant (hstep : ∀ s s', Step root e comps s s' → I s → I s')
    (hsteps : ReflTransGen (Step root e comps) s s') (hs : I s) : I s' := by
  induction hsteps with
  | refl => exact hs
  | tail _ hlast ih => exact hstep _ _ hlast ih

/-- What every step of every entry keeps holds at the end. -/
theorem extractAll_invariant {root : Root} {entries : List ArchiveEntry}
    (hstep : ∀ e ∈ entries, ∀ comps, o.target e = some comps →
      ∀ s s', Step root e comps s s' → I s → I s')
    (hs : I s) : I (extractAll o root s entries) := by
  induction entries generalizing s with
  | nil => exact hs
  | cons e entries ih =>
    have hrest := fun e' he' => hstep e' (mem_cons_of_mem _ he')
    rw [extractAll]
    split
    · exact ih hrest hs
    · next comps htarget =>
      have hentry : I (extractEntry o root s e comps).1 :=
        steps_invariant (hstep e mem_cons_self comps htarget)
          (extractEntry_steps o (target_ne_nil htarget) s) hs
      split
      · next s' h =>
        rw [h] at hentry
        exact ih hrest hentry
      · next s' h =>
        rw [h] at hentry
        exact hentry

end OpenRar.Archive
