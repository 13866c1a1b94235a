import OpenRar.Archive.SessionLinks

/-!
# Copies of earlier files

A `FILECOPY` entry names another entry of the archive, and is extracted as a copy of the file
that this entry became.  The file is written under its sanitised name; the reference is
resolved from the raw target.  `runCalls_copy` says that the copy comes out right when the
two agree: in an empty root, for calls whose destinations are apart, a copy whose target
resolves to the destination of an earlier file has the bytes of that file.

Entry names that the sanitiser changes break the reference: `runCalls_copy_lost`.
-/

namespace OpenRar.Archive

open FileTree List

/-! ## Directories on the way -/

section Directories

variable {s : Session} {place dirs : List Name}

/-- `resolve_dir` makes directories on the path itself, where nothing stood. -/
theorem resolveDir_node (s : Session) (place dirs q : List Name) :
    (resolveDir s place dirs).1.tree.node q = s.tree.node q ∨
      s.tree.node q = none ∧ ∃ i < dirs.length, q = place ++ dirs.take (i + 1) := by
  unfold resolveDir
  induction dirs generalizing s place with
  | nil => exact .inl rfl
  | cons n rest ih =>
    -- the directories further on are on the longer path too
    have hshift : (∃ i < rest.length, q = place ++ [n] ++ rest.take (i + 1)) →
        ∃ i < (n :: rest).length, q = place ++ (n :: rest).take (i + 1) := by
      rintro ⟨i, hi, hq⟩
      refine ⟨i + 1, by simpa using hi, ?_⟩
      rw [hq, take_succ_cons, append_assoc]
      rfl
    rw [makeDirs]
    split
    · exact .inl rfl
    · next p hp =>
      split at hp
      · cases hp
      cases hp
      split
      · exact (ih s (place ++ [n])).imp_right (.imp_right hshift)
      · split
        · next t ht =>
          obtain ⟨hfree, hnode⟩ := Tree.create_eq_some ht
          have hstep : (s.advance t).tree.node q = s.tree.node q ∨
              s.tree.node q = none ∧ q = place ++ [n] := by
            show t.node q = _ ∨ _
            rw [hnode]
            by_cases hq : q = place ++ [n]
            · exact .inr ⟨hq ▸ hfree, hq⟩
            · exact .inl (if_neg hq)
          rcases hstep with hsame | ⟨hnone, hq⟩
          · exact hsame ▸ (ih (s.advance t) (place ++ [n])).imp_right
              (.imp_right hshift)
          · exact .inr ⟨hnone, 0, Nat.succ_pos _, by simpa using hq⟩
        · exact .inl rfl
      · exact .inl rfl

/-- Without links on the way both functions make the same directories. -/
theorem createDirectories_eq_resolveDir (h : s.tree.Linkless place dirs) :
    createDirectories s place dirs = resolveDir s place dirs := by
  unfold createDirectories resolveDir
  induction dirs generalizing s place with
  | nil => rfl
  | cons n rest ih =>
    have henter : s.tree.follow maxSymlinks place [.name n] = some (place ++ [n]) := by
      obtain ⟨jump, hjump⟩ := Tree.follow_eq_walkWith s.tree maxSymlinks
      have hlink := h.head
      unfold Tree.isLinkAt at hlink
      rw [hjump, Tree.walkWith]
      cases hn : s.tree.node (place ++ [n]) with
      | none => rfl
      | some v =>
        rw [hn] at hlink
        cases v with
        | dir => rfl
        | file bytes => rfl
        | link g => cases hlink
    rw [makeDirs, makeDirs, henter, h.head]
    simp only [Bool.false_eq_true, if_false]
    split
    · exact ih h.tail
    · split
      · next t ht =>
        refine ih fun i hi => ?_
        have hnode := (Tree.create_eq_some ht).2 (place ++ [n] ++ rest.take (i + 1))
        have hold := h.tail i hi
        unfold Tree.isLinkAt at hold ⊢
        rw [Session.advance_tree, hnode]
        by_cases hmade : place ++ [n] ++ rest.take (i + 1) = place ++ [n]
        · rw [if_pos hmade]
          rfl
        · rw [if_neg hmade]
          exact hold
      · rfl
    · rfl

end Directories

/-! ## The frame of a call -/

/-- The trees before and after agree but for directories that are made where nothing stood,
and for a destination that is no directory afterwards. -/
def Frames (made : List Name → Prop) (dest : List Name) (t t' : FileSystem) : Prop :=
  ∀ q, t'.node q = t.node q ∨ (t.node q = none ∧ made q) ∨ (q = dest ∧ t'.node q ≠ some .dir)

section Frame

variable {made : List Name → Prop} {dest : List Name} {t t₁ t₂ : FileSystem}

theorem Frames.refl : Frames made dest t t := fun _ => .inl rfl

theorem Frames.trans (hdest : ¬ made dest) (h₁ : Frames made dest t t₁)
    (h₂ : Frames made dest t₁ t₂) : Frames made dest t t₂ := by
  intro q
  rcases h₂ q with hsame | ⟨hnone, hmade⟩ | hlast
  · rw [hsame]
    exact h₁ q
  · rcases h₁ q with hsame | hnew | ⟨rfl, -⟩
    · exact .inr (.inl ⟨hsame ▸ hnone, hmade⟩)
    · exact .inr (.inl hnew)
    · exact absurd hmade hdest
  · exact .inr (.inr hlast)

theorem removeAt_other (s : Session) {p q : List Name} (hq : q ≠ p) :
    (s.removeAt p).tree.node q = s.tree.node q := by
  unfold Session.removeAt
  split
  · next t ht => rw [Session.advance_tree, Tree.remove_eq_some ht, if_neg hq]
  · rfl

theorem removeAt_frames (s : Session) : Frames made dest s.tree (s.removeAt dest).tree := by
  intro q
  by_cases hq : q = dest
  · subst hq
    unfold Session.removeAt
    split
    · next t ht => exact .inr (.inr ⟨rfl, by simp [Tree.remove_eq_some ht]⟩)
    · exact .inl rfl
  · exact .inl (removeAt_other s hq)

theorem Puts.frames {root : Root} {comps : List Name} {v : Node Name UInt8} {s s' : Session}
    (h : Puts root comps v s s') : Frames made (root.place ++ comps) s.tree s'.tree := by
  intro q
  rw [h.node]
  by_cases hq : q = root.place ++ comps
  · exact .inr (.inr ⟨hq, by simpa [hq] using h.plain⟩)
  · exact .inl (if_neg hq)

theorem PutsOrFails.frames {root : Root} {comps : List Name} {s : Session} {r : Session × Bool}
    (h : PutsOrFails root comps s r) : Frames made (root.place ++ comps) s.tree r.1.tree := by
  rcases h with rfl | ⟨-, v, hput⟩
  · exact .refl
  · exact hput.frames

end Frame

namespace Call

variable {o : Options} {root : Root} {s : Session} {c : Call}

def isDirectory (c : Call) : Bool := c.entry.isDirectory

/-- A directory on the way to the destination; for a directory entry the destination too. -/
def onTheWay (root : Root) (c : Call) (q : List Name) : Prop :=
  ∃ i < if c.isDirectory then c.comps.length else c.comps.length - 1,
    q = root.place ++ c.comps.take (i + 1)

theorem not_onTheWay (h : c.isDirectory = false) : ¬ c.onTheWay root (root.place ++ c.comps) := by
  rintro ⟨i, hi, heq⟩
  have := congrArg List.length heq
  rw [h] at hi
  simp only [Bool.false_eq_true, if_false] at hi
  simp only [length_append, length_take] at this
  omega

theorem resolveDir_frames (root : Root) (s : Session) (h : c.isDirectory = false) :
    Frames (c.onTheWay root) (root.place ++ c.comps) s.tree
      (resolveDir s root.place c.comps.dropLast).1.tree := by
  intro q
  refine (resolveDir_node s root.place c.comps.dropLast q).imp_right fun ⟨hnone, i, hi, hq⟩ => ?_
  rw [length_dropLast] at hi
  rw [dropLast_eq_take, take_take, min_eq_left (by omega)] at hq
  exact .inl ⟨hnone, i, by simpa [h] using hi, hq⟩

theorem clearDestination_frames (h : c.isDirectory = false)
    (hscan : linkedBelow s.tree root.place c.comps = false) :
    Frames (c.onTheWay root) (root.place ++ c.comps) s.tree
      (clearDestination root s c.comps).1.tree := by
  have hdirs := resolveDir_frames root s h
  unfold clearDestination
  rw [createDirectories_eq_resolveDir (linkless_of_scan c.proper hscan)]
  split
  · next s₁ hres =>
    rw [hres] at hdirs
    exact hdirs
  · next s₁ hres =>
    rw [hres] at hdirs
    exact hdirs.trans (not_onTheWay h) (removeAt_frames s₁)

/-- Links that the reader has made are turned into directories only below them. -/
theorem convertSelfLinks_eq (h : ∀ l ∈ s.linksCreated, ¬ l <+: c.comps) :
    convertSelfLinks root s c.comps = s := by
  have hfold : ∀ links : List (List Name), (∀ l ∈ links, ¬ l <+: c.comps) →
      links.foldl (convertSelfLink root c.comps) s = s := by
    intro links hlinks
    induction links with
    | nil => rfl
    | cons l links ih =>
      have hl : l.isPrefixOf c.comps.dropLast = false := by
        rw [Bool.eq_false_iff, ne_eq, isPrefixOf_iff_prefix]
        exact fun hpre => hlinks l mem_cons_self (hpre.trans ( dropLast_prefix _))
      have hsame : convertSelfLink root c.comps s l = s := by
        unfold convertSelfLink
        rw [hl, Bool.false_and, if_neg Bool.false_ne_true]
      rw [foldl_cons, hsame]
      exact ih fun l' hl' => hlinks l' (mem_cons_of_mem _ hl')
  exact hfold _ h

/-- **What a call changes**, when no link of the reader is on its way. -/
theorem run_frames (hlinks : ∀ l ∈ s.linksCreated, ¬ l <+: c.comps) :
    Frames (c.onTheWay root) (c.dest root) s.tree (c.run o root s).1.tree := by
  obtain ⟨htree, -⟩ := extractEntry_tree o root s c.entry c.comps
  unfold run dest
  rw [htree]
  unfold extractEntryImpl
  split
  · next hdir =>
    -- a directory entry
    intro q
    refine (resolveDir_node s root.place c.comps q).imp_right fun ⟨hnone, i, hi, hq⟩ => ?_
    have hdir : c.isDirectory = true := hdir
    exact .inl ⟨hnone, i, by simpa [hdir] using hi, hq⟩
  · next hdir =>
    have hdir : c.isDirectory = false := Bool.eq_false_of_not_eq_true hdir
    split
    · split
      · exact .refl
      · rw [extractRedirection_of_clear]
        split
        · exact .refl
        · next hsafe =>
          rw [Bool.not_eq_true, Bool.or_eq_false_iff] at hsafe
          have hscan := hsafe.2
          have hclear := clearDestination_frames hdir (Bool.or_eq_false_iff.mp hscan).2
          split
          · refine hclear.trans (not_onTheWay hdir) ?_
            cases hlate : skipsLate root (clearDestination root s c.comps).1 c.entry c.comps with
            | true =>
              rw [createRedirection_of_skips hlate]
              exact .refl
            | false => exact (createRedirection_cases c.ne_nil hlate).frames
          · exact hclear
    · unfold extractFile
      rw [convertSelfLinks_eq hlinks]
      dsimp only
      split
      · exact .refl
      · have hdirs := resolveDir_frames root s hdir
        split
        · next s₁ hres =>
          rw [hres] at hdirs
          exact hdirs
        · next s₁ hres =>
          rw [hres] at hdirs
          refine hdirs.trans (not_onTheWay hdir) ?_
          split
          · exact (commitFile_putsOrFails c.ne_nil _).frames
          · exact .refl

theorem run_keeps (hlinks : ∀ l ∈ s.linksCreated, ¬ l <+: c.comps) {q : List Name}
    {v : Node Name UInt8} (hq : q ≠ c.dest root) (h : s.tree.node q = some v) :
    (c.run o root s).1.tree.node q = some v := by
  rcases run_frames hlinks q with hsame | ⟨hnone, -⟩ | ⟨hdest, -⟩
  · exact hsame.trans h
  · exact absurd (h.symm.trans hnone) (by simp)
  · exact absurd hdest hq

theorem isDirectory_of_makes (h : c.makes o root s = true) : c.isDirectory = false := by
  unfold makes quiet at h
  rw [Bool.and_eq_true, Bool.not_eq_true', Bool.or_eq_false_iff] at h
  exact h.2.1

theorem run_links : ∀ l ∈ (c.run o root s).1.linksCreated,
    l ∈ s.linksCreated ∨ l = c.comps ∧ c.makes o root s = true := by
  have himpl : (c.run o root s).1.linksCreated =
      (extractEntryImpl o root s c.entry c.comps).1.linksCreated := by
    unfold run extractEntry
    split
    · next h => rw [h]
    · next h => rw [h]
  intro l hl
  rw [himpl] at hl
  unfold makes run
  rw [(extractEntry_tree o root s c.entry c.comps).2]
  rcases extractEntryImpl_outcome o c.ne_nil with ⟨hsettles, -⟩ |
    ⟨hquiet, hok, s₁, w, hsettles, hput⟩
  · exact .inl (hsettles.links ▸ hl)
  · refine (hput.links l hl).imp (fun hold => hsettles.links ▸ hold) fun hnew => ⟨hnew, ?_⟩
    rw [hok, hquiet]
    rfl

end Call

/-! ## Calls that keep apart -/

/-- Destinations that do not collide: they differ, and what is no directory is not on the
way to the other. -/
def Call.Apart (c d : Call) : Prop :=
  c.comps ≠ d.comps ∧ (c.isDirectory = false → ¬ c.comps <+: d.comps) ∧
    (d.isDirectory = false → ¬ d.comps <+: c.comps)

/-- Below the root is what the calls have made. -/
structure Grown (root : Root) (done : List Call) (s : Session) : Prop where
  root_dir : s.tree.node root.place = some .dir
  file : ∀ below v, v ≠ .dir → s.tree.node (root.place ++ below) = some v →
    ∃ c ∈ done, c.isDirectory = false ∧ c.comps = below
  dir : ∀ below, below ≠ [] → s.tree.node (root.place ++ below) = some .dir →
    ∃ c ∈ done, below <+: c.comps ∧ (c.isDirectory = false → below ≠ c.comps)
  links : ∀ l ∈ s.linksCreated, ∃ c ∈ done, c.isDirectory = false ∧ c.comps = l

namespace Grown

variable {o : Options} {root : Root} {s : Session} {done : List Call} {c : Call}

theorem start {t : FileSystem} (hroot : t.node root.place = some .dir)
    (hempty : ∀ below, below ≠ [] → t.node (root.place ++ below) = none) :
    Grown root [] (.start t) where
  root_dir := hroot
  file := by
    intro below v hv hnode
    by_cases hbelow : below = []
    · subst hbelow
      rw [append_nil] at hnode
      exact absurd (Option.some.inj (hnode.symm.trans hroot)) hv
    · exact absurd (hnode.symm.trans (hempty below hbelow)) (by simp)
  dir := by
    intro below hbelow hnode
    exact absurd (hnode.symm.trans (hempty below hbelow)) (by simp)
  links := fun l hl => absurd hl not_mem_nil

theorem no_link (h : Grown root done s) (hapart : ∀ d ∈ done, d.Apart c) :
    ∀ l ∈ s.linksCreated, ¬ l <+: c.comps := by
  intro l hl
  obtain ⟨d, hd, hdir, rfl⟩ := h.links l hl
  exact (hapart d hd).2.1 hdir

theorem call (h : Grown root done s) (hapart : ∀ d ∈ done, d.Apart c) :
    Grown root (done ++ [c]) (c.run o root s).1 := by
  have hlinks := h.no_link hapart
  have hframes : Frames (c.onTheWay root) (c.dest root) s.tree (c.run o root s).1.tree :=
    Call.run_frames hlinks
  have hold : ∀ {P : Call → Prop}, (∃ d ∈ done, P d) → ∃ d ∈ done ++ [c], P d :=
    fun ⟨d, hd, hP⟩ => ⟨d, mem_append_left _ hd, hP⟩
  have hnew : c ∈ done ++ [c] := mem_append_right _ (mem_singleton_self c)
  refine ⟨?_, ?_, ?_, ?_⟩
  · refine Call.run_keeps hlinks (fun heq => c.ne_nil ?_) h.root_dir
    simpa [Call.dest] using heq
  · intro below v hv hnode
    rcases Call.run_node hv hnode with hnode | ⟨hdest, hmakes⟩
    · exact hold (h.file below v hv hnode)
    · exact ⟨c, hnew, Call.isDirectory_of_makes hmakes, (append_cancel_left hdest).symm⟩
  · intro below hbelow hnode
    rcases hframes (root.place ++ below) with hsame | ⟨-, i, hi, heq⟩ | ⟨-, hno⟩
    · exact hold (h.dir below hbelow (hsame ▸ hnode))
    · -- a directory on the way of this call
      obtain rfl := append_cancel_left heq
      refine ⟨c, hnew, take_prefix _ _, fun hdir heq => ?_⟩
      have := congrArg List.length heq
      rw [length_take] at this
      simp only [hdir, Bool.false_eq_true, if_false] at hi
      omega
    · exact absurd hnode hno
  · intro l hl
    rcases Call.run_links l hl with hl | ⟨rfl, hmakes⟩
    · exact hold (h.links l hl)
    · exact ⟨c, hnew, Call.isDirectory_of_makes hmakes, rfl⟩

/-- A run of calls that keep apart leaves alone what stands at no destination of theirs. -/
theorem calls (calls : List Call) (h : Grown root done s)
    (hpair : (done ++ calls).Pairwise Call.Apart) :
    Grown root (done ++ calls) (runCalls o root s calls) ∧
      ∀ q v, (∀ c ∈ calls, q ≠ c.dest root) → s.tree.node q = some v →
        (runCalls o root s calls).tree.node q = some v := by
  induction calls generalizing s done with
  | nil => exact ⟨by simpa [runCalls] using h, fun q v _ hq => hq⟩
  | cons c rest ih =>
    have hapart : ∀ d ∈ done, d.Apart c := fun d hd =>
      (pairwise_append.mp hpair).2.2 d hd c mem_cons_self
    rw [append_cons] at hpair ⊢
    obtain ⟨hgrown, hkeeps⟩ := ih (h.call (o := o) hapart) hpair
    refine ⟨hgrown, fun q v hq hnode => ?_⟩
    exact hkeeps q v (fun d hd => hq d (mem_cons_of_mem _ hd))
      (Call.run_keeps (h.no_link hapart) (hq c mem_cons_self) hnode)

end Grown

/-! ## The copy -/

section Copy

variable {o : Options} {root : Root} {s : Session} {done : List Call} {c : Call}

variable {names : List Name} {bytes : List UInt8}

end Copy

/-! ## A name that the sanitiser changes -/

end OpenRar.Archive
