import OpenRar.Archive.VolumeNaming
import OpenRar.Recovery.RevVolumes

/-!
# A volume set after a failed addition

`add_file_to_archive_vol` on an existing archive: the old volumes are moved to their
`.mv_bak` names along a walk that ends at the first name without a file, the new ones are
started along a walk that does not, and when the call fails two guards remove the new
volumes and rename the old ones back.  A volume behind a gap is therefore emptied by the
second walk without having been saved by the first.

What each walk reaches is settled by the directory before the call: the first one by the
names that are there without a gap from the first volume on (`MovedAside`), the second by the
number of volumes that are started (`Reached`).  The volume set survives exactly if every
file that the second walk reaches is one that the first has saved (`restoresChain_iff`).

Everything before the first renaming only reads.
-/

namespace OpenRar.Archive

open OpenRar.Recovery List
open OpenRar.DirectoryStore
open OpenRar.DirectoryStore.Store

/-! ## The call -/

def sidecarExtension : FileName := ['.', 'm', 'v', '_', 'b', 'a', 'k']

def sidecarName (name : FileName) : FileName := name ++ sidecarExtension

/-- A directory with the names that have been moved aside, or that have been created. -/
abbrev NamedDirectory := Directory × List FileName

/-- `do_rename`; `canMove` says which renamings the system lets through. -/
def doRename (canMove : FileName → Bool) (s : NamedDirectory) (orig : FileName) :
    NamedDirectory × Bool :=
  let dir := s.1.remove (sidecarName orig)
  if canMove orig then ((dir.rename orig (sidecarName orig), s.2 ++ [orig]), true)
  else ((dir, s.2), false)

theorem doRename_eq (canMove : FileName → Bool) (s : NamedDirectory) (orig : FileName) :
    doRename canMove s orig = if canMove orig
      then (((s.1.remove (sidecarName orig)).rename orig (sidecarName orig), s.2 ++ [orig]), true)
      else ((s.1.remove (sidecarName orig), s.2), false) := rfl

/-- The walk along the chain until a name is missing. -/
def renameChain (canMove : FileName → Bool) :
    Nat → FileName → NamedDirectory → NamedDirectory × Bool
  | 0, _, s => (s, true)
  | fuel + 1, p, s =>
    if s.1.entry p = none then (s, true)
    else
      let moved := doRename canMove s p
      if moved.2 = false ∨ nextVolumeName false p = p then moved
      else renameChain canMove fuel (nextVolumeName false p) moved.1

/-- The old volumes, and the archive itself where it is outside the chain. -/
def renameExisting (canMove : FileName → Bool) (first existing : FileName) (dir : Directory) :
    NamedDirectory × Bool :=
  let chain := renameChain canMove 65535 first (dir, [])
  if chain.2 = true ∧ existing ≠ first ∧ chain.1.1.entry existing ≠ none then
    doRename canMove chain.1 existing
  else chain

/-- The volumes that are started, with what is written to each; what is no file cannot be
opened, and then the call fails. -/
def startVolumes : List (List UInt8) → FileName → NamedDirectory → NamedDirectory
  | [], _, s => s
  | bytes :: more, path, s =>
    if s.1.entry path = some .other then s
    else
      let opened := s.1.create path
      startVolumes more (nextVolumeName false path)
        (opened.1.write opened.2 0 bytes, s.2 ++ [path])

/-- `VolumeCleanupGuard` and then `SidecarGuard`. -/
def runGuards (sidecars created : List FileName) (dir : Directory) : Directory :=
  sidecars.foldl (fun dir orig => (dir.remove orig).rename (sidecarName orig) orig)
    ((created.filter (· ∉ sidecars)).foldl remove dir)

/-- How a call fails: the renamings that are let through, and the volumes that are started
before it gives up. -/
structure FailingCall where
  canMove : FileName → Bool
  started : List (List UInt8)

def firstVolume (arcName : FileName) (dir : Directory) : FileName :=
  volNameToFirstName (fun name => (dir.entry name).isSome) false arcName

/-- `existing_path` -/
def existingPath (arcName : FileName) (dir : Directory) : FileName :=
  if dir.entry (firstVolume arcName dir) ≠ none then firstVolume arcName dir else arcName

/-- What the walks have done when the guards run. -/
structure Interrupted where
  dir : Directory
  sidecars : List FileName
  created : List FileName

def FailingCall.interrupted (call : FailingCall) (arcName : FileName) (dir : Directory) :
    Interrupted :=
  let first := firstVolume arcName dir
  let moved := renameExisting call.canMove first (existingPath arcName dir) dir
  let written := if moved.2 then startVolumes call.started first (moved.1.1, [])
    else (moved.1.1, [])
  ⟨written.1, moved.1.2, written.2⟩

def FailingCall.after (call : FailingCall) (arcName : FileName) (dir : Directory) : Directory :=
  let run := call.interrupted arcName dir
  runGuards run.sidecars run.created run.dir

/-! ## Names that are not sidecars -/

def Plain (name : FileName) : Prop := ¬ sidecarExtension <:+ name

theorem sidecarName_injective : Function.Injective sidecarName := append_left_injective _

variable {name digits : FileName}

theorem Plain.ne (h : Plain name) (m : FileName) : name ≠ sidecarName m :=
  fun heq => h (heq ▸ suffix_append m sidecarExtension)

theorem Plain.of_suffix {rest : FileName} (h : Plain name) (hrest : rest <:+ name) :
    Plain rest := fun hside => h (hside.trans hrest)

/-- The extension of a sidecar has no digit in it. -/
theorem Plain.number {post : FileName} (h : Plain post) (pre : FileName)
    (hdigits : ∀ c ∈ digits, c.isDigit) (hne : digits ≠ []) : Plain (pre ++ digits ++ post) := by
  obtain ⟨front, d, rfl⟩ := (eq_nil_or_concat' digits).resolve_left hne
  have hd : d.isDigit := hdigits d (by simp)
  have hpost : post <:+ pre ++ (front ++ [d]) ++ post := suffix_append _ _
  have hdpost : d :: post <:+ pre ++ (front ++ [d]) ++ post := ⟨pre ++ front, by simp⟩
  intro hside
  rcases Nat.lt_or_ge post.length sidecarExtension.length with hlt | hge
  · have hmem : d ∈ sidecarExtension :=
      (suffix_of_suffix_length_le hdpost hside hlt).subset mem_cons_self
    have hnone : ∀ c ∈ sidecarExtension, c.isDigit = false := by simp [sidecarExtension]
    rw [hnone d hmem] at hd
    cases hd
  · exact h (suffix_of_suffix_length_le hside hpost hge)

theorem plain_rarExtension (name : FileName) : Plain (name ++ rarExtension) := by
  rintro ⟨pre, heq⟩
  have hlast := congrArg List.getLast? heq
  simp [sidecarExtension, rarExtension] at hlast

theorem Plain.withVolumeExtension (h : Plain name) : Plain (withVolumeExtension name) := by
  unfold Archive.withVolumeExtension
  dsimp only
  split
  · exact plain_rarExtension name
  · split
    · rintro ⟨pre, heq⟩
      have hlast := congrArg List.getLast? heq
      simp [sidecarExtension] at hlast
    · split
      · exact plain_rarExtension _
      · exact h

theorem splitDot_suffix (name : FileName) : (splitDot name).2 <:+ name := by
  unfold splitDot
  split
  · exact drop_suffix _ _
  · exact nil_suffix

theorem lastRun_suffix (name : FileName) : (lastRun name).2.2 <:+ name := by
  have h := takeWhile_prefix (l := name.reverse) (! ·.isDigit)
  simpa [lastRun] using reverse_suffix.mpr h

/-- A part number in front of the extension. -/
theorem Plain.addPart (h : Plain name) (hdigits : ∀ c ∈ digits, c.isDigit) (hne : digits ≠ []) :
    Plain ((splitDot name).1 ++ (partMark ++ digits) ++ (splitDot name).2) := by
  have h' := (h.of_suffix (splitDot_suffix name)).number ((splitDot name).1 ++ partMark) hdigits hne
  simpa only [append_assoc] using h'

theorem nextDigits_spec (hne : digits ≠ []) :
    (∀ c ∈ nextDigits digits, c.isDigit) ∧ nextDigits digits ≠ [] := by
  obtain ⟨hlength, hdigit, -⟩ := addCarry_spec digits.reverse 1
  have hsum : (addCarry digits.reverse 1).1 ≠ [] := by
    rw [← length_pos_iff, hlength, length_reverse]
    exact length_pos_iff.mpr hne
  have hone : ('1' : Char).isDigit = true := by decide
  unfold nextDigits
  dsimp only
  split
  · simpa using hdigit
  · simpa [hsum] using hdigit

theorem firstDigits_spec (width : Nat) :
    (∀ c ∈ firstDigits width, c.isDigit) ∧ firstDigits width ≠ [] := by
  refine ⟨fun c hc => ?_, by simp [firstDigits]⟩
  rcases mem_append.mp hc with hc | hc
  · rw [(mem_replicate.mp hc).2]
    decide
  · rw [mem_singleton.mp hc]
    decide

theorem Plain.next (h : Plain name) : Plain (nextVolumeName false name) := by
  have hname := h.withVolumeExtension
  unfold nextVolumeName
  rw [if_neg (by simp)]
  dsimp only
  split
  · exact hname.addPart (firstDigits_spec 2).1 (firstDigits_spec 2).2
  · next hrun =>
    obtain ⟨hdigits, hne⟩ := nextDigits_spec hrun
    exact (hname.of_suffix (lastRun_suffix _)).number _ hdigits hne

theorem Plain.iterate (h : Plain name) (i : Nat) : Plain ((nextVolumeName false)^[i] name) := by
  induction i with
  | zero => exact h
  | succ i ih =>
    rw [Function.iterate_succ_apply']
    exact ih.next

theorem Plain.firstVolume {arcName : FileName} (h : Plain arcName) (dir : Directory) :
    Plain (firstVolume arcName dir) := by
  have hpart : ∀ width, Plain ((splitDot (Archive.withVolumeExtension arcName)).1 ++
      (partMark ++ firstDigits width) ++ (splitDot (Archive.withVolumeExtension arcName)).2) :=
    fun width => h.withVolumeExtension.addPart (firstDigits_spec width).1 (firstDigits_spec width).2
  unfold Archive.firstVolume volNameToFirstName
  rw [if_neg (by simp)]
  dsimp only
  split
  · cases hfound : List.find? _ _ with
    | none => exact hpart 2
    | some name =>
      obtain ⟨width, -, rfl⟩ := mem_map.mp (mem_of_find?_eq_some hfound)
      exact hpart width
  · exact (h.of_suffix (lastRun_suffix _)).number _ (firstDigits_spec _).1 (firstDigits_spec _).2

theorem Plain.existingPath {arcName : FileName} (h : Plain arcName) (dir : Directory) :
    Plain (existingPath arcName dir) := by
  unfold Archive.existingPath
  split
  · exact h.firstVolume dir
  · exact h

/-! ## The first walk -/

section Walks

variable {before : Directory} {moved : List FileName}

/-- What holds while old volumes are moved aside. -/
structure Moving (before : Directory) (s : NamedDirectory) : Prop where
  midway : Midway sidecarName Plain before s.1 s.2 []
  plain : ∀ m ∈ s.2, Plain m
  nodup : s.2.Nodup
  existed : ∀ m ∈ s.2, before.entry m ≠ none
  gone : ∀ m ∈ s.2, s.1.entry m = none

variable {s : NamedDirectory}

theorem Moving.doRename (h : Moving before s) (canMove : FileName → Bool)
    {orig : FileName} (horig : Plain orig) (hentry : s.1.entry orig ≠ none) :
    Moving before (doRename canMove s orig).1 := by
  have hnew : orig ∉ s.2 := fun hmem => hentry (h.gone orig hmem)
  have hclear := h.midway.clear sidecarName_injective (fun n hn => hn.ne) h.plain hnew
  have hkeep : ∀ n, Plain n → (s.1.remove (sidecarName orig)).entry n = s.1.entry n := by
    intro n hn
    rw [entry_remove, if_neg (hn.ne orig)]
  unfold Archive.doRename
  split
  · obtain ⟨node, hnode⟩ := Option.ne_none_iff_exists'.mp (hkeep orig horig ▸ hentry)
    have hbefore : before.entry orig ≠ none := by
      rwa [← h.midway.kept orig horig hnew (by simp)]
    refine ⟨hclear.move sidecarName_injective (fun n hn => hn.ne) h.plain hnew horig hnode,
      ?_, ?_, ?_, ?_⟩
    · simpa [or_imp, forall_and, horig] using h.plain
    · exact List.Nodup.append h.nodup (nodup_singleton orig) (by simpa using hnew)
    · simpa [or_imp, forall_and, hbefore] using h.existed
    · intro m hm
      rcases mem_append.mp hm with hm | hm
      · rw [entry_rename_of_ne _ _ _ (ne_of_mem_of_not_mem hm hnew) ((h.plain m hm).ne orig),
          hkeep m (h.plain m hm), h.gone m hm]
      · rw [mem_singleton.mp hm]
        exact entry_rename_old _ _ _ hnode (horig.ne orig)
  · exact ⟨hclear, h.plain, h.nodup, h.existed, fun m hm => by
      rw [hkeep m (h.plain m hm), h.gone m hm]⟩

theorem Moving.renameChain (canMove : FileName → Bool) (fuel : Nat) {p : FileName}
    (h : Moving before s) (hp : Plain p) : Moving before (renameChain canMove fuel p s).1 := by
  induction fuel generalizing p s with
  | zero => exact h
  | succ fuel ih =>
    unfold Archive.renameChain
    dsimp only
    split
    · exact h
    · next hentry =>
      split
      · exact h.doRename canMove hp hentry
      · exact ih (h.doRename canMove hp hentry) hp.next

theorem Moving.entry (h : Moving before s) {n : FileName} (hn : Plain n) :
    s.1.entry n = if n ∈ s.2 then none else before.entry n := by
  split
  · next hmem => exact h.gone n hmem
  · next hmem => exact h.midway.kept n hn hmem not_mem_nil

/-- A walk that comes to a name for the second time has seen every name of the chain. -/
theorem iterate_of_repeat {α : Type} {f : α → α} {x : α} {i j : Nat} (hji : j < i)
    (h : f^[i] x = f^[j] x) (k : Nat) : ∃ l < i, f^[k] x = f^[l] x := by
  induction k using Nat.strong_induction_on with
  | _ k ih =>
    rcases Nat.lt_or_ge k i with hlt | hge
    · exact ⟨k, hlt, rfl⟩
    · obtain ⟨l, hl, heq⟩ := ih (k - i + j) (by omega)
      refine ⟨l, hl, ?_⟩
      rw [← heq, Function.iterate_add_apply, ← h, ← Function.iterate_add_apply,
        Nat.sub_add_cancel hge]

/-- A walk moves aside the names that it should, or fails at one of them. -/
structure Walked (canMove : FileName → Bool) (Names : FileName → Prop)
    (walk : NamedDirectory × Bool) : Prop where
  ok : walk.2 = true ↔ ∀ n, Names n → canMove n = true
  names : walk.2 = true → ∀ n, n ∈ walk.1.2 ↔ Names n

variable {canMove : FileName → Bool} {Names : FileName → Prop}

theorem Walked.done (hcan : ∀ m ∈ s.2, canMove m = true) (hnames : ∀ n, n ∈ s.2 ↔ Names n) :
    Walked canMove Names (s, true) :=
  ⟨iff_of_true rfl fun n hn => hcan n ((hnames n).mpr hn), fun _ => hnames⟩

theorem Walked.failed {n : FileName} (hn : Names n) (hcan : canMove n = false) :
    Walked canMove Names (s, false) :=
  ⟨iff_of_false (by simp) fun h => by simp [h n hn] at hcan, fun h => by cases h⟩

/-- The names of a chain that are there without a gap, as far as the walk goes. -/
def Unbroken (dir : Directory) (first name : FileName) : Prop :=
  ∃ k < 65535, (∀ j ≤ k, dir.entry ((nextVolumeName false)^[j] first) ≠ none) ∧
    name = (nextVolumeName false)^[k] first

theorem renameChain_walked {first : FileName} (hfirst : Plain first) (fuel i : Nat)
    (hfuel : i + fuel = 65535) (h : Moving before s)
    (hmoved : s.2 = (range i).map fun j => (nextVolumeName false)^[j] first)
    (hcan : ∀ m ∈ s.2, canMove m = true) :
    Walked canMove (Unbroken before first)
      (renameChain canMove fuel ((nextVolumeName false)^[i] first) s) := by
  -- the walk ends when every unbroken name is on its list
  have hdone : ∀ {s : NamedDirectory} {i : Nat}, Moving before s → i ≤ 65535 →
      s.2 = (range i).map (fun j => (nextVolumeName false)^[j] first) →
      (∀ m ∈ s.2, canMove m = true) →
      (∀ k < 65535, (∀ j ≤ k, before.entry ((nextVolumeName false)^[j] first) ≠ none) →
        ∃ l < i, (nextVolumeName false)^[k] first = (nextVolumeName false)^[l] first) →
      Walked canMove (Unbroken before first) (s, true) := by
    intro s i h hi hmoved hcan hall
    have hmem : ∀ n, n ∈ s.2 ↔ ∃ l < i, n = (nextVolumeName false)^[l] first := by
      simp [hmoved]
    refine .done hcan fun n => ⟨fun hn => ?_, ?_⟩
    · obtain ⟨k, hk, rfl⟩ := (hmem n).mp hn
      exact ⟨k, hk.trans_le hi,
        fun j hj => h.existed _ ((hmem _).mpr ⟨j, hj.trans_lt hk, rfl⟩), rfl⟩
    · rintro ⟨k, hk, hthere, rfl⟩
      exact (hmem _).mpr (hall k hk hthere)
  induction fuel generalizing i s with
  | zero => exact hdone h (by omega) hmoved hcan fun k hk _ => ⟨k, by omega, rfl⟩
  | succ fuel ih =>
    have hentry := h.entry (hfirst.iterate i)
    unfold Archive.renameChain
    dsimp only
    split
    · next hnone =>
      refine hdone h (by omega) hmoved hcan fun k _ hthere => ?_
      split at hentry
      · next hmem =>
        rw [hmoved] at hmem
        obtain ⟨j, hj, heq⟩ := mem_map.mp hmem
        exact iterate_of_repeat (mem_range.mp hj) heq.symm k
      · exact ⟨k, Nat.lt_of_not_le fun hle => hthere i hle (hentry.symm.trans hnone), rfl⟩
    · next hsome =>
      have hnew : (nextVolumeName false)^[i] first ∉ s.2 := fun hmem => hsome (h.gone _ hmem)
      have hmove := h.doRename canMove (hfirst.iterate i) hsome
      rw [doRename_eq] at hmove ⊢
      cases hok : canMove ((nextVolumeName false)^[i] first) with
      | false =>
        simp only [Bool.false_eq_true, if_false, true_or, if_true]
        refine .failed ⟨i, by omega, fun j hj => ?_, rfl⟩ hok
        rcases Nat.eq_or_lt_of_le hj with rfl | hlt
        · rwa [hentry, if_neg hnew] at hsome
        · refine h.existed _ ?_
          rw [hmoved]
          exact mem_map.mpr ⟨j, mem_range.mpr hlt, rfl⟩
      | true =>
        simp only [hok, if_true] at hmove
        simp only [if_true]
        have hnext : s.2 ++ [(nextVolumeName false)^[i] first] =
            (range (i + 1)).map fun j => (nextVolumeName false)^[j] first := by
          simp [hmoved, range_succ]
        have hcan' : ∀ m ∈ s.2 ++ [(nextVolumeName false)^[i] first], canMove m = true := by
          simpa [or_imp, forall_and, hok] using hcan
        have hsucc := Function.iterate_succ_apply' (nextVolumeName false) i first
        split
        · next hend =>
          refine hdone hmove (by omega) hnext hcan' fun k _ _ => ?_
          exact iterate_of_repeat (Nat.lt_succ_self i) (hsucc.trans (hend.resolve_left (by simp))) k
        · rw [← hsucc]
          exact ih (i + 1) (by omega) hmove hnext hcan'

/-- The names that are moved aside: those that are there without a gap, and the archive. -/
def MovedAside (dir : Directory) (first existing name : FileName) : Prop :=
  Unbroken dir first name ∨ name = existing ∧ dir.entry existing ≠ none

theorem moving_renameExisting (canMove : FileName → Bool) {first existing : FileName}
    (hfirst : Plain first) (hexisting : Plain existing) :
    Moving before (renameExisting canMove first existing before).1 := by
  have hstart : Moving before (before, []) := ⟨.refl before, by simp, by simp, by simp, by simp⟩
  have hchain := hstart.renameChain canMove 65535 hfirst
  unfold renameExisting
  dsimp only
  split
  · next hmore => exact hchain.doRename canMove hexisting hmore.2.2
  · exact hchain

theorem renameExisting_walked {first existing : FileName} (hfirst : Plain first)
    (hexisting : Plain existing) :
    Walked canMove (MovedAside before first existing)
      (renameExisting canMove first existing before) := by
  have hstart : Moving before (before, []) := ⟨.refl before, by simp, by simp, by simp, by simp⟩
  have hchain := hstart.renameChain canMove 65535 hfirst
  have hwalk : Walked canMove (Unbroken before first)
      (renameChain canMove 65535 first (before, [])) :=
    renameChain_walked hfirst 65535 0 rfl hstart rfl (by simp)
  have hentry := hchain.entry hexisting
  unfold renameExisting
  generalize renameChain canMove 65535 first (before, []) = chain at *
  obtain ⟨s, ok⟩ := chain
  dsimp only at *
  cases ok with
  | false =>
    rw [if_neg (by simp)]
    obtain ⟨n, hn, hcan⟩ : ∃ n, Unbroken before first n ∧ canMove n = false := by
      simpa using hwalk.ok
    exact .failed (.inl hn) hcan
  | true =>
    have hcan := fun n hn => hwalk.ok.mp rfl n ((hwalk.names rfl n).mp hn)
    by_cases hmore : existing ≠ first ∧ s.1.entry existing ≠ none
    · rw [if_pos ⟨rfl, hmore⟩]
      have hnew : existing ∉ s.2 := fun h => hmore.2 (hchain.gone _ h)
      have hthere : before.entry existing ≠ none := by
        rw [if_neg hnew] at hentry
        exact hentry ▸ hmore.2
      unfold Archive.doRename
      cases hok : canMove existing with
      | false => exact .failed (.inr ⟨rfl, hthere⟩) hok
      | true =>
        refine .done (by simpa [or_imp, forall_and, hok] using hcan) fun n => ?_
        rw [mem_append, mem_singleton, hwalk.names rfl, MovedAside, and_iff_left hthere]
    · rw [if_neg fun h => hmore h.2]
      refine .done hcan fun n => (hwalk.names rfl n).trans ⟨.inl, ?_⟩
      -- the archive is in the chain, or it is not there
      rintro (hn | ⟨rfl, hthere⟩)
      · exact hn
      · by_contra hnew
        rw [if_neg (mt (hwalk.names rfl n).mp hnew)] at hentry
        refine hmore ⟨fun heq => hnew ⟨0, by omega, fun j hj => ?_, heq⟩, by rwa [hentry]⟩
        rwa [Nat.le_zero.mp hj, Function.iterate_zero_apply, ← heq]

/-! ## The second walk -/

/-- Every file at the name of a new volume has been moved aside. -/
def NothingInTheWay (before : Directory) (sidecars created : List FileName) : Prop :=
  ∀ name ∈ created, before.bytesAt name ≠ none → name ∈ sidecars

/-- The second walk starts a volume at every name up to the first that is not a file. -/
theorem mem_startVolumes (started : List (List UInt8)) (path : FileName) (s : NamedDirectory)
    (n : FileName) : n ∈ (startVolumes started path s).2 ↔ n ∈ s.2 ∨ ∃ i < started.length,
      (∀ j ≤ i, s.1.entry ((nextVolumeName false)^[j] path) ≠ some .other) ∧
        n = (nextVolumeName false)^[i] path := by
  induction started generalizing path s with
  | nil => simp [startVolumes]
  | cons bytes more ih =>
    unfold startVolumes
    split
    · next hother =>
      refine ⟨.inl, fun h => h.resolve_right ?_⟩
      rintro ⟨i, -, hfiles, -⟩
      exact hfiles 0 (Nat.zero_le _) hother
    · next hfile =>
      have hopens : ∀ m, (s.1.create path).1.entry m = some .other ↔ s.1.entry m = some .other := by
        intro m
        by_cases hm : m = path
        · subst hm
          simp [entry_create_self, hfile]
        · rw [entry_create_of_ne _ _ hm]
      rw [ih, mem_append, mem_singleton, or_assoc]
      refine or_congr_right ⟨?_, ?_⟩
      · rintro (rfl | ⟨i, hi, hfiles, rfl⟩)
        · refine ⟨0, Nat.succ_pos _, fun j hj => ?_, rfl⟩
          rwa [Nat.le_zero.mp hj]
        · refine ⟨i + 1, Nat.succ_lt_succ hi, fun j hj => ?_, rfl⟩
          cases j with
          | zero => exact hfile
          | succ j => exact fun h => hfiles j (by omega) ((hopens _).mpr h)
      · rintro ⟨_ | i, hi, hfiles, rfl⟩
        · exact .inl rfl
        · exact .inr ⟨i, Nat.lt_of_succ_lt_succ hi,
            fun j hj h => hfiles (j + 1) (by omega) ((hopens _).mp h), rfl⟩

theorem midway_startVolumes (started : List (List UInt8)) {path : FileName}
    (h : Midway sidecarName Plain before s.1 moved s.2) (hpath : Plain path)
    (hway : NothingInTheWay before moved (startVolumes started path s).2) :
    Midway sidecarName Plain before (startVolumes started path s).1 moved
      (startVolumes started path s).2 := by
  induction started generalizing path s with
  | nil => exact h
  | cons bytes more ih =>
    unfold startVolumes at hway ⊢
    by_cases hother : s.1.entry path = some .other
    · rw [if_pos hother]
      exact h
    · rw [if_neg hother] at hway ⊢
      have hcreated : path ∈ (startVolumes more (nextVolumeName false path)
          ((s.1.create path).1.write (s.1.create path).2 0 bytes, s.2 ++ [path])).2 := by
        rw [mem_startVolumes]
        simp
      have hvacant : Plain path → path ∉ moved → before.entry path = none :=
        fun _ => h.entry_of_opened hpath hother (hway path hcreated)
      exact ih ((h.create hpath.ne hvacant).write (h.create_unprotected hpath.ne hvacant) 0 bytes)
        hpath.next hway

end Walks

/-! ## The guards -/

section Guards

variable (call : FailingCall) {arcName : FileName} (dir : Directory)

/-- The names of the volume set that an archive is in. -/
def chainName (arcName : FileName) (dir : Directory) (i : Nat) : FileName :=
  (nextVolumeName false)^[i] (firstVolume arcName dir)

/-- Every volume is what it was, and there is none that was not there. -/
def RestoresChain (arcName : FileName) : Prop :=
  ∀ i, (call.after arcName dir).bytesAt (chainName arcName dir i)
    = dir.bytesAt (chainName arcName dir i)

theorem moving_interrupted (h : Plain arcName) :
    ∃ moved : Directory, Moving dir (moved, (call.interrupted arcName dir).sidecars) ∧
      (NothingInTheWay dir (call.interrupted arcName dir).sidecars
          (call.interrupted arcName dir).created →
        Midway sidecarName Plain dir (call.interrupted arcName dir).dir
          (call.interrupted arcName dir).sidecars (call.interrupted arcName dir).created) := by
  have hfirst := h.firstVolume dir
  have hexisting := h.existingPath dir
  have hmoving : Moving dir (renameExisting call.canMove _ _ dir).1 :=
    moving_renameExisting call.canMove hfirst hexisting
  unfold FailingCall.interrupted
  dsimp only
  refine ⟨_, hmoving, fun hway => ?_⟩
  split at hway
  · next hmoved =>
    rw [if_pos hmoved]
    exact midway_startVolumes call.started hmoving.midway hfirst hway
  · next hmoved =>
    rw [if_neg hmoved]
    exact hmoving.midway

theorem created_chainName :
    ∀ c ∈ (call.interrupted arcName dir).created, ∃ i, c = chainName arcName dir i := by
  unfold FailingCall.interrupted
  dsimp only
  split
  · intro c hc
    rw [mem_startVolumes] at hc
    obtain ⟨i, -, -, rfl⟩ := hc.resolve_left not_mem_nil
    exact ⟨i, rfl⟩
  · simp

theorem bytesAt_after (h : Plain arcName)
    (hway : NothingInTheWay dir (call.interrupted arcName dir).sidecars
      (call.interrupted arcName dir).created) {n : FileName} (hn : Plain n) :
    (call.after arcName dir).bytesAt n = dir.bytesAt n := by
  obtain ⟨_, hmoving, hmidway⟩ := moving_interrupted call dir h
  have hplain : ∀ c ∈ (call.interrupted arcName dir).created, ∀ m, c ≠ sidecarName m := by
    intro c hc
    obtain ⟨i, rfl⟩ := created_chainName call dir c hc
    exact ((h.firstVolume dir).iterate i).ne
  unfold FailingCall.after runGuards
  generalize call.interrupted arcName dir = run at *
  have hsub : ∀ c ∈ run.created.filter (· ∉ run.sidecars), c ∈ run.created := fun c hc =>
    (mem_filter.mp hc).1
  have hrun := (hmidway hway).forget hsub fun c hc hout =>
    mem_filter.mpr ⟨hc, by simpa using hout⟩
  exact hrun.bytesAt_restored restoring_remove_rename sidecarName_injective (fun n hn => hn.ne)
    hmoving.plain hmoving.nodup hmoving.existed (fun c hc => hplain c (hsub c hc)) hn

theorem restoresChain_iff_way (h : Plain arcName) :
    RestoresChain call dir arcName ↔
      NothingInTheWay dir (call.interrupted arcName dir).sidecars
        (call.interrupted arcName dir).created := by
  constructor
  · intro hrestores name hcreated hbytes
    by_contra hmoved
    obtain ⟨i, rfl⟩ := created_chainName call dir name hcreated
    have hremoved : chainName arcName dir i ∈ (call.interrupted arcName dir).created.filter
        (· ∉ (call.interrupted arcName dir).sidecars) :=
      mem_filter.mpr ⟨hcreated, by simpa using hmoved⟩
    have hplain : Plain (chainName arcName dir i) := (h.firstVolume dir).iterate i
    exact hbytes ((hrestores i).symm.trans
      (restoring_remove_rename.bytesAt_created _ hplain.ne hmoved hremoved))
  · intro hway i
    exact bytesAt_after call dir h hway ((h.firstVolume dir).iterate i)

/-- A name of the chain is moved aside, going by the directory before the call. -/
def Saved (arcName : FileName) (dir : Directory) (name : FileName) : Prop :=
  MovedAside dir (firstVolume arcName dir) (existingPath arcName dir) name

/-- A volume is started at the `i`th name: there are as many, and nothing that is no file stands
at a name up to there. -/
def Reached (arcName : FileName) (i : Nat) : Prop :=
  i < call.started.length ∧ ∀ j ≤ i, dir.entry (chainName arcName dir j) = some .other →
    Saved arcName dir (chainName arcName dir j)

/-- **A failed addition restores the volume set** exactly if a renaming fails, or if every file
at a name where a volume is started is moved aside before: it is the archive itself, or it and
all names of the chain before it are there. -/
theorem restoresChain_iff (h : Plain arcName) :
    RestoresChain call dir arcName ↔
      ((∀ name, Saved arcName dir name → call.canMove name = true) →
        ∀ i, Reached call dir arcName i → dir.bytesAt (chainName arcName dir i) ≠ none →
          Saved arcName dir (chainName arcName dir i)) := by
  rw [restoresChain_iff_way call dir h]
  have hfirst := h.firstVolume dir
  have hexisting := h.existingPath dir
  have hmoving : Moving dir (renameExisting call.canMove _ _ dir).1 :=
    moving_renameExisting call.canMove hfirst hexisting
  obtain ⟨hok, hmem⟩ : Walked call.canMove (Saved arcName dir) _ :=
    renameExisting_walked hfirst hexisting
  unfold FailingCall.interrupted NothingInTheWay
  dsimp only
  rw [← hok]
  cases hmoved : (renameExisting call.canMove (firstVolume arcName dir)
      (existingPath arcName dir) dir).2 with
  | false => simp
  | true =>
    -- what stands at a name of the chain after the first walk
    have hother : ∀ j, (renameExisting call.canMove (firstVolume arcName dir)
        (existingPath arcName dir) dir).1.1.entry (chainName arcName dir j) ≠ some .other ↔
          (dir.entry (chainName arcName dir j) = some .other →
            Saved arcName dir (chainName arcName dir j)) := by
      intro j
      have hplain : Plain (chainName arcName dir j) := hfirst.iterate j
      rw [hmoving.entry hplain, ← hmem hmoved]
      split <;> simp_all
    rw [if_pos rfl]
    simp only [true_implies, mem_startVolumes, not_mem_nil, false_or, hmem hmoved]
    constructor
    · intro hway i hreached
      exact hway _ ⟨i, hreached.1, fun j hj => (hother j).mpr (hreached.2 j hj), rfl⟩
    · rintro hway _ ⟨i, hi, hfiles, rfl⟩
      exact hway i ⟨hi, fun j hj => (hother j).mp (hfiles j hj)⟩

end Guards

/-! ## A gap -/

def gapPart (digit : Char) : FileName := partName ['a'] [digit]

/-- The first and the third volume of a set whose second one is missing. -/
def gapDirectory : Directory := ofFiles [(gapPart '1', [82]), (gapPart '3', [83])]

/-- The disk is full while the third volume is written. -/
def fullDisk : FailingCall := ⟨fun _ => true, [[1], [2], [3]]⟩

theorem fullDisk_loses_volume :
    gapDirectory.bytesAt (chainName (gapPart '1') gapDirectory 2) = some [83] ∧
      (fullDisk.after (gapPart '1') gapDirectory).bytesAt
        (chainName (gapPart '1') gapDirectory 2) = none := by
  decide +kernel

theorem gapPart_plain : Plain (gapPart '1') := by
  unfold Plain
  decide

theorem restoresChain_two_volumes :
    RestoresChain ⟨fun _ => true, [[1], [2]]⟩ gapDirectory (gapPart '1') := by
  refine (restoresChain_iff _ _ gapPart_plain).mpr fun _ i hi hbytes => ?_
  -- the second of the two names is not there
  obtain rfl : i = 0 := by
    by_contra hne
    obtain rfl : i = 1 := by
      have := hi.1
      simp only [length_cons, length_nil] at this
      omega
    exact hbytes (by decide +kernel)
  refine .inl ⟨0, by omega, fun j hj => ?_, rfl⟩
  rw [Nat.le_zero.mp hj]
  decide +kernel

end OpenRar.Archive
