import Mathlib

/-!
# A directory of files

A store maps names to files and files to their contents; no two names share a file.  A
file keeps its identity when it is renamed, which is what an open stream refers to.

The second half is the rollback protocol: originals are moved to another name, outputs
are created, and a failure removes the outputs and moves the originals back.  `Midway`
says what holds while it runs, `Midway.bytesAt_restored` what is restored at its end.
-/

namespace OpenRar.DirectoryStore

open List Function

/-- What a name stands for: a regular file, or something that cannot be opened as one. -/
inductive Node where
  | file (id : Nat)
  | other
deriving DecidableEq

/-- Names, contents, and a bound on the identities in use. -/
structure Store (N β : Type) where
  entry : N → Option Node
  data : Nat → List β
  fresh : Nat
  entry_lt : ∀ {name : N} {id : Nat}, entry name = some (.file id) → id < fresh
  entry_inj : ∀ {a b : N} {id : Nat}, entry a = some (.file id) → entry b = some (.file id) → a = b

variable {N β : Type}

namespace Store

/-- The contents of the file that a name stands for. -/
def bytesAt (s : Store N β) (name : N) : Option (List β) :=
  match s.entry name with
  | some (.file id) => some (s.data id)
  | _ => none

/-- The entry of a name and the contents of its file decide its bytes. -/
theorem bytesAt_congr {s t : Store N β} {name : N} (hentry : t.entry name = s.entry name)
    (hdata : ∀ id, s.entry name = some (.file id) → t.data id = s.data id) :
    t.bytesAt name = s.bytesAt name := by
  unfold bytesAt
  rw [hentry]
  split
  · next id h => rw [hdata id h]
  · rfl

theorem bytesAt_eq_none_of_entry {s : Store N β} {name : N} (h : s.entry name = none) :
    s.bytesAt name = none := by
  unfold bytesAt
  rw [h]

theorem bytesAt_eq_none_cases {s : Store N β} {name : N} (h : s.bytesAt name = none) :
    s.entry name = none ∨ s.entry name = some .other := by
  unfold bytesAt at h
  split at h
  · cases h
  · next hfile =>
    cases hentry : s.entry name with
    | none => exact .inl rfl
    | some node =>
      cases node with
      | file id => exact absurd hentry (hfile id)
      | other => exact .inr rfl

/-- `bytes` at the position `off` of a file, behind a gap of default values if it is
shorter. -/
def write [Inhabited β] (s : Store N β) (id off : Nat) (bytes : List β) : Store N β :=
  let old := s.data id
  { s with
    data :=
      Function.update s.data id
        (old.take off ++ List.replicate (off - old.length) default ++ bytes ++
          old.drop (off + bytes.length)) }

theorem data_write_of_ne [Inhabited β] (s : Store N β) {i id : Nat} (hi : i ≠ id) (off : Nat)
    (bytes : List β) : (s.write id off bytes).data i = s.data i := update_of_ne hi _ _

/-! ## Operations on names -/

variable [DecidableEq N]

variable {entry : N → Option Node}

/-- Taking an entry away keeps what the rest of the names stand for. -/
theorem file_of_update_none {name n : N} {id : Nat}
    (h : Function.update entry name none n = some (.file id)) :
    n ≠ name ∧ entry n = some (.file id) := by
  by_cases hn : n = name
  · subst hn
    simp at h
  · exact ⟨hn, by simpa [hn] using h⟩

def remove (s : Store N β) (name : N) : Store N β where
  entry := Function.update s.entry name none
  data := s.data
  fresh := s.fresh
  entry_lt h := s.entry_lt (file_of_update_none h).2
  entry_inj ha hb := s.entry_inj (file_of_update_none ha).2 (file_of_update_none hb).2

theorem file_of_rename {old new n : N} {node : Node} {id : Nat} (hold : entry old = some node)
    (h : Function.update (Function.update entry old none) new (some node) n = some (.file id)) :
    (n = new ∧ entry old = some (.file id)) ∨
      (n ≠ new ∧ n ≠ old ∧ entry n = some (.file id)) := by
  by_cases hnew : n = new
  · subst hnew
    rw [update_self] at h
    exact .inl ⟨rfl, hold.trans h⟩
  · rw [update_of_ne hnew] at h
    obtain ⟨hne, h⟩ := file_of_update_none h
    exact .inr ⟨hnew, hne, h⟩

/-- `old` replaces whatever `new` stood for; nothing happens without an `old`. -/
def rename (s : Store N β) (old new : N) : Store N β :=
  match hold : s.entry old with
  | none => s
  | some node =>
    { entry := Function.update (Function.update s.entry old none) new (some node)
      data := s.data
      fresh := s.fresh
      entry_lt := fun h => by
        rcases file_of_rename hold h with ⟨-, h⟩ | ⟨-, -, h⟩ <;> exact s.entry_lt h
      entry_inj := fun {a b id} ha hb => by
        rcases file_of_rename hold ha with ⟨hanew, ha'⟩ | ⟨-, haold, ha'⟩ <;>
          rcases file_of_rename hold hb with ⟨hbnew, hb'⟩ | ⟨-, hbold, hb'⟩
        · rw [hanew, hbnew]
        · exact absurd (s.entry_inj hb' ha') hbold
        · exact absurd (s.entry_inj ha' hb') haold
        · exact s.entry_inj ha' hb' }

/-- Open for writing: an existing file is emptied, otherwise there is a new one. -/
def create (s : Store N β) (name : N) : Store N β × Nat :=
  match s.entry name with
  | some (.file id) => ({ s with data := Function.update s.data id [] }, id)
  | _ =>
    ({ entry := Function.update s.entry name (some (.file s.fresh))
       data := Function.update s.data s.fresh []
       fresh := s.fresh + 1
       entry_lt := by
        intro n id h
        by_cases hn : n = name
        · subst hn
          simp only [update_self, Option.some.injEq, Node.file.injEq] at h
          omega
        · have := s.entry_lt (by simpa [hn] using h)
          omega
       entry_inj := by
        intro a b id ha hb
        -- The new identity is above those of all other names.
        by_cases han : a = name <;> by_cases hbn : b = name
        · rw [han, hbn]
        · subst han
          have := s.entry_lt (by simpa [hbn] using hb)
          simp only [update_self, Option.some.injEq, Node.file.injEq] at ha
          omega
        · subst hbn
          have := s.entry_lt (by simpa [han] using ha)
          simp only [update_self, Option.some.injEq, Node.file.injEq] at hb
          omega
        · exact s.entry_inj (by simpa [han] using ha) (by simpa [hbn] using hb) },
      s.fresh)

/-- The store that holds the given files; of two files with one name it is the first. -/
def ofFiles (files : List (N × List β)) : Store N β where
  entry name :=
    if name ∈ files.map Prod.fst then some (.file ((files.map Prod.fst).idxOf name)) else none
  data id := (files.map Prod.snd).getD id []
  fresh := files.length
  entry_lt := by
    intro name id h
    split at h
    · next hmem =>
      cases h
      simpa using idxOf_lt_length_of_mem hmem
    · cases h
  entry_inj := by
    intro a b id ha hb
    split at ha
    · next hmem =>
      cases ha
      split at hb
      · exact ((idxOf_inj hmem).mp (by simpa using hb.symm))
      · cases hb
    · cases ha

section Lemmas

variable (s : Store N β) (name old new : N)

@[simp]
theorem entry_remove (n : N) :
    (s.remove name).entry n = if n = name then none else s.entry n := by
  simp [remove, update_apply]

@[simp]
theorem data_remove : (s.remove name).data = s.data := rfl

@[simp]
theorem data_rename : (s.rename old new).data = s.data := by
  unfold rename
  split <;> rfl

@[simp]
theorem fresh_rename : (s.rename old new).fresh = s.fresh := by
  unfold rename
  split <;> rfl

/-- Only the two names of a renaming change. -/
theorem entry_rename_of_ne {n : N} (hold : n ≠ old) (hnew : n ≠ new) :
    (s.rename old new).entry n = s.entry n := by
  unfold rename
  split
  · rfl
  · simp [hold, hnew]

theorem entry_rename_new {node : Node} (h : s.entry old = some node) :
    (s.rename old new).entry new = some node := by
  unfold rename
  split
  · next hnone => simp [h] at hnone
  · next hsome =>
    rw [h] at hsome
    cases hsome
    simp

theorem entry_rename_old {node : Node} (h : s.entry old = some node) (hne : old ≠ new) :
    (s.rename old new).entry old = none := by
  unfold rename
  split
  · next hnone => simp [h] at hnone
  · simp [hne]

theorem entry_create_of_ne {n : N} (hn : n ≠ name) :
    (s.create name).1.entry n = s.entry n := by
  unfold create
  split
  · rfl
  · simp [hn]

/-- The name stands for the file that was opened. -/
theorem entry_create_self : (s.create name).1.entry name = some (.file (s.create name).2) := by
  unfold create
  split
  · assumption
  · simp

theorem fresh_le_create : s.fresh ≤ (s.create name).1.fresh := by
  unfold create
  split
  · exact le_rfl
  · exact Nat.le_succ _

/-- Only the file that was opened is emptied. -/
theorem data_create_of_ne {id : Nat} (hid : id ≠ (s.create name).2) :
    (s.create name).1.data id = s.data id := by
  revert hid
  unfold create
  split <;> intro hid <;> exact update_of_ne hid _ _

/-- The file that was opened is the one the name stood for, or a new one. -/
theorem create_id : s.entry name = some (.file (s.create name).2) ∨
    (s.create name).2 = s.fresh := by
  unfold create
  split
  · exact .inl (by assumption)
  · exact .inr rfl

end Lemmas

/-! ## Moving aside and rolling back -/

section Rollback

variable (aside : N → N) (Kept : N → Prop)

/-- A file that no protected name stood for. -/
def Unprotected (s₀ : Store N β) (id : Nat) : Prop :=
  ∀ k, Kept k → s₀.entry k ≠ some (.file id)

/-- The originals `moved` are at their other names and the outputs `created` are there;
the files of protected names are untouched. -/
structure Midway (s₀ s : Store N β) (moved created : List N) : Prop where
  old_data : ∀ n id, Kept n → s₀.entry n = some (.file id) → s.data id = s₀.data id
  fresh_le : s₀.fresh ≤ s.fresh
  aside_entry : ∀ m ∈ moved, s.entry (aside m) = s₀.entry m
  kept : ∀ n, Kept n → n ∉ moved → n ∉ created → s.entry n = s₀.entry n
  young : ∀ n ∈ moved ++ created, ∀ id, s.entry n = some (.file id) → Unprotected Kept s₀ id
  vacant : ∀ c ∈ created, Kept c → c ∉ moved → s₀.entry c = none

/-- Remove the outputs, then give the originals their names back. -/
def rollback (s : Store N β) (moved created : List N) : Store N β :=
  moved.foldl (fun s m => s.rename (aside m) m) (created.foldl remove s)

variable {aside Kept} {s₀ s : Store N β} {moved created : List N}

omit [DecidableEq N] in
theorem Midway.refl (s : Store N β) : Midway aside Kept s s [] [] where
  old_data _ _ _ _ := rfl
  fresh_le := le_rfl
  aside_entry _ h := by simp at h
  kept _ _ _ _ := rfl
  young _ h := by simp at h
  vacant _ h := by simp at h

section

variable (h : Midway aside Kept s₀ s moved []) (hinj : Function.Injective aside)
    (hkept : ∀ n, Kept n → ∀ m, n ≠ aside m) (hmoved : ∀ m ∈ moved, Kept m) {p : N} (hp : p ∉ moved)
include h hinj hkept hmoved hp

/-- The name for the next original is cleared. -/
theorem Midway.clear : Midway aside Kept s₀ (s.remove (aside p)) moved [] where
  old_data := h.old_data
  fresh_le := h.fresh_le
  aside_entry m hm := by
    have hne : aside m ≠ aside p := fun heq => hp (hinj heq ▸ hm)
    rw [entry_remove, if_neg hne, h.aside_entry m hm]
  kept n hn hnotMoved hcreated := by
    rw [entry_remove, if_neg (hkept n hn p), h.kept n hn hnotMoved hcreated]
  young n hn id hid := by
    have hmem : n ∈ moved := by simpa using hn
    rw [entry_remove, if_neg (hkept n (hmoved n hmem) p)] at hid
    exact h.young n hn id hid
  vacant := h.vacant

/-- One more original is moved aside. -/
theorem Midway.move (hpkept : Kept p) {node : Node} (hnode : s.entry p = some node) :
    Midway aside Kept s₀ (s.rename p (aside p)) (moved ++ [p]) [] where
  old_data := by simpa using h.old_data
  fresh_le := by simpa using h.fresh_le
  aside_entry m hm := by
    rcases mem_append.mp hm with hm | hm
    · have hne : aside m ≠ aside p := fun heq => hp (hinj heq ▸ hm)
      rw [entry_rename_of_ne s p _ (hkept p hpkept m).symm hne, h.aside_entry m hm]
    · obtain rfl := mem_singleton.mp hm
      rw [entry_rename_new s m _ hnode, ← h.kept m hpkept hp (by simp), hnode]
  kept n hn hnotMoved hcreated := by
    rw [mem_append, not_or, mem_singleton] at hnotMoved
    rw [entry_rename_of_ne s p _ hnotMoved.2 (hkept n hn p), h.kept n hn hnotMoved.1 hcreated]
  young n hn id hid := by
    rw [append_nil, mem_append, mem_singleton] at hn
    by_cases hnp : n = p
    · rw [hnp, entry_rename_old s p _ hnode (hkept p hpkept p)] at hid
      cases hid
    · have hmem : n ∈ moved := hn.resolve_right hnp
      rw [entry_rename_of_ne s p _ hnp (hkept n (hmoved n hmem) p)] at hid
      exact h.young n (by simpa using hmem) id hid
  vacant c hc := by simp at hc

end

/-- An output is not opened over the file of a protected name, unless the name is one. -/
theorem Midway.create_unprotected (h : Midway aside Kept s₀ s moved created) {p : N}
    (hplain : ∀ m, p ≠ aside m) (hp : Kept p → p ∉ moved → s₀.entry p = none) :
    Unprotected Kept s₀ (s.create p).2 := by
  rcases s.create_id p with hid | hid
  · by_cases hmem : p ∈ moved ++ created
    · exact h.young p hmem _ hid
    · rw [mem_append, not_or] at hmem
      intro k hk hentry
      -- The file of a protected name is still at that name or at its other one.
      by_cases hkmoved : k ∈ moved
      · have haside : s.entry (aside k) = some (.file (s.create p).2) := by
          rw [h.aside_entry k hkmoved, hentry]
        exact hplain k (s.entry_inj hid haside)
      · by_cases hkcreated : k ∈ created
        · rw [h.vacant k hkcreated hk hkmoved] at hentry
          cases hentry
        · have hkept : s.entry k = some (.file (s.create p).2) := by
            rw [h.kept k hk hkmoved hkcreated, hentry]
          obtain rfl := s.entry_inj hid hkept
          rw [hp hk hkmoved] at hentry
          cases hentry
  · intro k _ hentry
    have hlt := s₀.entry_lt hentry
    have hle := h.fresh_le
    omega

omit [DecidableEq N] in
/-- What is no file is still at its name and cannot be opened, so that an output stands
where there was nothing. -/
theorem Midway.entry_of_opened (h : Midway aside Kept s₀ s moved created) {p : N} (hp : Kept p)
    (hopened : s.entry p ≠ some .other) (hbytes : s₀.bytesAt p ≠ none → p ∈ moved)
    (hmoved : p ∉ moved) : s₀.entry p = none := by
  have hnone : s₀.bytesAt p = none := by
    by_contra hne
    exact hmoved (hbytes hne)
  refine (bytesAt_eq_none_cases hnone).resolve_right fun hother => ?_
  by_cases hearlier : p ∈ created
  · rw [h.vacant p hearlier hp hmoved] at hother
    cases hother
  · rw [← h.kept p hp hmoved hearlier] at hother
    exact hopened hother

/-- An output is created where no protected name is, or where one was moved away. -/
theorem Midway.create (h : Midway aside Kept s₀ s moved created) {p : N}
    (hplain : ∀ m, p ≠ aside m) (hp : Kept p → p ∉ moved → s₀.entry p = none) :
    Midway aside Kept s₀ (s.create p).1 moved (created ++ [p]) := by
  have hid := h.create_unprotected hplain hp
  refine ⟨fun n id hn hentry => ?_, h.fresh_le.trans (s.fresh_le_create p), fun m hm => ?_,
    fun n hn hmoved hcreated => ?_, fun n hn id hentry => ?_, fun c hc hkept hmoved => ?_⟩
  · have hne : id ≠ (s.create p).2 := by
      rintro rfl
      exact hid n hn hentry
    rw [s.data_create_of_ne p hne, h.old_data n id hn hentry]
  · rw [s.entry_create_of_ne p (hplain m).symm, h.aside_entry m hm]
  · rw [mem_append, not_or, mem_singleton] at hcreated
    rw [s.entry_create_of_ne p hcreated.2, h.kept n hn hmoved hcreated.1]
  · by_cases hnp : n = p
    · rw [hnp, s.entry_create_self p] at hentry
      cases hentry
      exact hid
    · rw [s.entry_create_of_ne p hnp] at hentry
      exact h.young n (by simpa [hnp] using hn) id hentry
  · rcases mem_append.mp hc with hc | hc
    · exact h.vacant c hc hkept hmoved
    · obtain rfl := mem_singleton.mp hc
      exact hp hkept hmoved

omit [DecidableEq N] in
/-- A write to a file that no protected name stood for. -/
theorem Midway.write [Inhabited β] (h : Midway aside Kept s₀ s moved created) {id : Nat}
    (hid : Unprotected Kept s₀ id) (off : Nat) (bytes : List β) :
    Midway aside Kept s₀ (s.write id off bytes) moved created where
  old_data n i hn hentry := by
    have hne : i ≠ id := by
      rintro rfl
      exact hid n hn hentry
    rw [s.data_write_of_ne hne, h.old_data n i hn hentry]
  fresh_le := h.fresh_le
  aside_entry := h.aside_entry
  kept := h.kept
  young := h.young
  vacant := h.vacant

theorem entry_removeAll (created : List N) (s : Store N β) (n : N) :
    (created.foldl remove s).entry n = if n ∈ created then none else s.entry n := by
  induction created generalizing s with
  | nil => simp
  | cons c created ih =>
    rw [foldl_cons, ih, entry_remove]
    by_cases hmem : n ∈ created
    · simp [hmem]
    · simp [hmem]

theorem data_removeAll (created : List N) (s : Store N β) :
    (created.foldl remove s).data = s.data := by
  induction created generalizing s with
  | nil => rfl
  | cons c created ih => rw [foldl_cons, ih, data_remove]

/-- A step that gives an original its name back from its other one. -/
structure Restoring (aside : N → N) (step : Store N β → N → Store N β) : Prop where
  other : ∀ s {m n}, n ≠ m → n ≠ aside m → (step s m).entry n = s.entry n
  back : ∀ s {m}, m ≠ aside m → s.entry (aside m) ≠ none → (step s m).entry m = s.entry (aside m)
  data : ∀ s m, (step s m).data = s.data

theorem restoring_rename : Restoring aside fun (s : Store N β) m => s.rename (aside m) m where
  other s _ _ hm haside := entry_rename_of_ne s _ _ haside hm
  back s _ _ hsome := by
    obtain ⟨node, hnode⟩ := Option.ne_none_iff_exists'.mp hsome
    rw [entry_rename_new s _ _ hnode, hnode]
  data s _ := data_rename s _ _

/-- The step may remove what has taken the name meanwhile. -/
theorem restoring_remove_rename :
    Restoring aside fun (s : Store N β) m => (s.remove m).rename (aside m) m where
  other s _ _ hm haside := by rw [entry_rename_of_ne _ _ _ haside hm, entry_remove, if_neg hm]
  back s m hne hsome := by
    have hkeep : (s.remove m).entry (aside m) = s.entry (aside m) := by
      rw [entry_remove, if_neg hne.symm]
    rw [restoring_rename.back _ hne (hkeep ▸ hsome), hkeep]
  data s _ := by rw [data_rename, data_remove]

variable {step : Store N β → N → Store N β}

omit [DecidableEq N] in
theorem Restoring.data_foldl (hstep : Restoring aside step) (moved : List N) (s : Store N β) :
    (moved.foldl step s).data = s.data := by
  induction moved generalizing s with
  | nil => rfl
  | cons m moved ih => rw [foldl_cons, ih, hstep.data]

omit [DecidableEq N] in
/-- The steps do not touch a name that is neither an original nor another name of one. -/
theorem Restoring.foldl_of_notMem (hstep : Restoring aside step) {moved : List N} (s : Store N β)
    {n : N} (hn : ∀ m, n ≠ aside m) (hmem : n ∉ moved) :
    (moved.foldl step s).entry n = s.entry n := by
  induction moved generalizing s with
  | nil => rfl
  | cons m moved ih =>
    rw [mem_cons, not_or] at hmem
    rw [foldl_cons, ih _ hmem.2, hstep.other s hmem.1 (hn m)]

omit [DecidableEq N] in
/-- Every original gets back what its other name stands for. -/
theorem Restoring.foldl_of_mem (hstep : Restoring aside step) {moved : List N} (s : Store N β)
    (hinj : Function.Injective aside) (hplain : ∀ m ∈ moved, ∀ p, m ≠ aside p)
    (hnodup : moved.Nodup) {n : N} (hmem : n ∈ moved) (hsome : s.entry (aside n) ≠ none) :
    (moved.foldl step s).entry n = s.entry (aside n) := by
  induction moved generalizing s with
  | nil => simp at hmem
  | cons m moved ih =>
    have hm := hplain m mem_cons_self
    rw [nodup_cons] at hnodup
    rw [foldl_cons]
    by_cases hnm : n = m
    · subst hnm
      rw [hstep.foldl_of_notMem _ hm hnodup.1, hstep.back s (hm n) hsome]
    · have hmem' : n ∈ moved := (mem_cons.mp hmem).resolve_left hnm
      have hkeep : (step s m).entry (aside n) = s.entry (aside n) :=
        hstep.other s (hm n).symm fun heq => hnm (hinj heq)
      rw [ih _ (fun m hm => hplain m (mem_cons_of_mem _ hm)) hnodup.2 hmem' (by rwa [hkeep]),
        hkeep]

omit [DecidableEq N] in
/-- Outputs at the names of originals need not be counted. -/
theorem Midway.forget (h : Midway aside Kept s₀ s moved created) {rest : List N}
    (hsub : ∀ c ∈ rest, c ∈ created) (hrest : ∀ c ∈ created, c ∉ moved → c ∈ rest) :
    Midway aside Kept s₀ s moved rest where
  old_data := h.old_data
  fresh_le := h.fresh_le
  aside_entry := h.aside_entry
  kept n hn hmoved hout := h.kept n hn hmoved fun hc => hout (hrest n hc hmoved)
  young n hn := h.young n (by
    rcases mem_append.mp hn with hn | hn
    · exact mem_append_left _ hn
    · exact mem_append_right _ (hsub n hn))
  vacant c hc := h.vacant c (hsub c hc)

section Restored

variable (h : Midway aside Kept s₀ s moved created)
  (hstep : Restoring aside step) (hinj : Function.Injective aside)
  (hkept : ∀ n, Kept n → ∀ m, n ≠ aside m) (hmoved : ∀ m ∈ moved, Kept m)
  (hnodup : moved.Nodup) (hexists : ∀ m ∈ moved, s₀.entry m ≠ none)
  (hplain : ∀ c ∈ created, ∀ m, c ≠ aside m) {n : N} (hn : Kept n)
include h hstep hinj hkept hmoved hnodup hexists hplain hn

/-- The entries that removing the outputs and restoring the originals bring back. -/
theorem Midway.entry_restored :
    (moved.foldl step (created.foldl remove s)).entry n = s₀.entry n := by
  by_cases hmem : n ∈ moved
  · have hout : aside n ∉ created := fun hc => hplain _ hc n rfl
    have hentry : (created.foldl remove s).entry (aside n) = s₀.entry n := by
      rw [entry_removeAll, if_neg hout, h.aside_entry n hmem]
    rw [hstep.foldl_of_mem _ hinj (fun m hm => hkept m (hmoved m hm)) hnodup hmem
      (by rw [hentry]; exact hexists n hmem), hentry]
  · rw [hstep.foldl_of_notMem _ (hkept n hn) hmem, entry_removeAll]
    by_cases hout : n ∈ created
    · rw [if_pos hout, h.vacant n hout hn hmem]
    · rw [if_neg hout, h.kept n hn hmem hout]

/-- **Removing the outputs and restoring the originals brings back the bytes of every
protected name.** -/
theorem Midway.bytesAt_restored :
    (moved.foldl step (created.foldl remove s)).bytesAt n = s₀.bytesAt n := by
  refine bytesAt_congr
    (h.entry_restored hstep hinj hkept hmoved hnodup hexists hplain hn) fun id hentry => ?_
  rw [hstep.data_foldl, data_removeAll, h.old_data n id hn hentry]

end Restored

/-- An output that was created over something is gone afterwards. -/
theorem Restoring.bytesAt_created (hstep : Restoring aside step) (s : Store N β)
    {moved created : List N} {n : N} (hn : ∀ m, n ≠ aside m) (hmoved : n ∉ moved)
    (hcreated : n ∈ created) :
    (moved.foldl step (created.foldl remove s)).bytesAt n = none := by
  apply bytesAt_eq_none_of_entry
  rw [hstep.foldl_of_notMem _ hn hmoved, entry_removeAll, if_pos hcreated]

end Rollback
end Store
end OpenRar.DirectoryStore
