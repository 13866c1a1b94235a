import Mathlib

/-!
# Packing order by shared chunks

`plan_cdc_order` of `compress/cdc_planner.cpp`.  Files that share enough chunk hashes are
grouped, a file that only refers to an earlier one is moved into the group of that one,
and the groups are emitted one after another.

`Filed` is the invariant of both passes: a file is a member of the group that the table
gives it and of no other.  It says that nothing is lost or doubled, whatever the hashes
are.  The second pass goes through the files in ascending order, so the group of a master
is final when a reference is moved; sorting each group then puts the master first.
-/

namespace OpenRar.Compress

open List

/-! ## The index of chunk hashes -/

/-- `HashEntry`; the file's number is kept in 32 bits. -/
structure HashEntry where
  hash : UInt64
  file : Nat
deriving DecidableEq

/-- `hash_entry_less` -/
def hashEntryLess (a b : HashEntry) : Bool :=
  if a.hash ≠ b.hash then a.hash < b.hash else a.file < b.file

/-- The sorted index of all chunks. -/
def chunkIndex (hashes : List (List UInt64)) : List HashEntry :=
  let entries := hashes.zipIdx.flatMap fun (chunks, i) => chunks.map (⟨·, i % 2 ^ 32⟩)
  entries.mergeSort fun a b => !hashEntryLess b a

/-- `MAX_REPRESENTATIVES` -/
def maxRepresentatives : Nat := 8

/-- The earlier files that one hash of file `i` is counted against. -/
def sharersOf (index : List HashEntry) (i : Nat) (h : UInt64) : List Nat :=
  let lo := index.dropWhile (hashEntryLess · ⟨h, 0⟩)
  let earlier := (lo.takeWhile (·.hash = h)).takeWhile (·.file < i)
  (earlier.take maxRepresentatives).map HashEntry.file

/-- `shared[file]++` -/
def bumpShared (shared : List (Nat × Nat)) (file : Nat) : List (Nat × Nat) :=
  match shared.find? (·.1 = file) with
  | some _ => shared.map fun kv => if kv.1 = file then (file, (kv.2 + 1) % 2 ^ 32) else kv
  | none => shared ++ [(file, 1)]

/-- The counts of file `i` against the files before it. -/
def sharedCounts (index : List HashEntry) (i : Nat) (chunks : List UInt64) : List (Nat × Nat) :=
  (chunks.flatMap (sharersOf index i)).foldl bumpShared []

/-- One entry of the scan for the best partner. -/
def betterPartner (best kv : Nat × Nat) : Nat × Nat :=
  if kv.2 > best.2 ∨ (kv.2 = best.2 ∧ kv.1 < best.1) then kv else best

/-- The partner with the highest count, the smallest number among equal ones; `n` stands
for none. -/
def bestPartner (n : Nat) (shared : List (Nat × Nat)) : Nat × Nat :=
  shared.foldl betterPartner (n, 0)

/-- The order in which the counts are visited does not matter, so the model may keep them
in a list. -/
theorem bestPartner_perm (n : Nat) {shared shared' : List (Nat × Nat)} (h : shared.Perm shared') :
    bestPartner n shared = bestPartner n shared' := by
  refine h.foldl_eq' (fun a _ b _ best => ?_) (n, 0)
  -- both sides are the best of three in the order of the scan
  simp only [betterPartner]
  split_ifs <;> first | rfl | (rw [Prod.mk.injEq]; omega)

/-! ## Grouping -/

/-- `group_of` and `groups`. -/
structure Grouping where
  groupOf : List Nat
  groups : List (List Nat)

namespace Grouping

/-- The group of a file; `n` for a file without one. -/
def group (s : Grouping) (j : Nat) : Nat := s.groupOf.getD j s.groupOf.length

def members (s : Grouping) (g : Nat) : List Nat := s.groups.getD g []

/-- File `i` joins the group of `best`. -/
def join (s : Grouping) (i best : Nat) : Grouping where
  groupOf := s.groupOf.set i (s.group best)
  groups := s.groups.modify (s.group best) (· ++ [i])

/-- File `i` opens a group. -/
def openGroup (s : Grouping) (i : Nat) : Grouping where
  groupOf := s.groupOf.set i s.groups.length
  groups := s.groups ++ [[i]]

/-- File `i` moves to the group of `master`. -/
def move (s : Grouping) (i master : Nat) : Grouping where
  groupOf := s.groupOf.set i (s.group master)
  groups :=
    (s.groups.modify (s.group i) (·.filter (· ≠ i))).modify (s.group master) (· ++ [i])

end Grouping

/-- Is the overlap large enough?  The products are 64-bit ones. -/
def affine (affinityPermille smaller count : Nat) : Bool :=
  smaller > 0 && (count * 1000) % 2 ^ 64 ≥ (affinityPermille * smaller) % 2 ^ 64

/-- One file of the first pass. -/
def groupFile (hashes : List (List UInt64)) (index : List HashEntry) (affinityPermille : Nat)
    (s : Grouping) (i : Nat) : Grouping :=
  let chunks := hashes.getD i []
  let (best, count) := bestPartner hashes.length (sharedCounts index i chunks)
  let smaller := min chunks.length (hashes.getD best []).length
  if best < i ∧ affine affinityPermille smaller count then s.join i best else s.openGroup i

/-- One file of the reference fixup. -/
def fixReference (referenceOf : List Nat) (n : Nat) (s : Grouping) (i : Nat) : Grouping :=
  match referenceOf[i]? with
  | none => s
  | some master =>
    if master ≥ i ∨ master ≥ n then s
    else if s.group i = s.group master then s
    else s.move i master

/-- `result.order[k++] = i` for one file after another, into a vector of size `n`. -/
def emitOrder (n : Nat) (files : List Nat) : List Nat :=
  (files.foldl (fun (order, k) i => (order.set k i, k + 1)) (List.replicate n 0, 0)).1

/-- `CdcPlanResult` -/
structure CdcPlanResult where
  order : List Nat
  reordered : Bool

/-- `plan_cdc_order` -/
def planCdcOrder (hashes : List (List UInt64)) (referenceOf : List Nat) (affinityPermille : Nat) :
    CdcPlanResult :=
  let n := hashes.length
  let index := chunkIndex hashes
  let start : Grouping := { groupOf := List.replicate n n, groups := [] }
  let s := (List.range n).foldl (groupFile hashes index affinityPermille) start
  let groups :=
    if referenceOf = [] then s.groups
    else ((List.range n).foldl (fixReference referenceOf n) s).groups.map (·.mergeSort)
  let order := emitOrder n groups.flatten
  { order := order, reordered := (List.range n).any fun i => order.getD i 0 ≠ i }

/-! ## Every file is in its group -/

/-- The first `k` files are members of their groups and of nothing else. -/
structure Filed (k : Nat) (s : Grouping) : Prop where
  le_length : k ≤ s.groupOf.length
  mem_iff : ∀ g j, j ∈ s.members g ↔ j < k ∧ s.group j = g
  nodup : ∀ g, (s.members g).Nodup

namespace Filed

variable {k : Nat} {s : Grouping}

theorem mem (h : Filed k s) {j : Nat} (hj : j < k) : j ∈ s.members (s.group j) :=
  (h.mem_iff _ _).mpr ⟨hj, rfl⟩

theorem group_lt (h : Filed k s) {j : Nat} (hj : j < k) : s.group j < s.groups.length := by
  by_contra hge
  have hmem := h.mem hj
  rw [Grouping.members, getD_eq_default _ _ (by omega)] at hmem
  exact not_mem_nil hmem

theorem perm_range (h : Filed k s) : s.groups.flatten.Perm (List.range k) := by
  have hmembers : ∀ g (hg : g < s.groups.length), s.groups[g] = s.members g := fun g hg =>
    (getD_eq_getElem _ _ hg).symm
  have hnodup : s.groups.flatten.Nodup := by
    rw [nodup_flatten]
    refine ⟨fun l hl => ?_, pairwise_iff_getElem.mpr fun a b ha hb hab => ?_⟩
    · obtain ⟨g, hg, rfl⟩ := getElem_of_mem hl
      exact hmembers g hg ▸ h.nodup g
    · rw [hmembers a ha, hmembers b hb]
      intro j hja hjb
      have hga := ((h.mem_iff a j).mp hja).2
      have hgb := ((h.mem_iff b j).mp hjb).2
      omega
  refine (perm_ext_iff_of_nodup hnodup nodup_range).mpr fun j => ?_
  rw [mem_flatten, mem_range]
  constructor
  · rintro ⟨l, hl, hj⟩
    obtain ⟨g, hg, rfl⟩ := getElem_of_mem hl
    rw [hmembers g hg] at hj
    exact ((h.mem_iff g j).mp hj).1
  · intro hj
    have hg := h.group_lt hj
    exact ⟨_, getElem_mem hg, hmembers _ hg ▸ h.mem hj⟩

end Filed

section Steps

variable {k : Nat} {s : Grouping}

theorem group_set {groupOf : List Nat} {groups groups' : List (List Nat)} {i g : Nat}
    (hi : i < groupOf.length) (j : Nat) :
    (Grouping.mk (groupOf.set i g) groups').group j =
      if j = i then g else (Grouping.mk groupOf groups).group j := by
  simp only [Grouping.group]
  by_cases h : i = j
  · subst h
    simp [hi]
  · simp [h, Ne.symm h]

theorem members_modify (groupOf : List Nat) (groups : List (List Nat)) {g : Nat}
    (hg : g < groups.length) (f : List Nat → List Nat) (b : Nat) :
    (Grouping.mk groupOf (groups.modify g f)).members b =
      if b = g then f (groups.getD g []) else groups.getD b [] := by
  simp only [Grouping.members]
  by_cases h : g = b
  · subst h
    simp [hg]
  · simp [h, Ne.symm h]

theorem Filed.start (n : Nat) : Filed 0 { groupOf := List.replicate n n, groups := [] } where
  le_length := Nat.zero_le _
  mem_iff g j := by simp [Grouping.members]
  nodup g := by simp [Grouping.members]

theorem Filed.join (h : Filed k s) (hk : k < s.groupOf.length) {best : Nat} (hbest : best < k) :
    Filed (k + 1) (s.join k best) := by
  have hg := h.group_lt hbest
  have hgroup : ∀ j, (s.join k best).group j = if j = k then s.group best else s.group j :=
    fun j => group_set hk j
  have hmembers : ∀ g, (s.join k best).members g =
      if g = s.group best then s.members (s.group best) ++ [k] else s.members g :=
    fun g => members_modify _ _ hg _ g
  have hnew : ∀ g, k ∉ s.members g := fun g hmem => by
    have := ((h.mem_iff g k).mp hmem).1
    omega
  refine ⟨by simpa [Grouping.join] using hk, fun g j => ?_, fun g => ?_⟩
  · rw [hmembers, hgroup]
    have hj := h.mem_iff g j
    split_ifs with h₁ h₂ h₂
    · subst h₂
      simp [h₁]
    · subst h₁
      rw [mem_append, hj, mem_singleton]
      omega
    · subst h₂
      exact ⟨fun hmem => absurd hmem (hnew g), fun hmem => absurd hmem.2.symm h₁⟩
    · rw [hj]
      omega
  · rw [hmembers]
    split
    · exact nodup_append.mpr ⟨h.nodup _, nodup_singleton _, fun a ha b hb => by
        rw [mem_singleton.mp hb]
        rintro rfl
        exact hnew _ ha⟩
    · exact h.nodup g

theorem Filed.openGroup (h : Filed k s) (hk : k < s.groupOf.length) :
    Filed (k + 1) (s.openGroup k) := by
  have hgroup : ∀ j, (s.openGroup k).group j = if j = k then s.groups.length else s.group j :=
    fun j => group_set hk j
  have hmembers : ∀ g, (s.openGroup k).members g =
      if g = s.groups.length then [k] else s.members g := by
    intro g
    simp only [Grouping.members, Grouping.openGroup, getD_eq_getElem?_getD]
    rcases Nat.lt_trichotomy g s.groups.length with hg | rfl | hg
    · rw [List.getElem?_append_left hg, if_neg (Nat.ne_of_lt hg)]
    · simp
    · rw [if_neg (Nat.ne_of_gt hg), List.getElem?_eq_none (by simp; omega),
        List.getElem?_eq_none (Nat.le_of_lt hg)]
  refine ⟨by simpa [Grouping.openGroup] using hk, fun g j => ?_, fun g => ?_⟩
  · rw [hmembers, hgroup]
    have hj := h.mem_iff g j
    split_ifs with h₁ h₂ h₂
    · simp [h₁, h₂]
    · -- an old file is in no group that was just opened
      have hold : j < k → s.group j ≠ g := fun hjk => by
        have := h.group_lt hjk
        omega
      simp only [mem_singleton]
      exact ⟨fun heq => absurd heq h₂, fun ⟨hlt, heq⟩ => absurd heq (hold (by omega))⟩
    · subst h₂
      constructor
      · intro hmem
        have := (hj.mp hmem).1
        omega
      · intro hmem
        exact absurd hmem.2.symm h₁
    · rw [hj]
      omega
  · rw [hmembers]
    split
    · exact nodup_singleton _
    · exact h.nodup g

theorem Filed.move {n : Nat} (h : Filed n s) {i master : Nat} (hi : i < n) (hm : master < n)
    (hne : s.group i ≠ s.group master) : Filed n (s.move i master) := by
  have hgi := h.group_lt hi
  have hgm := h.group_lt hm
  have hgroup : ∀ j, (s.move i master).group j = if j = i then s.group master else s.group j :=
    fun j => group_set (Nat.lt_of_lt_of_le hi h.le_length) j
  have hmembers : ∀ g, (s.move i master).members g =
      if g = s.group master then s.members (s.group master) ++ [i]
      else if g = s.group i then (s.members (s.group i)).filter (· ≠ i) else s.members g := by
    intro g
    have houter := members_modify s.groupOf (s.groups.modify (s.group i) (·.filter (· ≠ i)))
      (g := s.group master) (by rwa [length_modify]) (· ++ [i]) g
    have hinner := fun b =>
      members_modify s.groupOf s.groups hgi (·.filter (· ≠ i)) b
    simp only [Grouping.members] at hinner houter ⊢
    rw [Grouping.move]
    rw [houter, hinner, hinner, if_neg hne.symm]
  refine ⟨by simpa [Grouping.move] using h.le_length, fun g j => ?_, fun g => ?_⟩
  · rw [hmembers, hgroup]
    have hj := h.mem_iff g j
    have hjm := h.mem_iff (s.group master) j
    have hji := h.mem_iff (s.group i) j
    by_cases hij : j = i
    · subst hij
      rw [if_pos rfl]
      split_ifs with h₁ h₂
      · simp [h₁, hi]
      · simp [Ne.symm h₁]
      · rw [hj]
        omega
    · rw [if_neg hij]
      split_ifs with h₁ h₂
      · subst h₁
        rw [mem_append, hjm, mem_singleton]
        simp [hij]
      · subst h₂
        rw [mem_filter, hji]
        simp [hij]
      · exact hj
  · rw [hmembers]
    split_ifs
    · refine nodup_append.mpr ⟨h.nodup _, nodup_singleton _, fun a ha b hb => ?_⟩
      rw [mem_singleton.mp hb]
      rintro rfl
      exact hne ((h.mem_iff _ _).mp ha).2
    · exact (h.nodup _).filter _
    · exact h.nodup g

end Steps

/-! ## The two passes -/

theorem groupFile_filed {hashes : List (List UInt64)} {index : List HashEntry}
    {affinityPermille k : Nat} {s : Grouping} (h : Filed k s) (hk : k < s.groupOf.length) :
    Filed (k + 1) (groupFile hashes index affinityPermille s k) ∧
      (groupFile hashes index affinityPermille s k).groupOf.length = s.groupOf.length := by
  rw [groupFile]
  dsimp only
  split
  · next hjoin => exact ⟨h.join hk hjoin.1, by simp [Grouping.join]⟩
  · exact ⟨h.openGroup hk, by simp [Grouping.openGroup]⟩

theorem grouping_filed (hashes : List (List UInt64)) (index : List HashEntry)
    (affinityPermille n k : Nat) (hk : k ≤ n) :
    Filed k ((List.range k).foldl (groupFile hashes index affinityPermille)
        { groupOf := List.replicate n n, groups := [] }) ∧
      ((List.range k).foldl (groupFile hashes index affinityPermille)
        { groupOf := List.replicate n n, groups := [] }).groupOf.length = n := by
  induction k with
  | zero => exact ⟨Filed.start n, length_replicate⟩
  | succ k ih =>
    obtain ⟨hfiled, hlength⟩ := ih (by omega)
    rw [range_succ, foldl_append, foldl_cons, foldl_nil]
    obtain ⟨hfiled', hlength'⟩ :=
      @groupFile_filed hashes index affinityPermille k _ hfiled (by omega)
    exact ⟨hfiled', hlength'.trans hlength⟩

/-- The references among the first `k` files are in the groups of their masters. -/
def Fixed (referenceOf : List Nat) (n k : Nat) (s : Grouping) : Prop :=
  ∀ i m, i < k → referenceOf[i]? = some m → m < i → m < n → s.group i = s.group m

variable {referenceOf l : List Nat} {n a b : Nat}

theorem fixReference_fixed {k : Nat} {s : Grouping} (h : Filed n s)
    (hk : k < n) (hfixed : Fixed referenceOf n k s) :
    Filed n (fixReference referenceOf n s k) ∧
      Fixed referenceOf n (k + 1) (fixReference referenceOf n s k) := by
  -- a file before `k` keeps its group, so what was fixed stays fixed
  have hstay : ∀ s' : Grouping, (∀ j, j < k → s'.group j = s.group j) →
      (∀ m, referenceOf[k]? = some m → m < k → m < n → s'.group k = s'.group m) →
      Fixed referenceOf n (k + 1) s' := by
    intro s' hkeep hlast i m hi hm hmi hmn
    rcases Nat.lt_succ_iff_lt_or_eq.mp hi with hik | rfl
    · rw [hkeep i hik, hkeep m (by omega)]
      exact hfixed i m hik hm hmi hmn
    · exact hlast m hm hmi hmn
  unfold fixReference
  split
  · next hnone =>
    exact ⟨h, hstay s (fun _ _ => rfl) fun m hm => by rw [hnone] at hm; exact nomatch hm⟩
  · next master hsome =>
    have hmaster : ∀ m, referenceOf[k]? = some m → m = master := fun m hm =>
      Option.some.inj (hm.symm.trans hsome)
    split
    · refine ⟨h, hstay s (fun _ _ => rfl) fun m hm hmk hmn => ?_⟩
      have := hmaster m hm
      omega
    · next hbefore =>
      split
      · next hsame =>
        exact ⟨h, hstay s (fun _ _ => rfl) fun m hm _ _ => hmaster m hm ▸ hsame⟩
      · next hne =>
        have hmn : master < n := by omega
        have hgroup : ∀ j, (s.move k master).group j =
            if j = k then s.group master else s.group j :=
          fun j => group_set (Nat.lt_of_lt_of_le hk h.le_length) j
        refine ⟨h.move hk hmn hne, hstay _ (fun j hj => ?_) fun m hm hmk _ => ?_⟩
        · rw [hgroup, if_neg (by omega)]
        · rw [hgroup, hgroup, if_pos rfl, if_neg (by omega), hmaster m hm]

theorem fixing_fixed {s : Grouping} (h : Filed n s) (k : Nat) (hk : k ≤ n) :
    Filed n ((List.range k).foldl (fixReference referenceOf n) s) ∧
      Fixed referenceOf n k ((List.range k).foldl (fixReference referenceOf n) s) := by
  induction k with
  | zero => exact ⟨h, fun i m hi => absurd hi (Nat.not_lt_zero i)⟩
  | succ k ih =>
    obtain ⟨hfiled, hfixed⟩ := ih (by omega)
    rw [range_succ, foldl_append, foldl_cons, foldl_nil]
    exact fixReference_fixed hfiled (by omega) hfixed

/-! ## The emitted order -/

theorem emitLoop_eq (files : List Nat) (order : List Nat) (k : Nat)
    (h : k + files.length = order.length) :
    (files.foldl (fun (order, k) i => (order.set k i, k + 1)) (order, k)).1 =
      order.take k ++ files := by
  induction files generalizing order k with
  | nil => simpa using Nat.le_of_eq h.symm
  | cons i files ih =>
    rw [length_cons] at h
    rw [foldl_cons]
    have hnext : (order.set k i).take (k + 1) = order.take k ++ [i] := by
      rw [take_add_one, List.getElem?_set_self (by omega), take_set_of_le (Nat.le_refl k)]
      rfl
    rw [ih _ _ (by rw [length_set]; omega), hnext, append_assoc, singleton_append]

theorem emitOrder_eq {files : List Nat} (h : files.length = n) : emitOrder n files = files := by
  rw [emitOrder, emitLoop_eq _ _ _ (by simp [h])]
  rfl

theorem flatten_map_perm {α : Type*} (f : List α → List α) (hf : ∀ l, (f l).Perm l)
    (groups : List (List α)) : (groups.map f).flatten.Perm groups.flatten := by
  induction groups with
  | nil => exact List.Perm.nil
  | cons g groups ih => exact (hf g).append ih

/-- In a list without doubles, what stands before something comes first. -/
theorem idxOf_lt_of_sublist (hl : l.Nodup) (h : List.Sublist [a, b] l) : l.idxOf a < l.idxOf b := by
  obtain ⟨front, back, rfl, ha, hb⟩ := cons_sublist_iff.mp h
  have hback : b ∈ back := singleton_sublist.mp hb
  have hfront : b ∉ front := fun hmem => disjoint_of_nodup_append hl hmem hback
  rw [idxOf_append_of_mem ha, idxOf_append_of_notMem hfront]
  exact Nat.lt_of_lt_of_le (idxOf_lt_length_of_mem ha) (Nat.le_add_right _ _)

/-- A sorted list holds a smaller member before a larger one. -/
theorem pair_sublist_mergeSort (ha : a ∈ l) (hb : b ∈ l) (hab : a < b) :
    List.Sublist [a, b] l.mergeSort := by
  have hsub : [a, b].Subperm l.mergeSort :=
    List.Nodup.subperm (by simpa using hab.ne) (by simp [ha, hb])
  have hpair : [a, b].SortedLE := List.Pairwise.sortedLE (by simpa using hab.le)
  exact sublist_of_subperm_of_sortedLE hsub hpair sortedLE_mergeSort

/-- The order is a permutation of the files, and a file that refers to an earlier one
stands behind it. -/
theorem planCdcOrder_spec (hashes : List (List UInt64)) (referenceOf : List Nat)
    (affinityPermille : Nat) :
    (planCdcOrder hashes referenceOf affinityPermille).order.Perm (List.range hashes.length) ∧
      ∀ i m, i < hashes.length → referenceOf[i]? = some m → m < i →
        (planCdcOrder hashes referenceOf affinityPermille).order.idxOf m <
          (planCdcOrder hashes referenceOf affinityPermille).order.idxOf i := by
  set n := hashes.length
  obtain ⟨hfiled, -⟩ :=
    grouping_filed hashes (chunkIndex hashes) affinityPermille n n (Nat.le_refl n)
  unfold planCdcOrder
  dsimp only
  set s := (List.range hashes.length).foldl _ _
  by_cases hempty : referenceOf = []
  · subst hempty
    rw [if_pos rfl, emitOrder_eq (by simpa using hfiled.perm_range.length_eq)]
    exact ⟨hfiled.perm_range, fun i m _ hm => by simp at hm⟩
  · obtain ⟨hmoved, hfixed⟩ := @fixing_fixed referenceOf n _ hfiled n (Nat.le_refl n)
    rw [if_neg hempty]
    set s' := (List.range hashes.length).foldl (fixReference referenceOf hashes.length) s
    have hperm : (s'.groups.map (·.mergeSort)).flatten.Perm (List.range n) :=
      (flatten_map_perm _ (fun l => mergeSort_perm l _) _).trans hmoved.perm_range
    rw [emitOrder_eq (by simpa using hperm.length_eq)]
    refine ⟨hperm, fun i m hi hm hmi => ?_⟩
    -- both are members of one group, and the group is sorted
    have hsame : s'.group i = s'.group m := hfixed i m hi hm hmi (by omega)
    have hgm := hmoved.group_lt (j := m) (by omega)
    have hmemi : i ∈ s'.members (s'.group m) := hsame ▸ hmoved.mem hi
    have hmemm : m ∈ s'.members (s'.group m) := hmoved.mem (by omega)
    refine idxOf_lt_of_sublist (hperm.nodup_iff.mpr nodup_range)
      ((pair_sublist_mergeSort hmemm hmemi hmi).trans (sublist_flatten_of_mem ?_))
    rw [Grouping.members, getD_eq_getElem _ _ hgm]
    exact mem_map_of_mem (getElem_mem hgm)

/-- Three files, the last of which refers to the first. -/
theorem planCdcOrder_spec_three :
    ([9, 9, 0] : List Nat)[2]? = some 0 ∧
      (planCdcOrder [[], [], []] [9, 9, 0] 300).order.idxOf 0 <
        (planCdcOrder [[], [], []] [9, 9, 0] 300).order.idxOf 2 :=
  ⟨rfl, (planCdcOrder_spec [[], [], []] [9, 9, 0] 300).2 2 0 (by decide) rfl (by decide)⟩

end OpenRar.Compress
