import OpenRar.Recovery.RevVolumes

/-!
# What a failed volume repair leaves behind

`repair_rev_volumes` rolls back after a failure.  The rollback removes the outputs and
gives the corrupt volumes their names back, so it restores the directory as long as no
output was opened over a volume.  The name of a missing volume is made from the name of
another one, and nothing keeps it from being the name of a volume that is there: in the
legacy scheme the first volume is given the extension of the volume it is named after
(`repairRevVolumes_firstMissing`).

Which names are opened is known before a file is touched (`RepairPlan.opened`): those of the
slots in order, up to the first that cannot be created, provided that every corrupt volume can
be moved aside.  The condition under which the volumes survive is stated on these names.
-/

namespace OpenRar.Recovery

open OpenRar.Core List
open OpenRar.Crypto
open OpenRar.DirectoryStore
open OpenRar.DirectoryStore.Store

/-! ## The names in a plan -/

/-- Each volume that was found is in the slot of its name, and no volume has a name of the
form that kept volumes have. -/
def Slotted (arcName : FileName) (nd : Nat) (dir : Directory) (vols : List DataVol) : Prop :=
  ∀ (i : Nat) (vol : DataVol), vols[i]? = some vol →
    (vol.present ∨ vol.corrupt → volumeSlot arcName nd dir vol.path = some i) ∧
      vol.path.getLast? ≠ some 'd'

section Scan

variable {arcName : FileName} {nd : Nat} {dir : Directory}

section

variable {name : FileName} {slot : Nat} (h : volumeSlot arcName nd dir name = some slot)
include h

theorem isVolumeExtension_of_volumeSlot : isVolumeExtension (extensionOf name) = true := by
  unfold volumeSlot at h
  split at h
  · split at h
    · assumption
    · cases h
  · cases h

theorem isVolumeName_of_volumeSlot : isVolumeName name = true := by
  simp [isVolumeName, isVolumeExtension_of_volumeSlot h]

end

theorem slotted_empty : Slotted arcName nd dir (List.replicate nd {}) := by
  intro i vol h
  rw [List.getElem?_replicate] at h
  split at h
  · cases h
    simp
  · cases h

/-- The scan keeps the volumes in their slots and remembers a volume's name. -/
structure ScanInvariant (arcName : FileName) (nd : Nat) (dir : Directory) (scan : VolumeScan) :
    Prop where
  slotted : Slotted arcName nd dir scan.vols
  sample : ∀ name, scan.sample = some name → name.getLast? ≠ some 'd'

variable {scan : VolumeScan}

section

variable (h : ScanInvariant arcName nd dir scan)
include h

theorem ScanInvariant.step (name : FileName) :
    ScanInvariant arcName nd dir (scanVolume arcName nd dir scan name) := by
  unfold scanVolume
  split
  · exact h
  · next slot hslot =>
    have hplain := getLast?_of_isVolumeName (isVolumeName_of_volumeSlot hslot)
    refine ⟨fun i vol hvol => ?_, fun sample hsample => ?_⟩
    · rw [List.getElem?_set] at hvol
      split at hvol
      · next heq =>
        subst heq
        split at hvol
        · cases hvol
          exact ⟨fun _ => hslot, hplain⟩
        · cases hvol
      · exact h.slotted i vol hvol
    · cases hold : scan.sample with
      | none =>
        rw [hold] at hsample
        cases hsample
        exact hplain
      | some old =>
        rw [hold] at hsample
        cases hsample
        exact h.sample _ hold

theorem ScanInvariant.run (names : List FileName) :
    ScanInvariant arcName nd dir (names.foldl (scanVolume arcName nd dir) scan) :=
  List.foldlRecOn names _ h fun _ hscan name _ => hscan.step name

theorem ScanInvariant.nameMissing (hfound : ∀ vol ∈ scan.vols, vol.corrupt = false) :
    Slotted arcName nd dir (nameMissing scan) := by
  unfold Recovery.nameMissing
  split
  · exact h.slotted
  · next sample hsample =>
    intro i vol hvol
    rw [List.getElem?_mapIdx, Option.map_eq_some_iff] at hvol
    obtain ⟨old, hold, rfl⟩ := hvol
    obtain ⟨hslot, hplain⟩ := h.slotted i old hold
    split
    · exact ⟨hslot, hplain⟩
    · next habsent =>
      refine ⟨fun hpresent => ?_, getLast?_nameForSlot (h.sample sample hsample) i⟩
      have hcorrupt := hfound old (mem_of_getElem? hold)
      simp [hcorrupt, habsent] at hpresent

end

theorem scanVolume_corrupt (h : ∀ vol ∈ scan.vols, vol.corrupt = false) (name : FileName) :
    ∀ vol ∈ (scanVolume arcName nd dir scan name).vols, vol.corrupt = false := by
  unfold scanVolume
  split
  · exact h
  · intro vol hvol
    rcases mem_or_eq_of_mem_set hvol with hvol | rfl
    · exact h vol hvol
    · rfl

theorem scanVolumes_corrupt (h : ∀ vol ∈ scan.vols, vol.corrupt = false) (names : List FileName) :
    ∀ vol ∈ (names.foldl (scanVolume arcName nd dir) scan).vols, vol.corrupt = false := by
  induction names generalizing scan with
  | nil => exact h
  | cons name names ih => exact ih (scanVolume_corrupt h name)

theorem slotted_validate {vols : List DataVol} (h : Slotted arcName nd dir vols) (env : RepairEnv)
    (tableCrc : List Nat) :
    Slotted arcName nd dir (vols.mapIdx (validateVolume env dir tableCrc)) := by
  intro i vol hvol
  rw [List.getElem?_mapIdx, Option.map_eq_some_iff] at hvol
  obtain ⟨old, hold, rfl⟩ := hvol
  obtain ⟨hslot, hplain⟩ := h i old hold
  unfold validateVolume
  split
  · next hpresent =>
    have hslot := hslot (.inl hpresent)
    split
    · exact ⟨fun _ => hslot, hplain⟩
    · split
      · exact ⟨fun _ => hslot, hplain⟩
      · exact ⟨fun _ => hslot, hplain⟩
  · exact ⟨hslot, hplain⟩

theorem slotted_collectVolumes (env : RepairEnv) (scan : RevScan) :
    Slotted arcName scan.nd dir (collectVolumes env arcName dir scan) := by
  have hempty : ∀ vol ∈ List.replicate scan.nd ({} : DataVol), vol.corrupt = false := by
    intro vol hvol
    rw [eq_of_mem_replicate hvol]
  refine slotted_validate (ScanInvariant.nameMissing ?_ ?_) env scan.tableCrc
  · exact ScanInvariant.run ⟨slotted_empty, by simp⟩ env.listing
  · exact scanVolumes_corrupt hempty env.listing

/-- Volumes of different slots have different names. -/
theorem Slotted.corrupt_nodup {vols : List DataVol} (h : Slotted arcName nd dir vols) :
    ((vols.filter DataVol.corrupt).map DataVol.path).Nodup := by
  have hpairs : vols.Pairwise fun a b => a.corrupt → b.corrupt → a.path ≠ b.path := by
    rw [pairwise_iff_getElem]
    intro i j hi hj hij ha hb hpath
    have hsloti := (h i _ (List.getElem?_eq_getElem hi)).1 (.inr ha)
    have hslotj := (h j _ (List.getElem?_eq_getElem hj)).1 (.inr hb)
    rw [hpath, hslotj] at hsloti
    cases hsloti
    exact absurd hij (lt_irrefl _)
  rw [List.Nodup, pairwise_map]
  refine (hpairs.filter _).imp_of_mem ?_
  intro a b ha hb hne
  exact hne (mem_filter.mp ha).2 (mem_filter.mp hb).2

end Scan

/-- What a plan guarantees about the names in it. -/
structure PlannedNames (plan : RepairPlan) : Prop where
  corrupt_nodup : plan.corrupt.Nodup
  corrupt_volume : ∀ name ∈ plan.corrupt, isVolumeName name = true
  erased_plain : ∀ slot ∈ plan.erased, slot.2.getLast? ≠ some 'd'

variable {plan : RepairPlan} {before : Directory} {moved created : List FileName}

theorem PlannedNames.of_slotted {arcName : FileName} {nd : Nat} {dir : Directory}
    (h : Slotted arcName nd dir plan.vols) : PlannedNames plan where
  corrupt_nodup := h.corrupt_nodup
  corrupt_volume name hname := by
    simp only [RepairPlan.corrupt, mem_map, mem_filter] at hname
    obtain ⟨vol, ⟨hvol, hcorrupt⟩, rfl⟩ := hname
    obtain ⟨i, hi⟩ := mem_iff_getElem?.mp hvol
    exact isVolumeName_of_volumeSlot ((h i vol hi).1 (.inr hcorrupt))
  erased_plain slot hslot := by
    simp only [RepairPlan.erased, mem_filterMap] at hslot
    obtain ⟨⟨i, vol⟩, hvol, hslot⟩ := hslot
    obtain ⟨j, hj⟩ := mem_iff_getElem?.mp hvol
    rw [List.getElem?_mapIdx, Option.map_eq_some_iff] at hj
    obtain ⟨old, hold, heq⟩ := hj
    cases heq
    split at hslot
    · cases hslot
    · cases hslot
      exact (h i vol hold).2

theorem plannedNames {env : RepairEnv} {arcName : FileName} {dir : Directory}
    (h : planRepair env arcName dir = .ok plan) : PlannedNames plan := by
  unfold planRepair at h
  dsimp only at h
  -- Only the last of the branches gives a plan.
  split at h
  · cases h
  split at h
  · cases h
  split at h
  · cases h
  split at h
  · cases h
  split at h
  · cases h
  split at h
  · cases h
  · cases h
    exact .of_slotted (slotted_collectVolumes env _)

/-! ## The steps of a repair -/

/-- A repair in progress: the protected names are those of volumes. -/
abbrev InProgress (before dir : Directory) (moved created : List FileName) : Prop :=
  Midway badName (fun name => isVolumeName name = true) before dir moved created

theorem volume_ne_badName {name : FileName} (h : isVolumeName name = true) (m : FileName) :
    name ≠ badName m := ne_badName (getLast?_of_isVolumeName h) m

/-- What is known of the originals that were moved aside. -/
structure Aside (before : Directory) (moved : List FileName) : Prop where
  nodup : moved.Nodup
  volume : ∀ name ∈ moved, isVolumeName name = true
  existed : ∀ name ∈ moved, before.entry name ≠ none

variable (env : RepairEnv)

theorem moveAside_spec (names : List FileName) (dir : Directory)
    (moved : List FileName) (h : InProgress before dir moved [])
    (haside : Aside before moved) (hnodup : (moved ++ names).Nodup)
    (hvolume : ∀ name ∈ names, isVolumeName name = true) :
    InProgress before (moveAside env names dir moved).1 (moveAside env names dir moved).2.1 [] ∧
      Aside before (moveAside env names dir moved).2.1 := by
  induction names generalizing dir moved with
  | nil => exact ⟨h, haside⟩
  | cons name names ih =>
    have hname := hvolume name mem_cons_self
    have hnew : name ∉ moved := fun hmem =>
      (nodup_append.mp hnodup).2.2 name hmem name mem_cons_self rfl
    have hclear := h.clear badName_injective (fun n hn => volume_ne_badName hn) haside.volume hnew
    unfold moveAside
    dsimp only
    split
    · next node hnode =>
      split
      · have hbefore : before.entry name ≠ none := by
          rw [← hclear.kept name hname hnew (by simp), hnode]
          simp
        refine ih _ _ (hclear.move badName_injective (fun n hn => volume_ne_badName hn)
          haside.volume hnew hname hnode) ⟨?_, ?_, ?_⟩ (by simpa using hnodup)
          fun n hn => hvolume n (mem_cons_of_mem _ hn)
        · exact List.Nodup.append haside.nodup (nodup_singleton name) (by simpa using hnew)
        · simpa [or_imp, forall_and, hname] using haside.volume
        · simpa [or_imp, forall_and, hbefore] using haside.existed
      · exact ⟨hclear, haside⟩
    · exact ⟨hclear, haside⟩

theorem moveAside_entry (names : List FileName) (dir : Directory)
    (moved : List FileName) {n : FileName} (hn : n.getLast? ≠ some 'd') :
    (moveAside env names dir moved).2.2 = true →
      (moveAside env names dir moved).1.entry n = if n ∈ names then none else dir.entry n := by
  induction names generalizing dir moved with
  | nil => simp [moveAside]
  | cons name names ih =>
    unfold moveAside
    dsimp only
    split
    · next node hnode =>
      split
      · intro hok
        rw [ih _ _ hok]
        by_cases heq : n = name
        · subst heq
          simp [entry_rename_old _ _ _ hnode (ne_badName hn n)]
        · simp [heq, entry_rename_of_ne _ _ _ heq (ne_badName hn name), ne_badName hn name]
      · simp
    · simp

/-- The corrupt volumes are all moved aside, or the move fails at one that cannot be. -/
theorem moveAside_ok (names : List FileName) (dir : Directory) (moved : List FileName)
    (hnodup : names.Nodup) (hvolume : ∀ name ∈ names, isVolumeName name = true) :
    (moveAside env names dir moved).2.2 =
        names.all (fun name => (dir.entry name).isSome && env.canMove name) ∧
      ((moveAside env names dir moved).2.2 = true →
        (moveAside env names dir moved).2.1 = moved ++ names) := by
  induction names generalizing dir moved with
  | nil => simp [moveAside]
  | cons name names ih =>
    obtain ⟨hnew, hnodup⟩ := nodup_cons.mp hnodup
    have hrest : ∀ n ∈ names, isVolumeName n = true := fun n hn => hvolume n (mem_cons_of_mem _ hn)
    have hname := volume_ne_badName (hvolume name mem_cons_self)
    unfold moveAside
    simp only [entry_remove, if_neg (hname name)]
    split
    · next node hnode =>
      split
      · next hmove =>
        -- the names that are left are neither of the two that a move changes
        have hkept : ∀ n ∈ names, (((dir.remove (badName name)).rename name (badName name)).entry
            n).isSome = (dir.entry n).isSome := by
          intro n hn
          have hbad := volume_ne_badName (hrest n hn) name
          rw [entry_rename_of_ne _ _ _ (fun h : n = name => hnew (h ▸ hn)) hbad, entry_remove,
            if_neg hbad]
        obtain ⟨hok, hmoved⟩ := ih _ (moved ++ [name]) hnodup hrest
        refine ⟨?_, fun h => by simpa using hmoved h⟩
        rw [hok, all_cons, hnode, hmove]
        rw [Option.isSome_some, Bool.true_and, Bool.true_and, Bool.eq_iff_iff, all_eq_true,
          all_eq_true]
        exact forall₂_congr fun n hn => by rw [hkept n hn]
      · next hmove => simp [hmove]
    · next hnone => simp [hnone]

section

variable (slots : List (Nat × FileName)) (dir : Directory) (outs : List Output)

/-- The outputs are opened in order, up to the first name that cannot be. -/
theorem createOutputs_opened {opens : FileName → Bool}
    (hopens : ∀ slot ∈ slots, opens slot.2 = true ↔
      ¬ (slot.2 = [] ∨ dir.entry slot.2 = some .other ∨ ¬ env.canCreate slot.2)) :
    (createOutputs env slots dir outs).2.1.map Output.name =
      outs.map Output.name ++ (slots.map Prod.snd).takeWhile opens := by
  induction slots generalizing dir outs with
  | nil => simp [createOutputs]
  | cons slot slots ih =>
    obtain ⟨slot, name⟩ := slot
    have hname := hopens (slot, name) mem_cons_self
    unfold createOutputs
    split
    · next hfail =>
      rw [map_cons, takeWhile_cons_of_neg fun h => hname.mp h hfail, append_nil]
    · next hfail =>
      -- opening a name makes it a file and leaves the entries of the others
      have hother : ∀ n, (dir.create name).1.entry n = some .other ↔ dir.entry n = some .other := by
        intro n
        by_cases hn : n = name
        · subst hn
          rw [entry_create_self]
          simpa using (not_or.mp (not_or.mp hfail).2).1
        · rw [entry_create_of_ne _ _ hn]
      rw [map_cons, takeWhile_cons_of_pos (hname.mpr hfail), ih, map_append, append_assoc]
      · rfl
      · intro slot hslot
        rw [hother]
        exact hopens slot (mem_cons_of_mem _ hslot)

/-- The outputs so far are the first ones of those that are returned. -/
theorem createOutputs_names : outs <+: (createOutputs env slots dir outs).2.1 := by
  induction slots generalizing dir outs with
  | nil => exact prefix_rfl
  | cons slot slots ih =>
    unfold createOutputs
    split
    · exact prefix_rfl
    · exact (prefix_append _ _).trans (ih _ _)

theorem createOutputs_plain (hslots : ∀ slot ∈ slots, slot.2.getLast? ≠ some 'd')
    (houts : ∀ out ∈ outs, out.name.getLast? ≠ some 'd') :
    ∀ out ∈ (createOutputs env slots dir outs).2.1, out.name.getLast? ≠ some 'd' := by
  induction slots generalizing dir outs with
  | nil => exact houts
  | cons slot slots ih =>
    obtain ⟨slot, name⟩ := slot
    unfold createOutputs
    split
    · exact houts
    · refine ih _ _ (fun s hs => hslots s (mem_cons_of_mem _ hs)) fun out hout => ?_
      rcases mem_append.mp hout with hout | hout
      · exact houts out hout
      · obtain rfl := mem_singleton.mp hout
        exact hslots (slot, name) mem_cons_self

/-- No output takes the place of a volume that has not been moved aside. -/
def NoClobber (before : Directory) (moved created : List FileName) : Prop :=
  ∀ name ∈ created, isVolumeName name = true → before.bytesAt name ≠ none → name ∈ moved

/-- Every output writes to a file that was no volume's. -/
def SafeOutputs (before : Directory) (outs : List Output) : Prop :=
  ∀ out ∈ outs, Unprotected (fun name => isVolumeName name = true) before out.stream.id

theorem createOutputs_spec
    (h : InProgress before dir moved (outs.map Output.name)) (hsafe : SafeOutputs before outs)
    (hslots : ∀ slot ∈ slots, slot.2.getLast? ≠ some 'd')
    (hclobber : NoClobber before moved ((createOutputs env slots dir outs).2.1.map Output.name)) :
    InProgress before (createOutputs env slots dir outs).1 moved
        ((createOutputs env slots dir outs).2.1.map Output.name) ∧
      SafeOutputs before (createOutputs env slots dir outs).2.1 := by
  induction slots generalizing dir outs with
  | nil => exact ⟨h, hsafe⟩
  | cons slot slots ih =>
    obtain ⟨slot, name⟩ := slot
    have hplain := hslots (slot, name) mem_cons_self
    unfold createOutputs at hclobber ⊢
    by_cases hfail : name = [] ∨ dir.entry name = some .other ∨ ¬ env.canCreate name
    · rw [if_pos hfail]
      exact ⟨h, hsafe⟩
    · rw [if_neg hfail] at hclobber ⊢
      rw [not_or, not_or] at hfail
      dsimp only at hclobber ⊢
      have hcreated : name ∈ (createOutputs env slots (dir.create name).1
          (outs ++ [⟨slot, name, ⟨(dir.create name).2, 0⟩⟩])).2.1.map Output.name := by
        refine mem_map.mpr ⟨⟨slot, name, ⟨(dir.create name).2, 0⟩⟩, ?_, rfl⟩
        exact (createOutputs_names env slots _ _).subset (by simp)
      have hvacant : isVolumeName name = true → name ∉ moved → before.entry name = none :=
        fun hvolume => h.entry_of_opened hvolume hfail.2.1 (hclobber name hcreated hvolume)
      refine ih _ _ ?_ ?_ (fun s hs => hslots s (mem_cons_of_mem _ hs)) hclobber
      · simpa using h.create (ne_badName hplain) hvacant
      · intro out hout
        rcases mem_append.mp hout with hout | hout
        · exact hsafe out hout
        · obtain rfl := mem_singleton.mp hout
          exact h.create_unprotected (ne_badName hplain) hvacant

end

theorem writeRound_spec (tableSize : List Nat) (processed chunk : Nat)
    (recon : Nat → List UInt8) (e : Nat)
    (outs : List Output) (dir : Directory) (h : InProgress before dir moved created)
    (hsafe : SafeOutputs before outs) :
    InProgress before (writeRound env tableSize processed chunk recon e outs dir).1 moved created ∧
      SafeOutputs before (writeRound env tableSize processed chunk recon e outs dir).2.1 := by
  induction outs generalizing e dir with
  | nil => exact ⟨h, hsafe⟩
  | cons out outs ih =>
    have hout := hsafe out mem_cons_self
    have htail : SafeOutputs before outs := fun o ho => hsafe o (mem_cons_of_mem _ ho)
    have hwritten := h.write hout out.stream.off
      ((recon e).take
        (min (min chunk (tableSize.getD out.slot 0 - processed))
          (env.writeLimit out.slot processed)))
    unfold writeRound
    dsimp only
    split
    · refine ⟨hwritten, fun o ho => ?_⟩
      rcases mem_cons.mp ho with rfl | ho
      · exact hout
      · exact htail o ho
    · obtain ⟨hrest, hrestSafe⟩ := ih (e + 1) _ hwritten htail
      refine ⟨hrest, fun o ho => ?_⟩
      rcases mem_cons.mp ho with rfl | ho
      · exact hout
      · exact hrestSafe o ho

theorem decodeRounds_spec (rs : ReedSolomon16) (tableSize : List Nat) (shard rounds processed : Nat)
    (sources : List Stream) (outs : List Output) (dir : Directory)
    (h : InProgress before dir moved created) (hsafe : SafeOutputs before outs) :
    InProgress before
      (decodeRounds env rs tableSize shard rounds processed sources outs dir).1 moved created := by
  induction rounds generalizing processed sources outs dir with
  | zero => exact h
  | succ rounds ih =>
    unfold decodeRounds
    split
    · exact h
    · dsimp only
      generalize hround : writeRound env tableSize processed _ _ 0 outs dir = round
      obtain ⟨hnext, hnextSafe⟩ :=
        hround ▸ writeRound_spec env tableSize processed _ _ 0 outs dir h hsafe
      split
      · exact ih _ _ _ _ hnext hnextSafe
      · exact hnext

/-! ## The frame -/

/-- Every data volume and every recovery volume is still there with its bytes. -/
def VolumesKept (before after : Directory) : Prop :=
  ∀ name bytes, isVolumeName name = true → before.bytesAt name = some bytes →
    after.bytesAt name = some bytes

theorem volumesKept_of_rollback {dir : Directory} (h : InProgress before dir moved created)
    (haside : Aside before moved)
    (hplain : ∀ name ∈ created, name.getLast? ≠ some 'd') :
    VolumesKept before (dir.rollback badName moved created) := by
  intro name bytes hname hbytes
  rw [rollback, h.bytesAt_restored restoring_rename badName_injective
    (fun n hn => volume_ne_badName hn) haside.volume haside.nodup haside.existed
    (fun c hc => ne_badName (hplain c hc)) hname, hbytes]

theorem noClobber_of_volumesKept {dir : Directory}
    (h : VolumesKept before (dir.rollback badName moved created)) :
    NoClobber before moved created := by
  intro name hcreated hname hbytes
  by_contra hmoved
  obtain ⟨bytes, hbytes⟩ := Option.ne_none_iff_exists'.mp hbytes
  have hafter := h name bytes hname hbytes
  rw [rollback, restoring_rename.bytesAt_created dir (volume_ne_badName hname) hmoved hcreated]
    at hafter
  cases hafter

theorem volumesKept_rollback_iff {dir : Directory}
    (h : NoClobber before moved created → InProgress before dir moved created)
    (haside : Aside before moved) (hplain : ∀ name ∈ created, name.getLast? ≠ some 'd') :
    VolumesKept before (dir.rollback badName moved created) ↔ NoClobber before moved created :=
  ⟨noClobber_of_volumesKept, fun hclobber => volumesKept_of_rollback (h hclobber) haside hplain⟩

theorem finishRepair_failed_iff (plan : RepairPlan) {dir : Directory} {outs : List Output}
    (h : NoClobber before moved (outs.map Output.name) →
      InProgress before dir moved (outs.map Output.name) ∧ SafeOutputs before outs)
    (haside : Aside before moved)
    (hplain : ∀ name ∈ outs.map Output.name, name.getLast? ≠ some 'd')
    (hfail : (finishRepair env plan moved outs dir).ok = false) :
    VolumesKept before (finishRepair env plan moved outs dir).dir ↔
      NoClobber before moved (outs.map Output.name) := by
  have hdecode := fun hclobber => decodeRounds_spec env plan.rs plan.tableSize plan.shard
    (plan.shard / chunkSize + 1) 0 plan.sources outs dir (h hclobber).1 (h hclobber).2
  unfold finishRepair at hfail ⊢
  dsimp only at hfail ⊢
  split at hfail
  · next hbroken =>
    rw [if_pos hbroken]
    exact volumesKept_rollback_iff hdecode haside hplain
  · next hbroken =>
    rw [if_neg hbroken]
    split at hfail
    · next hverify =>
      rw [if_pos hverify]
      exact volumesKept_rollback_iff hdecode haside hplain
    · cases hfail

/-- A name can be opened as an output once the corrupt volumes are out of the way. -/
def RepairPlan.openable (plan : RepairPlan) (dir : Directory) (name : FileName) : Bool :=
  !name.isEmpty && (dir.entry name ≠ some .other || plan.corrupt.contains name) &&
    env.canCreate name

/-- The names that are opened as outputs. -/
def RepairPlan.opened (plan : RepairPlan) (dir : Directory) : List FileName :=
  if plan.corrupt.all fun name => (dir.entry name).isSome && env.canMove name then
    (plan.erased.map Prod.snd).takeWhile (plan.openable env dir)
  else []

theorem executeRepair_failed_iff (hplan : PlannedNames plan) (dir : Directory)
    (hfail : (executeRepair env plan dir).ok = false) :
    VolumesKept dir (executeRepair env plan dir).dir ↔
      NoClobber dir plan.corrupt (plan.opened env dir) := by
  obtain ⟨hmove, haside⟩ := moveAside_spec env plan.corrupt dir [] (.refl dir)
    ⟨nodup_nil, by simp, by simp⟩ (by simpa using hplan.corrupt_nodup) hplan.corrupt_volume
  obtain ⟨hok, hmoved⟩ :=
    moveAside_ok env plan.corrupt dir [] hplan.corrupt_nodup hplan.corrupt_volume
  have hentry := fun n => @moveAside_entry env plan.corrupt dir [] n
  unfold executeRepair at hfail ⊢
  unfold RepairPlan.opened
  rw [← hok]
  generalize moveAside env plan.corrupt dir [] = aside at *
  obtain ⟨dir₁, moved, ok₁⟩ := aside
  cases ok₁ with
  | false =>
    refine (volumesKept_rollback_iff (fun _ => hmove) haside (by simp)).trans ?_
    simp [NoClobber]
  | true =>
    obtain rfl : moved = plan.corrupt := hmoved rfl
    have hcreate := createOutputs_spec env plan.erased dir₁ [] hmove (by simp [SafeOutputs])
      hplan.erased_plain
    have hplain := createOutputs_plain env plan.erased dir₁ [] hplan.erased_plain (by simp)
    have hopened : (createOutputs env plan.erased dir₁ []).2.1.map Output.name =
        (plan.erased.map Prod.snd).takeWhile (plan.openable env dir) := by
      refine createOutputs_opened env _ _ [] fun slot hslot => ?_
      rw [hentry _ (hplan.erased_plain slot hslot) rfl, RepairPlan.openable]
      by_cases hcorrupt : slot.2 ∈ plan.corrupt <;> simp [hcorrupt, and_assoc]
    simp only [if_true] at hfail ⊢
    rw [← hopened]
    generalize createOutputs env plan.erased dir₁ [] = outputs at *
    obtain ⟨dir₂, outs, ok₂⟩ := outputs
    replace hplain : ∀ name ∈ outs.map Output.name, name.getLast? ≠ some 'd' := by
      simpa using hplain
    cases ok₂ with
    | false =>
      exact volumesKept_rollback_iff (fun hclobber => (hcreate hclobber).1) haside hplain
    | true => exact finishRepair_failed_iff env plan hcreate haside hplain hfail

/-- **A failed repair keeps every volume exactly if the plan opens no output under the name of
a volume that is there and is not one of the corrupt ones.** -/
theorem repairRevVolumes_failed_iff (env : RepairEnv) (arcName : FileName) (dir : Directory)
    (hfail : (repairRevVolumes env arcName dir).ok = false) :
    VolumesKept dir (repairRevVolumes env arcName dir).dir ↔
      ∀ plan, planRepair env arcName dir = .ok plan →
        NoClobber dir plan.corrupt (plan.opened env dir) := by
  unfold repairRevVolumes at hfail ⊢
  cases hplan : planRepair env arcName dir with
  | error ok =>
    refine ⟨fun _ plan h => ?_, fun _ _ _ _ hbytes => hbytes⟩
    cases h
  | ok plan =>
    rw [hplan] at hfail
    refine (executeRepair_failed_iff env (plannedNames hplan) dir hfail).trans ?_
    exact ⟨fun h _ heq => Except.ok.inj heq ▸ h, fun h => h plan rfl⟩

/-! ## Two small sets -/

/-- A recovery volume of a set with one parity volume. -/
def revFile (volumes : List (List UInt8)) (payload : List UInt8) : List UInt8 :=
  let nd := volumes.length
  let body :=
    [0x01] ++ writeLe 2 nd ++ writeLe 2 1 ++ writeLe 2 nd ++ writeLe 4 (crc32 payload) ++
      volumes.flatMap fun volume => writeLe 8 volume.length ++ writeLe 4 (crc32 volume)
  let sized := writeLe 4 body.length ++ body
  revSign ++ writeLe 4 (crc32 sized) ++ sized ++ payload

def firstVolume : FileName := "a.rar".toList

def secondVolume : FileName := "a.r00".toList

def recoveryVolume : FileName := "a.r00.rev".toList

/-- The words `2` and `3`, whose parity in the first parity slot is zero. -/
def smallSet : List (List UInt8) := [[0x02, 0x00], [0x03, 0x00]]

/-- No call fails; a write gets `limit` bytes through. -/
def smallEnv (limit : Nat) : RepairEnv where
  listing := [firstVolume, secondVolume, recoveryVolume]
  canRead _ _ := true
  canMove _ := true
  canCreate _ := true
  writeLimit _ _ := limit
  kernel := .scalar

/-- The second volume is corrupt. -/
def corruptDirectory : Directory :=
  .ofFiles
    [(firstVolume, [0x02, 0x00]), (secondVolume, [0x07]),
      (recoveryVolume, revFile smallSet [0x00, 0x00])]

/-- The first volume is missing. -/
def firstMissingDirectory : Directory :=
  .ofFiles [(secondVolume, [0x03, 0x00]), (recoveryVolume, revFile smallSet [0x00, 0x00])]

/-- On a full disk the corrupt volume is moved aside and comes back. -/
theorem repairRevVolumes_diskFull :
    (planRepair (smallEnv 0) firstVolume corruptDirectory).toOption.map RepairPlan.corrupt =
        some [secondVolume] ∧
      (VolumesKept corruptDirectory
          (repairRevVolumes (smallEnv 0) firstVolume corruptDirectory).dir ↔
        ∀ plan, planRepair (smallEnv 0) firstVolume corruptDirectory = .ok plan →
          NoClobber corruptDirectory plan.corrupt (plan.opened (smallEnv 0) corruptDirectory)) :=
  ⟨by decide +kernel,
    repairRevVolumes_failed_iff (smallEnv 0) firstVolume corruptDirectory (by decide +kernel)⟩

/-- The parts of a plan without the decoder. -/
def planParts (plan : RepairPlan) : List DataVol × List Stream × List Nat × List Nat :=
  (plan.vols, plan.sources, plan.tableSize, plan.tableCrc)

theorem foldUnits_zero (rs : ReedSolomon16) (e : Nat) :
    rs.foldUnits .scalar e 0 [[0, 0], [0, 0]] [0, 0] = [0, 0] := by
  have hfold : ∀ i, rs.updateEcc .scalar i e [0, 0] [0, 0] = [0, 0] := by
    intro i
    change rs.updateEccScalar i e [0, 0] [0, 0] = [0, 0]
    unfold ReedSolomon16.updateEccScalar
    simp [foldWords, gfMul]
  simp [ReedSolomon16.foldUnits, hfold]

/-- The plan for the directory without the first volume: the output of slot `0` has the
name of the volume in slot `1`. -/
def firstMissingPlan (rs : ReedSolomon16) : RepairPlan where
  vols := [{ path := secondVolume }, { path := secondVolume, present := true, valid := true }]
  rs := rs
  tableSize := [2, 2]
  tableCrc := smallSet.map crc32
  sources := [⟨1, 51⟩, ⟨0, 0⟩]

theorem planRepair_firstMissing :
    ∃ rs, planRepair (smallEnv chunkSize) firstVolume firstMissingDirectory =
      .ok (firstMissingPlan rs) := by
  have hparts : (planRepair (smallEnv chunkSize) firstVolume firstMissingDirectory).toOption.map
      planParts = some (planParts (firstMissingPlan ⟨0, 0, 0, [], fun _ _ => 0⟩)) := by
    decide +kernel
  cases hplan : planRepair (smallEnv chunkSize) firstVolume firstMissingDirectory with
  | error ok => simp [hplan, Except.toOption] at hparts
  | ok plan =>
    rw [hplan] at hparts
    simp only [Except.toOption, Option.map_some, planParts]
      at hparts
    cases plan
    simp_all [firstMissingPlan]

/-- A decoder without coefficients. -/
def zeroCoder : ReedSolomon16 := ⟨0, 0, 0, [], fun _ _ => 0⟩

/-- The directory and the output after slot `0` was opened: the source of slot `1` is
empty. -/
def firstMissingOpened : Directory × List Output × Bool :=
  createOutputs (smallEnv chunkSize) (firstMissingPlan zeroCoder).erased firstMissingDirectory []

theorem decodeRounds_firstMissing (rs : ReedSolomon16) :
    decodeRounds (smallEnv chunkSize) rs [2, 2] 2 1 0 [⟨1, 51⟩, ⟨0, 0⟩] firstMissingOpened.2.1
        firstMissingOpened.1 =
      decodeRounds (smallEnv chunkSize) zeroCoder [2, 2] 2 1 0 [⟨1, 51⟩, ⟨0, 0⟩]
        firstMissingOpened.2.1 firstMissingOpened.1 := by
  have hunits : [(⟨1, 51⟩ : Stream), ⟨0, 0⟩].map (readRound firstMissingOpened.1 2) =
      [[0, 0], [0, 0]] := by
    decide +kernel
  have hchunk : min chunkSize (2 - 0) = 2 := by decide
  have hzero : List.replicate 2 (0 : UInt8) = [0, 0] := rfl
  have hkernel : (smallEnv chunkSize).kernel = .scalar := rfl
  simp [decodeRounds, hchunk, hunits, hkernel, foldUnits_zero]

theorem executeRepair_eq {env : RepairEnv} {dir dir₁ dir₂ : Directory} {outs : List Output}
    (hmove : moveAside env plan.corrupt dir [] = (dir₁, moved, true))
    (hcreate : createOutputs env plan.erased dir₁ [] = (dir₂, outs, true)) :
    executeRepair env plan dir = finishRepair env plan moved outs dir₂ := by
  simp [executeRepair, hmove, hcreate]

/-- The decoder does not matter for the outcome. -/
theorem executeRepair_firstMissing (rs : ReedSolomon16) :
    executeRepair (smallEnv chunkSize) (firstMissingPlan rs) firstMissingDirectory =
      finishRepair (smallEnv chunkSize) (firstMissingPlan zeroCoder) []
        firstMissingOpened.2.1 firstMissingOpened.1 := by
  have hopened : firstMissingOpened = (firstMissingOpened.1, firstMissingOpened.2.1, true) := by
    have hok : firstMissingOpened.2.2 = true := by decide +kernel
    rw [← hok]
  rw [@executeRepair_eq (firstMissingPlan rs) [] (smallEnv chunkSize) firstMissingDirectory
    firstMissingDirectory firstMissingOpened.1 firstMissingOpened.2.1 rfl hopened]
  unfold finishRepair
  have hshard : ∀ rs, (firstMissingPlan rs).shard = 2 := by
    simp [RepairPlan.shard, firstMissingPlan]
  have hrounds : 2 / chunkSize + 1 = 1 := by decide
  simp only [hshard, hrounds]
  simp only [firstMissingPlan, decodeRounds_firstMissing rs]
  rfl

/-- **The first volume of a legacy set is missing and everything else is intact.**  Its
output is opened over the second volume, the checksum of what is decoded is wrong, and the
rollback removes the second volume. -/
theorem repairRevVolumes_firstMissing :
    (repairRevVolumes (smallEnv chunkSize) firstVolume firstMissingDirectory).ok = false ∧
      ¬ VolumesKept firstMissingDirectory
        (repairRevVolumes (smallEnv chunkSize) firstVolume firstMissingDirectory).dir := by
  obtain ⟨rs, hplan⟩ := planRepair_firstMissing
  have hrepair : repairRevVolumes (smallEnv chunkSize) firstVolume firstMissingDirectory =
      finishRepair (smallEnv chunkSize) (firstMissingPlan zeroCoder) []
        firstMissingOpened.2.1 firstMissingOpened.1 := by
    rw [repairRevVolumes, hplan, ← executeRepair_firstMissing rs]
  rw [hrepair]
  refine ⟨by decide +kernel, fun hkept => ?_⟩
  have hsecond := hkept secondVolume [0x03, 0x00] (by decide +kernel) (by decide +kernel)
  revert hsecond
  decide +kernel

end OpenRar.Recovery
