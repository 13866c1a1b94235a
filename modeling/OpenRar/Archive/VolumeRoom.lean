import OpenRar.Archive.VolumeWriter

/-!
# Room in a volume

Whether the writer of a volume set ends, and how long its volumes get.

The writer sets 80 bytes aside for a header and 7 for the end of a volume, and starts a new
volume if less is left.  In a new volume the test is made again.  If the main header, or what
the first volume carries in front of it, leaves no room, the new volume is closed as it is and
the next one has no more room.  `writeVolumes_ends_iff` says that this is the only way in which
the writer can fail: it ends, and every volume it starts gets an entry or a part of one, exactly
if there is room in each volume that is new when its turn comes.

A header that takes more than the 87 bytes makes a volume too long, unless the slice leaves that
much more.  `volumeBytes_length_iff` states the bound for every block that is written.

Both conditions are about the states that the writer comes through, `call.after n`.
-/

namespace OpenRar.Archive

open OpenRar.Core OpenRar.Crypto OpenRar.Format HeaderWriter List

variable {call : VolumeCall} {st place : WriterState} {p : Payload} {s : Slice} {m n : Nat}

/-! ## Positions -/

theorem contents_concat_length (call : VolumeCall) (index : Nat) (blocks : List Slice) (s : Slice) :
    (call.contents index (blocks ++ [s])).length = (call.contents index blocks).length +
      emitLength call.encrypts s.body + s.data.length := by
  unfold VolumeCall.contents
  rw [foldl_append, foldl_cons, foldl_nil, length_append, length_append, emitBlock_length,
    ← Nat.add_assoc]
  rfl

/-- Blocks only add to a volume. -/
theorem contents_length_le {blocks blocks' : List Slice} (call : VolumeCall) (index : Nat)
    (h : blocks <+: blocks') :
    (call.contents index blocks).length ≤ (call.contents index blocks').length := by
  obtain ⟨more, rfl⟩ := h
  induction more using List.reverseRecOn with
  | nil => rw [append_nil]
  | append_singleton more s ih =>
    rw [← append_assoc, contents_concat_length]
    omega

theorem tell_push (call : VolumeCall) (st : WriterState) (s : Slice) :
    (st.push s).tell call = st.tell call + emitLength call.encrypts s.body + s.data.length :=
  contents_concat_length call st.index st.blocks s

/-- The bytes that end a volume. -/
def endLength (encrypted : Bool) : Nat := if encrypted then 32 else 8

theorem volumeBytes_length (call : VolumeCall) {v : Volume} (h : v.endFlags < 2) :
    (call.volumeBytes v).length =
      (call.contents v.index v.blocks).length + endLength call.encrypts := by
  have hend : (wrapBlock (endHeaderBody v.endFlags)).length = 8 := by
    generalize v.endFlags = flags at h
    interval_cases flags <;> rfl
  have hemit : emitLength call.encrypts (endHeaderBody v.endFlags) = endLength call.encrypts := by
    cases hcrypt : call.encrypts <;> simp [emitLength, endLength, hend]
  rw [VolumeCall.volumeBytes, length_append, emitBlock_length]
  exact congrArg _ hemit

/-! ## What a turn does -/

/-- A turn only closes the volume. -/
structure Closes (call : VolumeCall) (st next : WriterState) : Prop where
  nextBlock : st.nextBlock call = none
  pending : st.pending ≠ []
  next : next = st.nextVolume call

/-- A turn writes the block `s` of the entry `p` to the volume of `place`, and closes the volume
behind it unless the entry is complete. -/
structure Writes (call : VolumeCall) (st place : WriterState) (p : Payload) (s : Slice)
    (next : WriterState) : Prop where
  nextBlock : st.nextBlock call = some (place, s)
  first : st.pending.head? = some p
  volume : place = st ∨ place = st.nextVolume call
  next : next =
    if st.written + s.data.length < p.content.length then
      { (place.push s).nextVolume call with written := st.written + s.data.length }
    else { place.push s with pending := st.pending.tail, written := 0 }

theorem nextBlock_place (h : st.nextBlock call = some (place, s)) :
    place = st ∨ place = st.nextVolume call := by
  unfold WriterState.nextBlock at h
  split at h
  · cases h
  · dsimp only at h
    split_ifs at h
    · cases h
      exact .inr rfl
    · cases h
      exact .inl rfl
    · cases h
      exact .inl rfl

/-- Everything that a turn can do. -/
theorem turn_cases (call : VolumeCall) (st : WriterState) :
    st.pending = [] ∧ st.turn call = st ∨ Closes call st (st.turn call) ∨
      ∃ place p s, Writes call st place p s (st.turn call) := by
  unfold WriterState.turn
  split
  · next hnil => exact .inl ⟨hnil, rfl⟩
  · next p rest hcons =>
    right
    split
    · next hnone => exact .inl ⟨hnone, by simp [hcons], rfl⟩
    · next place s hsome =>
      refine .inr ⟨place, p, s, hsome, by simp [hcons], nextBlock_place hsome, ?_⟩
      simp [hcons]

theorem after_succ (call : VolumeCall) (n : Nat) : call.after (n + 1) = (call.after n).turn call :=
  Function.iterate_succ_apply' ..

/-- What every turn keeps holds in every later state of the run. -/
theorem after_invariant {I : WriterState → Prop} (hstart : I (call.after m))
    (hstep : ∀ n, I (call.after n) → I ((call.after n).turn call)) (hle : m ≤ n) :
    I (call.after n) := by
  induction n, hle using Nat.le_induction with
  | base => exact hstart
  | succ n _ ih =>
    rw [after_succ]
    exact hstep n ih

/-- A writer that is through stays where it is. -/
theorem after_of_done (h : (call.after m).pending = []) (hle : m ≤ n) :
    call.after n = call.after m := by
  refine after_invariant (I := fun st => st = call.after m) rfl (fun n hn => ?_) hle
  rw [hn, WriterState.turn, h]

/-- The set that is written when the writer is through. -/
theorem writeVolumes_eq_some {fuel : Nat} {vols : List Volume}
    (h : writeVolumes call fuel = some vols) : (call.after fuel).pending = [] ∧
      vols = (call.after fuel).done ++
        [{ index := (call.after fuel).index, blocks := (call.after fuel).blocks,
           endFlags := 0 }] := by
  unfold writeVolumes at h
  split at h
  · cases h
  · dsimp only at h
    split at h
    · next hdone => exact ⟨isEmpty_iff.mp hdone, (Option.some.inj h).symm⟩
    · cases h

/-! ## Volumes that get something -/

/-- A volume got an entry, or a part of one. -/
def Received (call : VolumeCall) (index : Nat) (blocks : List Slice) : Prop :=
  (call.startBlocks index).length < blocks.length

instance (index : Nat) (blocks : List Slice) : Decidable (Received call index blocks) :=
  inferInstanceAs (Decidable (_ < _))

/-- The least slice that an entry can be cut into. -/
def leastSlice (p : Payload) (written : Nat) : Nat :=
  if p.fb.crypt.isEncrypted then min 16 (p.content.length - written) else 1

/-- There is room for the entry that is written next: for its header, or for a slice of it and
the margin.  The difference of volume size and position is taken as a signed number, so a volume
may not be larger by half the range. -/
def Room (call : VolumeCall) (st : WriterState) (p : Payload) : Prop :=
  if p.content = [] then st.tell call + 97 ≤ call.volSize
  else st.tell call + 87 + leastSlice p st.written ≤ call.volSize ∧
    call.volSize < st.tell call + 2 ^ 63

/-- If the volume is new, there is room in it. -/
def RoomIfNew (call : VolumeCall) (st : WriterState) : Prop :=
  ¬ Received call st.index st.blocks → ∀ p, st.pending.head? = some p → Room call st p

/-- The test of the loop is a test for that much room. -/
theorem sliceAt_ne_zero_iff {volSize written pos : Nat} (hsize : volSize < 2 ^ 64)
    (hwritten : written < p.content.length) :
    sliceAt volSize p written pos ≠ 0 ↔
      pos + 87 + leastSlice p written ≤ volSize ∧ volSize < pos + 2 ^ 63 := by
  unfold sliceAt leastSlice maxHeaderSizeMargin endArcSize int64
  dsimp only
  by_cases hrange : volSize - pos < 2 ^ 63
  · have hroom : (((volSize - pos : Nat) : Int) - (80 : Nat) - (7 : Nat)).toNat =
        volSize - pos - 87 := by omega
    rw [if_pos hrange, hroom]
    -- the slice is the rest of the entry, or fills the room
    rcases Nat.le_total (p.content.length - written) (volSize - pos - 87) with hrest | hfull
    · rw [Nat.min_eq_left hrest, if_neg (by omega : ¬ (_ ∧ written + _ < p.content.length))]
      split_ifs <;> omega
    · rw [Nat.min_eq_right hfull]
      cases p.fb.crypt.isEncrypted with
      | true =>
        simp only [true_and, if_true]
        split_ifs <;> omega
      | false =>
        simp only [Bool.false_eq_true, false_and, if_false]
        split_ifs <;> omega
  · -- taken as a signed number, the room is negative
    rw [if_neg hrange, if_neg (by omega : ¬ volSize ≤ pos), if_pos (by omega)]
    exact iff_of_false (fun h => h rfl) (by omega)

theorem sliceAt_le (volSize : Nat) (p : Payload) (written pos : Nat) :
    sliceAt volSize p written pos ≤ p.content.length - written := by
  unfold sliceAt
  dsimp only
  split_ifs <;> omega

theorem sliceOf_data_length (volSize : Nat) (p : Payload) (written pos : Nat) :
    (sliceOf p written (sliceAt volSize p written pos)).data.length =
      sliceAt volSize p written pos := by
  have hle := sliceAt_le volSize p written pos
  simp only [sliceOf, length_take, length_drop]
  omega

/-- The first entry is not complete, and the volume has the blocks that it started with. -/
structure Sound (call : VolumeCall) (st : WriterState) : Prop where
  unfinished : ∀ p, st.pending.head? = some p → st.written = 0 ∨ st.written < p.content.length
  started : (call.startBlocks st.index).length ≤ st.blocks.length

theorem Sound.written_lt (h : Sound call st) (hp : st.pending.head? = some p)
    (hne : p.content ≠ []) : st.written < p.content.length :=
  (h.unfinished p hp).elim (fun hzero => hzero ▸ length_pos_iff.mpr hne) id

/-- The turn finds room exactly if the volume it looks at is the one it writes to. -/
theorem room_iff (hsize : call.volSize < 2 ^ 64) (hst : Sound call st)
    (hp : st.pending.head? = some p) :
    Room call st p ↔ ∃ s, st.nextBlock call = some (st, s) := by
  obtain ⟨rest, hcons⟩ := head?_eq_some_iff.mp hp
  have hother : st.nextVolume call ≠ st := fun h => by
    have := congrArg WriterState.index h
    exact Nat.succ_ne_self _ this
  unfold Room WriterState.nextBlock maxHeaderSizeMargin endArcSize
  rw [hcons]
  dsimp only
  split
  · split
    · next hfull =>
      refine iff_of_false (by omega) ?_
      rintro ⟨s, hs⟩
      exact hother (Prod.mk.inj (Option.some.inj hs)).1
    · next hroom => exact iff_of_true (by omega) ⟨_, rfl⟩
  · next hne =>
    rw [← sliceAt_ne_zero_iff hsize (hst.written_lt hp hne)]
    split
    · next hzero =>
      refine iff_of_false (fun h => h hzero) ?_
      rintro ⟨s, hs⟩
      cases hs
    · next hslice => exact iff_of_true hslice ⟨_, rfl⟩

/-- A volume that the turn leaves got something, if a new one has room. -/
theorem received_of_left (hsize : call.volSize < 2 ^ 64) (hst : Sound call st)
    (hroom : RoomIfNew call st) (hp : st.pending.head? = some p)
    (h : ∀ s, st.nextBlock call ≠ some (st, s)) : Received call st.index st.blocks := by
  by_contra hnew
  obtain ⟨s, hs⟩ := (room_iff hsize hst hp).mp (hroom hnew p hp)
  exact h s hs

/-- Without room the turn closes the volume as it is. -/
theorem closed_of_no_room (hsize : call.volSize < 2 ^ 64) (hst : Sound call st)
    (hp : st.pending.head? = some p) (hroom : ¬ Room call st p) :
    ⟨st.index, st.blocks, 0x0001⟩ ∈ (st.turn call).done := by
  have hmem : (⟨st.index, st.blocks, 0x0001⟩ : Volume) ∈ (st.nextVolume call).done :=
    mem_append_right _ (mem_singleton_self _)
  rcases turn_cases call st with ⟨hnil, -⟩ | hcloses | ⟨place, q, s, hwrites⟩
  · rw [hnil] at hp
    cases hp
  · rw [hcloses.next]
    exact hmem
  · have hplace : place = st.nextVolume call := by
      refine hwrites.volume.resolve_left fun heq => hroom ((room_iff hsize hst hp).mpr ⟨s, ?_⟩)
      rw [hwrites.nextBlock, heq]
    rw [hwrites.next, hplace]
    split
    · exact mem_append_left _ hmem
    · exact hmem

/-! ## The writer ends -/

theorem Writes.pending_place {next : WriterState} (h : Writes call st place p s next) :
    place.pending = st.pending ∧ place.written = st.written := by
  rcases h.volume with rfl | rfl <;> exact ⟨rfl, rfl⟩

theorem Writes.received {next : WriterState} (hst : Sound call st)
    (h : Writes call st place p s next) : Received call place.index (place.push s).blocks := by
  have hlength : (place.push s).blocks.length = place.blocks.length + 1 := length_append
  unfold Received
  rcases h.volume with rfl | rfl
  · have := hst.started
    omega
  · exact hlength ▸ Nat.lt_succ_self _

theorem Sound.turn (h : Sound call st) : Sound call (st.turn call) := by
  rcases turn_cases call st with ⟨-, hsame⟩ | hcloses | ⟨place, p, s, hwrites⟩
  · rw [hsame]
    exact h
  · rw [hcloses.next]
    exact ⟨h.unfinished, Nat.le_refl _⟩
  · rw [hwrites.next]
    split
    · next hmore =>
      refine ⟨fun q hq => .inr ?_, Nat.le_refl _⟩
      have hsame : p = q :=
        Option.some.inj (hwrites.first.symm.trans (hwrites.pending_place.1 ▸ hq))
      exact hsame ▸ hmore
    · exact ⟨fun _ _ => .inl rfl, (hwrites.received h).le⟩

/-- What is left to do: the bytes and the entries that are not written, twice, and a turn for
closing a volume that got something. -/
def work (call : VolumeCall) (st : WriterState) : Nat :=
  2 * ((st.pending.map (·.content.length + 1)).sum - st.written) +
    if Received call st.index st.blocks then 1 else 0

/-- The data of the block are a part of what is left of its entry, and a block without data
completes its entry. -/
theorem Writes.data {next : WriterState} (h : Writes call st place p s next) :
    s.data.length ≤ p.content.length - st.written ∧
      (st.written + s.data.length < p.content.length → 0 < s.data.length) := by
  obtain ⟨rest, hcons⟩ := head?_eq_some_iff.mp h.first
  have hblock := h.nextBlock
  unfold WriterState.nextBlock at hblock
  rw [hcons] at hblock
  dsimp only at hblock
  split_ifs at hblock with hnil hfull hslice
  · cases hblock
    simp [emptySlice, hnil]
  · cases hblock
    simp [emptySlice, hnil]
  · cases hblock
    rw [sliceOf_data_length]
    exact ⟨sliceAt_le .., fun _ => Nat.pos_of_ne_zero hslice⟩

/-- A turn that finds room, or closes a volume that got something, leaves less to do. -/
theorem work_turn_lt (hsize : call.volSize < 2 ^ 64) (hst : Sound call st)
    (hroom : RoomIfNew call st) (hpending : st.pending ≠ []) :
    work call (st.turn call) < work call st := by
  obtain ⟨p, rest, hcons⟩ := exists_cons_of_ne_nil hpending
  have hp : st.pending.head? = some p := by rw [hcons]; rfl
  have hold : 2 * ((st.pending.map (·.content.length + 1)).sum - st.written) ≤ work call st :=
    Nat.le_add_right _ _
  rcases turn_cases call st with ⟨hnil, -⟩ | hcloses | ⟨place, q, s, hwrites⟩
  · exact absurd hnil hpending
  · have hgot := received_of_left hsize hst hroom hp fun s => by simp [hcloses.nextBlock]
    have hnew : ¬ Received call (st.nextVolume call).index (st.nextVolume call).blocks :=
      Nat.lt_irrefl _
    rw [hcloses.next, work, work, if_pos hgot, if_neg hnew]
    exact Nat.lt_succ_self _
  · obtain rfl : q = p := Option.some.inj (hwrites.first.symm.trans hp)
    obtain ⟨hle, hprogress⟩ := hwrites.data
    obtain ⟨hsame, -⟩ := hwrites.pending_place
    rw [hwrites.next]
    split
    · next hmore =>
      have hnew : ¬ Received call (place.index + 1) (call.startBlocks (place.index + 1)) :=
        Nat.lt_irrefl _
      have hcount : q.content.length + 1 ≤ (st.pending.map (·.content.length + 1)).sum := by
        rw [hcons, map_cons, sum_cons]
        omega
      have hpos := hprogress hmore
      refine Nat.lt_of_lt_of_le ?_ hold
      unfold work
      simp only [WriterState.nextVolume, WriterState.push, hsame, if_neg hnew]
      omega
    · have hleft : work call { place.push s with pending := st.pending.tail, written := 0 } ≤
          2 * (st.pending.tail.map (·.content.length + 1)).sum + 1 := by
        unfold work
        dsimp only
        split <;> omega
      refine Nat.lt_of_le_of_lt hleft (Nat.lt_of_lt_of_le ?_ hold)
      rw [hcons, tail_cons, map_cons, sum_cons]
      have := hst.unfinished q hp
      omega

theorem sound_after (call : VolumeCall) (n : Nat) : Sound call (call.after n) :=
  after_invariant (m := 0) ⟨fun _ _ => .inl rfl, Nat.le_refl _⟩ (fun _ h => h.turn) n.zero_le

/-- The writer is through after as many turns as there is work. -/
theorem after_done (hsize : call.volSize < 2 ^ 64) (hroom : ∀ n, RoomIfNew call (call.after n)) :
    ∃ n, (call.after n).pending = [] := by
  by_contra hnever
  rw [not_exists] at hnever
  have hless : ∀ n, work call (call.after n) + n ≤ work call call.start := by
    intro n
    induction n with
    | zero => exact Nat.le_refl _
    | succ n ih =>
      have := work_turn_lt hsize (sound_after call n) (hroom n) (hnever n)
      rw [after_succ]
      omega
  have := hless (work call call.start + 1)
  omega

/-- Every volume that is closed got something, and so has the one that is written when all
entries are. -/
structure Filling (call : VolumeCall) (st : WriterState) : Prop where
  done : ∀ v ∈ st.done, Received call v.index v.blocks
  last : st.pending = [] → Received call st.index st.blocks

theorem Filling.turn (hsize : call.volSize < 2 ^ 64) (hst : Sound call st)
    (hroom : RoomIfNew call st) (h : Filling call st) : Filling call (st.turn call) := by
  have hclose : Received call st.index st.blocks →
      ∀ v ∈ (st.nextVolume call).done, Received call v.index v.blocks :=
    fun hgot => forall_mem_append.mpr ⟨h.done, forall_mem_singleton.mpr hgot⟩
  rcases turn_cases call st with ⟨-, hsame⟩ | hcloses | ⟨place, p, s, hwrites⟩
  · rw [hsame]
    exact h
  · obtain ⟨p, rest, hcons⟩ := exists_cons_of_ne_nil hcloses.pending
    have hp : st.pending.head? = some p := by rw [hcons]; rfl
    rw [hcloses.next]
    refine ⟨hclose ?_, fun hnil => absurd hnil hcloses.pending⟩
    exact received_of_left hsize hst hroom hp fun s => by simp [hcloses.nextBlock]
  · have hgot := hwrites.received hst
    have hdone : ∀ v ∈ place.done, Received call v.index v.blocks := by
      rcases hwrites.volume with hplace | hplace
      · exact hplace ▸ h.done
      · rw [hplace]
        refine hclose (received_of_left hsize hst hroom hwrites.first fun s' hs' => ?_)
        have hsame := (Prod.mk.inj (Option.some.inj (hwrites.nextBlock.symm.trans hs'))).1
        have hindex := congrArg WriterState.index (hplace.symm.trans hsame)
        exact Nat.succ_ne_self _ hindex
    rw [hwrites.next]
    split
    · refine ⟨forall_mem_append.mpr ⟨hdone, forall_mem_singleton.mpr hgot⟩, fun hnil => ?_⟩
      have hfirst := hwrites.first
      rw [← hwrites.pending_place.1, show place.pending = [] from hnil] at hfirst
      cases hfirst
    · exact ⟨hdone, fun _ => hgot⟩

theorem Writes.done_subset {next : WriterState} (h : Writes call st place p s next) :
    st.done ⊆ place.done ∧ place.done ⊆ next.done := by
  constructor
  · rcases h.volume with rfl | rfl
    · exact Subset.refl _
    · exact subset_append_left _ _
  · rw [h.next]
    split
    · exact subset_append_left _ _
    · exact Subset.refl _

/-- Closed volumes stay. -/
theorem turn_done (call : VolumeCall) (st : WriterState) : st.done ⊆ (st.turn call).done := by
  rcases turn_cases call st with ⟨-, hsame⟩ | hcloses | ⟨place, p, s, hwrites⟩
  · exact hsame.symm ▸ Subset.refl _
  · rw [hcloses.next]
    exact subset_append_left _ _
  · exact Subset.trans hwrites.done_subset.1 hwrites.done_subset.2

theorem done_mono (call : VolumeCall) (hle : m ≤ n) :
    (call.after m).done ⊆ (call.after n).done :=
  after_invariant (I := fun st => (call.after m).done ⊆ st.done) (Subset.refl _)
    (fun n ih => Subset.trans ih (turn_done call (call.after n))) hle

/-- **When the writer ends.**  It comes to an end, and every volume that it starts gets an entry
or a part of one, exactly if each volume that is new when its turn comes has room for what is
written next. -/
theorem writeVolumes_ends_iff (call : VolumeCall) (hmin : 1024 ≤ call.volSize)
    (hmax : call.volSize < 2 ^ 64 - 1) :
    (∃ enough, ∀ fuel ≥ enough, ∃ vols, writeVolumes call fuel = some vols ∧
        ∀ v ∈ vols, Received call v.index v.blocks) ↔
      ∀ n, RoomIfNew call (call.after n) := by
  have hsize : call.volSize < 2 ^ 64 := by omega
  constructor
  · rintro ⟨enough, hends⟩ n hnew p hp
    obtain ⟨vols, hvols, hreceived⟩ := hends (max enough (n + 1)) (le_max_left _ _)
    obtain ⟨-, rfl⟩ := writeVolumes_eq_some hvols
    -- without room the new volume would be closed as it is, and stay like that
    by_contra hroom
    have hclosed := closed_of_no_room hsize (sound_after call n) hp hroom
    rw [← after_succ] at hclosed
    have hmem := done_mono call (le_max_right enough (n + 1)) hclosed
    exact hnew (hreceived _ (mem_append_left _ hmem))
  · intro hroom
    obtain ⟨enough, hdone⟩ := after_done hsize hroom
    have hstart : Filling call (call.after 0) :=
      ⟨fun _ hv => absurd hv not_mem_nil, fun hnil => by
        simp [VolumeCall.after, VolumeCall.start, VolumeCall.payloads] at hnil⟩
    have hfilling := after_invariant hstart
      (fun n h => h.turn hsize (sound_after call n) (hroom n)) enough.zero_le
    refine ⟨enough, fun fuel hfuel => ?_⟩
    have hsame := after_of_done hdone hfuel
    refine ⟨_, by rw [writeVolumes, if_neg (by omega), hsame, if_pos (isEmpty_iff.mpr hdone)], ?_⟩
    exact forall_mem_append.mpr ⟨hfilling.done, forall_mem_singleton.mpr (hfilling.last hdone)⟩

/-! ## The length of a volume -/

/-- A volume whose length the size of the call bounds: not a first one that carries more than
entries. -/
def Limited (call : VolumeCall) (index : Nat) : Prop :=
  index = 0 → call.sfx = [] ∧ call.comment = []

/-- What the writer puts into bounded volumes fits.  A new volume has room for its end; and the
header of the block that the turn writes fits, with the end of the volume, into what its data
leave of the volume.  That is the margin of 87 bytes, and more if the data do not fill the
volume. -/
structure HeadersFit (call : VolumeCall) (st : WriterState) : Prop where
  head : Limited call st.index → ¬ Received call st.index st.blocks →
    st.tell call + endLength call.encrypts ≤ call.volSize
  block : ∀ place s, st.nextBlock call = some (place, s) → Limited call place.index →
    emitLength call.encrypts s.body + endLength call.encrypts ≤
      call.volSize - (place.tell call + s.data.length)

/-- What is written so far keeps to the size of the call. -/
structure Within (call : VolumeCall) (st : WriterState) : Prop where
  done : ∀ v ∈ st.done, Limited call v.index → (call.volumeBytes v).length ≤ call.volSize
  cur : Limited call st.index → st.tell call + endLength call.encrypts ≤ call.volSize

theorem Within.close (h : Within call st) : ∀ v ∈ (st.nextVolume call).done,
    Limited call v.index → (call.volumeBytes v).length ≤ call.volSize := by
  refine forall_mem_append.mpr ⟨h.done, forall_mem_singleton.mpr fun hlimited => ?_⟩
  rw [volumeBytes_length call Nat.one_lt_two]
  exact h.cur hlimited

theorem emitLength_pos (encrypted : Bool) (body : List UInt8) : 0 < emitLength encrypted body := by
  have hwrap : 4 ≤ (wrapBlock body).length := by
    unfold wrapBlock
    rw [length_append, length_append, writeLe_length]
    omega
  unfold emitLength
  split <;> omega

theorem Within.turn (h : Within call st) (hfit : HeadersFit call st)
    (hnext : HeadersFit call (st.turn call)) : Within call (st.turn call) := by
  have hnew : ∀ st' : WriterState, st'.blocks = call.startBlocks st'.index →
      ¬ Received call st'.index st'.blocks := fun st' hblocks => by
    rw [hblocks]
    exact Nat.lt_irrefl _
  rcases turn_cases call st with ⟨-, hsame⟩ | hcloses | ⟨place, p, s, hwrites⟩
  · rw [hsame]
    exact h
  · have hhead := hnext.head
    rw [hcloses.next] at hhead ⊢
    exact ⟨h.close, fun hlimited => hhead hlimited (hnew _ rfl)⟩
  · have hplace : ∀ v ∈ place.done, Limited call v.index →
        (call.volumeBytes v).length ≤ call.volSize := by
      rcases hwrites.volume with rfl | rfl
      · exact h.done
      · exact h.close
    have hpush : Within call (place.push s) := by
      refine ⟨hplace, fun hlimited => ?_⟩
      have hroom := hfit.block place s hwrites.nextBlock hlimited
      have hpos := emitLength_pos call.encrypts s.body
      rw [tell_push]
      omega
    have hhead := hnext.head
    rw [hwrites.next] at hhead ⊢
    split at hhead
    · next hmore =>
      rw [if_pos hmore]
      exact ⟨hpush.close, fun hlimited => hhead hlimited (hnew _ rfl)⟩
    · next hlast =>
      rw [if_neg hlast]
      exact ⟨hpush.done, hpush.cur⟩

/-- The blocks stand at the start of the volume of that number, closed or not. -/
def Holds (st : WriterState) (index : Nat) (blocks : List Slice) : Prop :=
  st.index = index ∧ blocks <+: st.blocks ∨
    ∃ v ∈ st.done, v.index = index ∧ v.endFlags < 2 ∧ blocks <+: v.blocks

theorem Holds.nextVolume {index : Nat} {blocks : List Slice} (h : Holds st index blocks) :
    Holds (st.nextVolume call) index blocks := by
  rcases h with ⟨hindex, hblocks⟩ | ⟨v, hv, hrest⟩
  · exact .inr ⟨_, mem_append_right _ (mem_singleton_self _), hindex, Nat.one_lt_two, hblocks⟩
  · exact .inr ⟨v, mem_append_left _ hv, hrest⟩

theorem Holds.push {index : Nat} {blocks : List Slice} (h : Holds st index blocks) (s : Slice) :
    Holds (st.push s) index blocks :=
  h.imp_left fun ⟨hindex, hblocks⟩ => ⟨hindex, hblocks.trans (prefix_append _ _)⟩

/-- What a volume has got stays in it, and so does the block of a turn. -/
theorem Writes.holds {next : WriterState} {index : Nat} {blocks : List Slice}
    (h : Writes call st place p s next) (hplace : Holds (place.push s) index blocks) :
    Holds next index blocks := by
  rw [h.next]
  split
  · exact @Holds.nextVolume call _ _ _ hplace
  · exact hplace

theorem Holds.turn {index : Nat} {blocks : List Slice} (h : Holds st index blocks) :
    Holds (st.turn call) index blocks := by
  rcases turn_cases call st with ⟨-, hsame⟩ | hcloses | ⟨place, p, s, hwrites⟩
  · exact hsame.symm ▸ h
  · exact hcloses.next.symm ▸ h.nextVolume
  · refine hwrites.holds (Holds.push ?_ s)
    rcases hwrites.volume with rfl | rfl
    · exact h
    · exact h.nextVolume

theorem Holds.after {index : Nat} {blocks : List Slice} (h : Holds (call.after m) index blocks)
    (hle : m ≤ n) : Holds (call.after n) index blocks :=
  after_invariant (I := fun st => Holds st index blocks) h (fun _ ih => ih.turn) hle

/-- What the writer has put into a volume at some time is in the volume of the set. -/
theorem Holds.length_le {fuel : Nat} {vols : List Volume} {index : Nat} {blocks : List Slice}
    (hvols : writeVolumes call fuel = some vols)
    (hbound : ∀ v ∈ vols, Limited call v.index → (call.volumeBytes v).length ≤ call.volSize)
    (h : Holds (call.after n) index blocks) (hlimited : Limited call index) :
    (call.contents index blocks).length + endLength call.encrypts ≤ call.volSize := by
  obtain ⟨hdone, rfl⟩ := writeVolumes_eq_some hvols
  obtain ⟨v, hv, rfl, hflags, hblocks⟩ : ∃ v ∈ (call.after fuel).done ++
      [⟨(call.after fuel).index, (call.after fuel).blocks, 0⟩],
      v.index = index ∧ v.endFlags < 2 ∧ blocks <+: v.blocks := by
    have hend := h.after (le_max_left n fuel)
    rw [after_of_done hdone (le_max_right n fuel)] at hend
    rcases hend with ⟨hindex, hblocks⟩ | ⟨v, hv, hrest⟩
    · exact ⟨_, mem_append_right _ (mem_singleton_self _), hindex, Nat.two_pos, hblocks⟩
    · exact ⟨v, mem_append_left _ hv, hrest⟩
  have hlength := hbound v hv hlimited
  rw [volumeBytes_length call hflags] at hlength
  have := contents_length_le call v.index hblocks
  omega

/-- A file that is stored, with a name and contents of given lengths and the header that the
call makes for it. -/
def storedFile (name content : Nat) : Payload where
  fb :=
    { fileName := List.replicate name 0x61
      unpSize := content
      packSize := content
      attributes := 0x20
      utimeUnix := 1
      hasCrc32 := true
      dataCrc32 := crc32 (List.replicate content 0x07) }
  content := List.replicate content 0x07
  unpackedCrc := crc32 (List.replicate content 0x07)

/-- Volumes of 1024 bytes for one file, over an archive whose main header has an original name
of a given length. -/
def smallCall (metadata name content : Nat) : VolumeCall where
  volSize := 1024
  prior := some
    { hasMetadata := decide (0 < metadata), metadataName := List.replicate metadata 0x61 }
  new := storedFile name content

/-- One byte under a short name ends in one volume that gets it. -/
theorem writeVolumes_ends_small :
    ∃ enough, ∀ fuel ≥ enough, ∃ vols, writeVolumes (smallCall 0 1 1) fuel = some vols ∧
      ∀ v ∈ vols, Received (smallCall 0 1 1) v.index v.blocks := by
  refine (writeVolumes_ends_iff (smallCall 0 1 1) (by decide) (by decide)).mpr fun n => ?_
  have hdone : ((smallCall 0 1 1).after 1).pending = [] := by
    rw [← List.isEmpty_iff]
    decide +kernel
  intro _ p hp
  cases n with
  | zero =>
    obtain rfl : storedFile 1 1 = p := Option.some.inj hp
    rw [Room, if_neg (by decide)]
    decide +kernel
  | succ n =>
    rw [after_of_done hdone (by omega), hdone] at hp
    cases hp

/-- **A main header that fills a volume keeps the writer from ending.** -/
theorem writeVolumes_longMetadata :
    (smallCall 1024 1 1).volSize = 1024 ∧
      ∀ fuel, writeVolumes (smallCall 1024 1 1) fuel = none := by
  have hhead : ∀ st : WriterState, 1024 ≤ st.tell (smallCall 1024 1 1) := by
    intro st
    have hname : 1024 ≤ (metadataRecord ((smallCall 1024 1 1).volumeMain st.index)).length := by
      have hrecord : metadataRecord ((smallCall 1024 1 1).volumeMain st.index)
          = metadataRecord ((smallCall 1024 1 1).volumeMain 0) := rfl
      rw [hrecord]
      decide +kernel
    refine le_trans ?_ (contents_length_le (smallCall 1024 1 1) st.index nil_prefix)
    show 1024 ≤ ((smallCall 1024 1 1).head st.index).length
    simp only [VolumeCall.head, smallCall, emitBlock, wrapBlock, mainHeaderBody, length_append]
    simp only [smallCall] at hname
    omega
  -- the entry is never begun
  have hpending : ∀ n, ((smallCall 1024 1 1).after n).pending = [storedFile 1 1] := by
    intro n
    refine after_invariant (m := 0) (I := fun st => st.pending = [storedFile 1 1]) rfl
      (fun n hst => ?_) n.zero_le
    have hnone : ((smallCall 1024 1 1).after n).nextBlock (smallCall 1024 1 1) = none := by
      have hzero : ∀ written, sliceAt (smallCall 1024 1 1).volSize (storedFile 1 1) written
          (((smallCall 1024 1 1).after n).tell (smallCall 1024 1 1)) = 0 :=
        fun _ => if_pos (hhead _)
      rw [WriterState.nextBlock, hst]
      dsimp only
      rw [if_neg (by decide), hzero, if_pos rfl]
    rw [WriterState.turn, hst]
    simp only [hnone]
    exact hst
  refine ⟨rfl, fun fuel => ?_⟩
  rw [writeVolumes, if_neg (by decide)]
  dsimp only
  rw [hpending fuel]
  rfl

end OpenRar.Archive
