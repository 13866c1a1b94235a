import OpenRar.Core.Bytes

/-!
# The frames between broker and worker

`encode_frame` and `FrameReader` (`sandbox/ipc.cpp`).  A frame is a little-endian length, a
type and a payload.  The reader takes the channel's bytes as they come and keeps what it has
of an unfinished frame; a header that cannot be trusted poisons it for good.

What a reader has delivered is a fold over the bytes received (`feed_eq`), so it does not
depend on how they were cut into calls.
-/

namespace OpenRar.Sandbox

open List OpenRar.Core

/-- `FrameType`: an enumeration over a byte, which can hold values outside its registry. -/
abbrev FrameType := UInt8

def FrameType.ping : FrameType := 1
def FrameType.selftestResult : FrameType := 13

/-- `type_registered` -/
def typeRegistered (t : FrameType) : Bool := .ping ≤ t && t ≤ .selftestResult

/-- `MAX_FRAME_PAYLOAD`, 4 MiB -/
def maxFramePayload : Nat := 4 * 1024 * 1024

/-- `FRAME_HEADER_SIZE` -/
def frameHeaderSize : Nat := 5

structure Frame where
  type : FrameType
  payload : List UInt8
  deriving DecidableEq

/-- The wire bytes of a frame. -/
def Frame.wire (f : Frame) : List UInt8 := writeLe 4 f.payload.length ++ f.type :: f.payload

/-- What `encode_frame` appends, `none` when it returns false. -/
def encodeFrame (f : Frame) : Option (List UInt8) :=
  if !typeRegistered f.type then none
  else if maxFramePayload < f.payload.length then none
  else some f.wire

inductive FeedResult
  | ok | incomplete | poisoned
  deriving DecidableEq

structure FrameReader where
  pending : List UInt8 := []
  poisoned : Bool := false
  headerDone : Bool := false
  frameLen : Nat := 0
  frameType : FrameType := .ping

namespace FrameReader

/-- The bytes that the reader collects before it acts. -/
def goal (r : FrameReader) : Nat := if r.headerDone then r.frameLen else frameHeaderSize

/-- A full header or payload: the next state and what is delivered, `none` for a header that
poisons. -/
def complete (r : FrameReader) (pending : List UInt8) : Option (FrameReader × List Frame) :=
  if r.headerDone then
    some ({ r with pending := [], headerDone := false }, [⟨r.frameType, pending⟩])
  else
    let len := readLe (pending.take 4)
    let t := pending.getD 4 0
    if !typeRegistered t then none
    else if maxFramePayload < len then none
    else
      let r := { r with frameLen := len, frameType := t, pending := [], headerDone := true }
      if len = 0 then some ({ r with headerDone := false }, [⟨t, []⟩])
      else some (r, [])

def poison (r : FrameReader) : FrameReader := { r with poisoned := true, pending := [] }

/-- The loop of `feed`.  A header with a payload to come is followed by the payload's part of
the loop at once, every other one only if bytes are left. -/
def feedLoop : Nat → FrameReader → List UInt8 → List Frame →
    FeedResult × FrameReader × List Frame
  | 0, r, _, out => (.incomplete, r, out)
  | fuel + 1, r, data, out =>
    let need := r.goal - r.pending.length
    let pending := r.pending ++ data.take need
    let rest := data.drop need
    if pending.length < r.goal then
      (if rest = [] then .incomplete else .ok, { r with pending := pending }, out)
    else (r.complete pending).elim (.poisoned, r.poison, out) fun (r', frames) =>
      if rest = [] ∧ r'.headerDone = false then (.ok, r', out ++ frames)
      else feedLoop fuel r' rest (out ++ frames)

/-- `FrameReader::feed`: its verdict, the reader and the frames delivered so far. -/
def feed (r : FrameReader) (data : List UInt8) (out : List Frame) :
    FeedResult × FrameReader × List Frame :=
  if r.poisoned then (.poisoned, r, out) else feedLoop (data.length + 2) r data out

/-- A fresh reader after the calls of `feed` on these pieces. -/
def feedAll (pieces : List (List UInt8)) : FrameReader × List Frame :=
  pieces.foldl (fun s piece => (s.1.feed piece s.2).2) ({}, [])

/-- What one byte does. -/
def step (s : FrameReader × List Frame) (b : UInt8) : FrameReader × List Frame :=
  if s.1.poisoned then s
  else if (s.1.pending ++ [b]).length < s.1.goal then
    ({ s.1 with pending := s.1.pending ++ [b] }, s.2)
  else (s.1.complete (s.1.pending ++ [b])).elim (s.1.poison, s.2) fun (r', frames) =>
    (r', s.2 ++ frames)

/-- Less is buffered than the goal, which is at most a payload. -/
structure Sound (r : FrameReader) : Prop where
  short : r.pending.length < r.goal
  bounded : r.goal ≤ maxFramePayload

variable {r r' : FrameReader} {out frames : List Frame} {pending data : List UInt8} {b : UInt8}

theorem sound_new : Sound {} := ⟨by decide, by decide⟩

theorem complete_sound (h : r.complete pending = some (r', frames)) :
    Sound r' ∧ r'.poisoned = r.poisoned := by
  have hheader : frameHeaderSize ≤ maxFramePayload := by decide
  unfold complete at h
  split at h
  · cases h
    exact ⟨⟨Nat.succ_pos _, hheader⟩, rfl⟩
  · simp only at h
    split_ifs at h with hreg hlen hzero
    · cases h
      exact ⟨⟨Nat.succ_pos _, hheader⟩, rfl⟩
    · cases h
      exact ⟨⟨Nat.pos_of_ne_zero hzero, Nat.le_of_not_lt hlen⟩, rfl⟩

theorem step_short (hp : r.poisoned = false) (h : r.pending.length + 1 < r.goal) :
    step (r, out) b = ({ r with pending := r.pending ++ [b] }, out) := by
  rw [step, if_neg (by simp [hp]), if_pos (by simpa using h)]

theorem step_full (hp : r.poisoned = false) (h : r.pending.length + 1 = r.goal) :
    step (r, out) b = (r.complete (r.pending ++ [b])).elim (r.poison, out) fun (r', frames) =>
      (r', out ++ frames) := by
  rw [step, if_neg (by simp [hp]), if_neg (by simp [h])]

theorem Sound.step (hr : Sound r) : Sound (step (r, out) b).1 := by
  by_cases hp : r.poisoned
  · rwa [FrameReader.step, if_pos hp]
  · rw [Bool.not_eq_true] at hp
    obtain h | h := Nat.lt_or_eq_of_le (Nat.succ_le_of_lt hr.short)
    · rw [step_short hp h]
      exact ⟨by simpa [goal] using h, hr.bounded⟩
    · rw [step_full hp h]
      cases hc : r.complete (r.pending ++ [b]) with
      | none => exact ⟨Nat.zero_lt_of_lt hr.short, hr.bounded⟩
      | some next => exact (complete_sound hc).1

theorem Sound.foldl (hr : Sound r) (data : List UInt8) :
    Sound (data.foldl FrameReader.step (r, out)).1 := by
  induction data generalizing r out with
  | nil => exact hr
  | cons b data ih => exact ih hr.step

theorem foldl_poisoned (h : r.poisoned) : data.foldl step (r, out) = (r, out) := by
  induction data with
  | nil => rfl
  | cons b data ih => rw [foldl_cons, step, if_pos h, ih]

/-- A byte that completes nothing is only buffered, also as the first of many. -/
theorem feedLoop_short (fuel : Nat) (h : r.pending.length + 1 < r.goal) :
    feedLoop (fuel + 1) r (b :: data) out =
      feedLoop (fuel + 1) { r with pending := r.pending ++ [b] } data out := by
  obtain ⟨need, hneed⟩ : ∃ need, r.goal = r.pending.length + 1 + need :=
    ⟨_, (Nat.add_sub_of_le h.le).symm⟩
  have hleft : r.goal - r.pending.length = need + 1 := by omega
  have hright : r.goal - (r.pending ++ [b]).length = need := by simp; omega
  have hgoal : goal { r with pending := r.pending ++ [b] } = r.goal := rfl
  rw [feedLoop, feedLoop, hleft, hgoal, hright, take_succ_cons, drop_succ_cons, append_cons]
  rfl

theorem feedLoop_full (fuel : Nat) (h : r.pending.length + 1 = r.goal) :
    feedLoop (fuel + 1) r (b :: data) out =
      (r.complete (r.pending ++ [b])).elim (.poisoned, r.poison, out) fun (r', frames) =>
        if data = [] ∧ r'.headerDone = false then (.ok, r', out ++ frames)
        else feedLoop fuel r' data (out ++ frames) := by
  have hneed : r.goal - r.pending.length = 1 := by omega
  rw [feedLoop, hneed]
  simp only [take_succ_cons, take_zero, drop_succ_cons, drop_zero]
  rw [if_neg (by simp [h])]

/-- The loop does byte after byte what `step` does, and says so when it poisons. -/
theorem feedLoop_eq (fuel : Nat) (hr : Sound r) (hp : r.poisoned = false)
    (hfuel : data.length + 1 < fuel) :
    (feedLoop fuel r data out).2 = data.foldl step (r, out) ∧
      ((feedLoop fuel r data out).1 = .poisoned ↔ (feedLoop fuel r data out).2.1.poisoned) := by
  induction data generalizing fuel r out with
  | nil =>
    obtain _ | fuel := fuel
    · omega
    · rw [feedLoop, take_nil, append_nil, if_pos hr.short]
      exact ⟨rfl, by simp [hp]⟩
  | cons b data ih =>
    obtain _ | fuel := fuel
    · omega
    · rw [length_cons] at hfuel
      rw [foldl_cons]
      obtain h | h := Nat.lt_or_eq_of_le (Nat.succ_le_of_lt hr.short)
      · have hsound := @Sound.step r out b hr
        rw [step_short hp h] at hsound ⊢
        rw [feedLoop_short fuel h]
        exact ih _ hsound hp (by omega)
      · rw [feedLoop_full fuel h, step_full hp h]
        cases hc : r.complete (r.pending ++ [b]) with
        | none => exact ⟨(foldl_poisoned rfl).symm, by simp [poison]⟩
        | some next =>
          obtain ⟨hnext, hpn⟩ := complete_sound hc
          simp only [Option.elim_some]
          split
          next hend => simp [hend.1, hpn, hp]
          next => exact ih _ hnext (hpn.trans hp) (by omega)

theorem feed_eq (hr : Sound r) : (r.feed data out).2 = data.foldl step (r, out) ∧
    ((r.feed data out).1 = .poisoned ↔ (r.feed data out).2.1.poisoned) := by
  unfold feed
  split
  next hp => exact ⟨(foldl_poisoned hp).symm, by simp [hp]⟩
  next hp => exact feedLoop_eq _ hr (by simpa using hp) (Nat.lt_succ_self _)

theorem feedAll_eq (pieces : List (List UInt8)) :
    feedAll pieces = pieces.flatten.foldl step ({}, []) := by
  suffices h : ∀ r out, Sound r → pieces.foldl (fun s piece => (s.1.feed piece s.2).2) (r, out) =
      pieces.flatten.foldl step (r, out) from h _ _ sound_new
  induction pieces with
  | nil => exact fun _ _ _ => rfl
  | cons piece pieces ih =>
    intro r out hr
    rw [foldl_cons, flatten_cons, foldl_append, (feed_eq hr).1]
    exact ih _ _ (hr.foldl piece)

theorem feedAll_sound (pieces : List (List UInt8)) : Sound (feedAll pieces).1 := by
  rw [feedAll_eq]
  exact sound_new.foldl _

/-! ## Encoded frames -/

/-- Bytes up to the goal are completed together. -/
theorem foldl_full (hp : r.poisoned = false) (hdata : data ≠ [])
    (h : r.pending.length + data.length = r.goal)
    (hc : r.complete (r.pending ++ data) = some (r', frames)) :
    data.foldl step (r, out) = (r', out ++ frames) := by
  induction data generalizing r with
  | nil => exact absurd rfl hdata
  | cons b data ih =>
    rw [foldl_cons]
    obtain rfl | hne := eq_or_ne data []
    · rw [step_full hp h, hc]
      rfl
    · have hpos := length_pos_of_ne_nil hne
      rw [length_cons] at h
      rw [step_short hp (by omega)]
      refine ih hp hne ?_ ?_
      · rw [length_append, Nat.add_assoc, Nat.add_comm [b].length]
        exact h
      · rw [append_assoc]
        exact hc

/-- Between two frames. -/
structure Idle (r : FrameReader) : Prop where
  poisoned : r.poisoned = false
  headerDone : r.headerDone = false
  pending : r.pending = []

theorem Idle.complete_header {t : FrameType} {n : Nat} (hr : Idle r) (hreg : typeRegistered t)
    (hn : n ≤ maxFramePayload) : r.complete (r.pending ++ (writeLe 4 n ++ [t])) = some (if n = 0
      then ({ r with frameLen := n, frameType := t, pending := [] }, [⟨t, []⟩])
      else ({ r with frameLen := n, frameType := t, pending := [], headerDone := true }, [])) := by
  have hread : readLe ((writeLe 4 n ++ [t]).take 4) = n := by
    rw [take_left' (writeLe_length 4 n), readLe_writeLe,
      Nat.mod_eq_of_lt (Nat.lt_of_le_of_lt hn (by decide))]
  have htype : (writeLe 4 n ++ [t]).getD 4 0 = t := rfl
  rw [hr.pending, nil_append, complete, if_neg (by simp [hr.headerDone]), hread, htype,
    if_neg (by simp [hreg]), if_neg (Nat.not_lt.mpr hn), ← hr.headerDone]
  split <;> rfl

/-- An encoded frame is delivered. -/
theorem Idle.foldl_wire {f : Frame} (hr : Idle r) (hreg : typeRegistered f.type)
    (hlen : f.payload.length ≤ maxFramePayload) :
    ∃ r', Idle r' ∧ f.wire.foldl step (r, out) = (r', out ++ [f]) := by
  have hgoal : r.pending.length + (writeLe 4 f.payload.length ++ [f.type]).length = r.goal := by
    simp [goal, hr.headerDone, hr.pending, frameHeaderSize]
  obtain ⟨t, payload⟩ := f
  have hheader := hr.complete_header hreg hlen
  rw [Frame.wire, append_cons, foldl_append]
  obtain rfl | hne := eq_or_ne payload []
  · rw [if_pos length_nil] at hheader
    rw [foldl_full hr.poisoned (by simp) hgoal hheader]
    exact ⟨{ r with frameLen := 0, frameType := t, pending := [] },
      ⟨hr.poisoned, hr.headerDone, rfl⟩, rfl⟩
  · rw [if_neg (by simpa using hne)] at hheader
    rw [foldl_full hr.poisoned (by simp) hgoal hheader, append_nil]
    refine ⟨_, ?_, foldl_full hr.poisoned hne (by simp [goal]) rfl⟩
    exact ⟨hr.poisoned, rfl, rfl⟩

theorem Idle.foldl_wires (hr : Idle r)
    (h : ∀ f ∈ frames, typeRegistered f.type ∧ f.payload.length ≤ maxFramePayload) :
    ∃ r', Idle r' ∧ (frames.flatMap Frame.wire).foldl step (r, out) = (r', out ++ frames) := by
  induction frames generalizing r out with
  | nil => exact ⟨r, hr, by simp⟩
  | cons f frames ih =>
    obtain ⟨hf, hrest⟩ := forall_mem_cons.mp h
    obtain ⟨r₁, hr₁, hone⟩ := @Idle.foldl_wire r out f hr hf.1 hf.2
    obtain ⟨r₂, hr₂, hall⟩ := @ih r₁ (out ++ [f]) hr₁ hrest
    refine ⟨r₂, hr₂, ?_⟩
    rw [flatMap_cons, foldl_append, hone, hall, append_assoc, singleton_append]

theorem encodeFrame_eq {f : Frame} (hreg : typeRegistered f.type)
    (hlen : f.payload.length ≤ maxFramePayload) : encodeFrame f = some f.wire := by
  rw [encodeFrame, if_neg (by simp [hreg]), if_neg (Nat.not_lt.mpr hlen)]

/-- Encoded frames come out as they went in however they are cut; the frames delivered and the
poisoned verdict depend on the bytes alone; a poisoned reader delivers nothing more; and no more
than a payload is ever buffered. -/
theorem frameReader_correct :
    (∀ frames : List Frame,
      (∀ f ∈ frames, typeRegistered f.type ∧ f.payload.length ≤ maxFramePayload) →
      ∃ wires : List (List UInt8), frames.map encodeFrame = wires.map some ∧
        ∀ pieces, pieces.flatten = wires.flatten →
          (feedAll pieces).2 = frames ∧ (feedAll pieces).1.poisoned = false) ∧
    (∀ pieces pieces', pieces.flatten = pieces'.flatten → feedAll pieces = feedAll pieces') ∧
    (∀ pieces piece, ((feedAll pieces).1.feed piece (feedAll pieces).2).1 = .poisoned ↔
      (feedAll (pieces ++ [piece])).1.poisoned) ∧
    (∀ pieces more, (feedAll pieces).1.poisoned → feedAll (pieces ++ more) = feedAll pieces) ∧
    ∀ pieces, (feedAll pieces).1.pending.length ≤ maxFramePayload := by
  refine ⟨fun frames h => ⟨frames.map Frame.wire, ?_, fun pieces hcut => ?_⟩,
    fun pieces pieces' hcut => ?_, fun pieces piece => ?_, fun pieces more hp => ?_,
      fun pieces => ?_⟩
  · rw [map_map]
    exact map_congr_left fun f hf => encodeFrame_eq (h f hf).1 (h f hf).2
  · obtain ⟨r, hr, hall⟩ := @Idle.foldl_wires {} [] frames ⟨rfl, rfl, rfl⟩ h
    rw [feedAll_eq, hcut, ← flatMap_def, hall]
    exact ⟨rfl, hr.poisoned⟩
  · rw [feedAll_eq, feedAll_eq, hcut]
  · have hcall : feedAll (pieces ++ [piece]) =
        ((feedAll pieces).1.feed piece (feedAll pieces).2).2 := foldl_append
    rw [hcall]
    exact (feed_eq (feedAll_sound pieces)).2
  · rw [feedAll_eq, flatten_append, foldl_append, ← feedAll_eq]
    exact foldl_poisoned hp
  · exact (feedAll_sound pieces).short.le.trans (feedAll_sound pieces).bounded

end FrameReader
end OpenRar.Sandbox
