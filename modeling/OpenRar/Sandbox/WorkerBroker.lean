import OpenRar.Crypto.Checksums
import OpenRar.Sandbox.FrameStream

/-!
# Extraction through a worker

`WorkerBroker::extract` (`sandbox/worker_broker.cpp`).  The broker asks a worker that it does
not trust for an entry, and takes frames until one of them ends the call: chunks of data go to
the sink below the limits, and the result of the entry is believed only with the announced
checksum.

An `Error` frame ends a call too, and its code is returned as it is.  A worker can put 0 there,
or leave it out, and the call succeeds without a result and without a checksum.
`extract_honest_iff` says that this is the only way to forge a success.
-/

namespace OpenRar.Sandbox

open List OpenRar.Core OpenRar.Crypto

def FrameType.dataChunk : FrameType := 7
def FrameType.entryResult : FrameType := 8
def FrameType.error : FrameType := 9

def rarOk : Int := 0
def rarErrCrcMismatch : Int := -4
def rarErrIo : Int := -6
def rarErrInvalidArg : Int := -9
def rarErrAborted : Int := -11
def rarErrLimitExceeded : Int := -15
def rarErrContainmentBreach : Int := -17

/-- An `int32` of the wire. -/
def readInt32 (bytes : List UInt8) : Int := (BitVec.ofNat 32 (readLe (bytes.take 4))).toInt

/-- `WireEntryResult` without its reserved fields -/
structure EntryResult where
  entryIndex : Nat
  rc : Int
  bytesEmitted : Nat

/-- `unpack_entry_result` -/
def unpackEntryResult (payload : List UInt8) : Option EntryResult :=
  if payload.length ≠ 24 then none
  else if readLe ((payload.drop 4).take 4) ≠ 0 ∨ readLe ((payload.drop 12).take 4) ≠ 0 then none
  else some ⟨readLe (payload.take 4), readInt32 (payload.drop 8), readLe (payload.drop 16)⟩

/-- The code of an `Error` frame; `unpack_error` leaves it 0 where the payload is too short. -/
def errorCode (payload : List UInt8) : Int := if payload.length < 4 then 0 else readInt32 payload

structure BrokerEntry where
  hasCrc32 : Bool
  crc32 : BitVec 32

/-- What `start` has settled: `entries_` and `limits_`.  The counters that are held against the
limits are `uint64`s of the source; their sums are exact up to `2 ^ 64` bytes. -/
structure Policy where
  entries : List BrokerEntry
  maxMemberBytes : Nat
  maxTotalBytes : Nat

/-- `WorkerBroker` behind the scan; `reads` are the bytes that each `read_some` gives, and none
at the end of the channel. -/
structure WorkerBroker where
  ready : Bool := true
  totalEmitted : Nat := 0
  reader : FrameReader
  reads : List (List UInt8)

/-- The arguments of a call, with the sink's answer to a chunk behind what it has got, and
whether the request can be sent. -/
structure ExtractCall where
  index : Nat
  sink : List UInt8 → List UInt8 → Bool
  sends : Bool

/-- A call that is under way, with the bytes for the sink and the frames that were looked at. -/
structure Extraction where
  memberBytes : Nat := 0
  totalEmitted : Nat
  crc : BitVec 32 := 0#32
  delivered : List UInt8 := []
  taken : List Frame := []

section Extract

variable (p : Policy) (call : ExtractCall) (entry : BrokerEntry)

/-- One frame; a frame that ends the call gives its code, and whether the worker lives on. -/
def onFrame (x : Extraction) (f : Frame) : Extraction × Option (Int × Bool) :=
  let x := { x with taken := x.taken ++ [f] }
  let size := f.payload.length
  if f.type = .dataChunk then
    if x.memberBytes + size > p.maxMemberBytes ∨ x.totalEmitted + size > p.maxTotalBytes then
      (x, some (rarErrLimitExceeded, false))
    else
      let y := { x with crc := crc32From x.crc f.payload, delivered := x.delivered ++ f.payload }
      if !call.sink x.delivered f.payload then (y, some (rarErrAborted, false))
      else
        ({ y with memberBytes := x.memberBytes + size, totalEmitted := x.totalEmitted + size }, none)
  else if f.type = .entryResult then
    match unpackEntryResult f.payload with
    | none => (x, some (rarErrIo, false))
    | some er =>
      if er.entryIndex ≠ call.index then (x, some (rarErrIo, false))
      else if er.rc = rarOk ∧ entry.hasCrc32 ∧ x.crc ≠ entry.crc32 then
        (x, some (rarErrCrcMismatch, false))
      else (x, some (er.rc, true))
  else if f.type = .error then (x, some (errorCode f.payload, true))
  else (x, some (rarErrIo, false))

/-- The frames of one `recv`; those behind the end of the call are dropped. -/
def onFrames : Extraction → List Frame → Extraction × Option (Int × Bool)
  | x, [] => (x, none)
  | x, f :: rest =>
    match onFrame p call entry x f with
    | (x, none) => onFrames x rest
    | (x, some verdict) => (x, some verdict)

/-- `recv` and the loop around it: a read without a whole frame is followed by the next. -/
def extractLoop : List (List UInt8) → FrameReader → Extraction →
    Extraction × (Int × Bool) × FrameReader × List (List UInt8)
  | [], r, x => (x, (rarErrContainmentBreach, false), r, [])
  | piece :: rest, r, x =>
    let (verdict, r, frames) := r.feed piece []
    if piece = [] ∨ verdict = .poisoned then (x, (rarErrContainmentBreach, false), r, rest)
    else
      match onFrames p call entry x frames with
      | (x, none) => extractLoop rest r x
      | (x, some verdict) => (x, verdict, r, rest)

end Extract

/-- What a call returns, what it has delivered and the frames that it has looked at. -/
structure ExtractResult where
  index : Nat
  rc : Int
  delivered : List UInt8 := []
  taken : List Frame := []
  deriving DecidableEq

/-- `WorkerBroker::extract` -/
def extract (p : Policy) (b : WorkerBroker) (call : ExtractCall) : ExtractResult × WorkerBroker :=
  if !b.ready then ({ index := call.index, rc := rarErrInvalidArg }, b)
  else
    match p.entries[call.index]? with
    | none => ({ index := call.index, rc := rarErrInvalidArg }, b)
    | some entry =>
      if !call.sends then
        ({ index := call.index, rc := rarErrContainmentBreach }, { b with ready := false })
      else
        let (x, (rc, alive), r, reads) :=
          extractLoop p call entry b.reads b.reader { totalEmitted := b.totalEmitted }
        (⟨call.index, rc, x.delivered, x.taken⟩, ⟨alive, x.totalEmitted, r, reads⟩)

def extractAll (p : Policy) : WorkerBroker → List ExtractCall → List ExtractResult
  | _, [] => []
  | b, call :: calls => (extract p b call).1 :: extractAll p (extract p b call).2 calls

/-! ## What success rests on -/

/-- The worker reports success for the entry. -/
def Frame.Vouches (index : Nat) (f : Frame) : Prop :=
  f.type = .entryResult ∧
    ∃ er, unpackEntryResult f.payload = some er ∧ er.entryIndex = index ∧ er.rc = rarOk

/-- An error whose code is that of success. -/
def Frame.Forges (f : Frame) : Prop := f.type = .error ∧ errorCode f.payload = rarOk

variable {p : Policy} {spent : Nat} {call : ExtractCall} {entry : BrokerEntry} {x : Extraction}

/-- A call between two frames. -/
structure Extraction.Sound (p : Policy) (spent : Nat) (x : Extraction) : Prop where
  crc : x.crc = crc32From 0#32 x.delivered
  member : x.memberBytes = x.delivered.length
  member_le : x.memberBytes ≤ p.maxMemberBytes
  total : x.totalEmitted = spent + x.delivered.length
  total_le : x.totalEmitted ≤ p.maxTotalBytes
  chunks : ∀ f ∈ x.taken, f.type = .dataChunk

/-- A call that has ended. -/
structure Extraction.Ended (p : Policy) (spent : Nat) (call : ExtractCall) (entry : BrokerEntry)
    (x : Extraction) (rc : Int) (alive : Bool) : Prop where
  member_le : x.delivered.length ≤ p.maxMemberBytes
  total_le : spent + x.delivered.length ≤ p.maxTotalBytes
  total : alive = true → x.totalEmitted = spent + x.delivered.length
  honest : (rc = rarOk → (∃ f ∈ x.taken, f.Vouches call.index) ∧
    (entry.hasCrc32 → crc32From 0#32 x.delivered = entry.crc32)) ↔ ¬ ∃ f ∈ x.taken, f.Forges

/-- A call goes on, or has ended. -/
def Extraction.Kept (p : Policy) (spent : Nat) (call : ExtractCall) (entry : BrokerEntry) :
    Extraction × Option (Int × Bool) → Prop
  | (x, none) => x.Sound p spent
  | (x, some (rc, alive)) => x.Ended p spent call entry rc alive

/-- Behind chunks only the last frame counts. -/
theorem exists_snoc {P : Frame → Prop} {taken : List Frame} {f : Frame}
    (hchunks : ∀ g ∈ taken, g.type = .dataChunk) (hP : ∀ g, P g → g.type ≠ .dataChunk) :
    (∃ g ∈ taken ++ [f], P g) ↔ P f := by
  constructor
  · rintro ⟨g, hg, hPg⟩
    rcases mem_append.mp hg with hg | hg
    · exact absurd (hchunks g hg) (hP g hPg)
    · rwa [← mem_singleton.mp hg]
  · exact fun hPf => ⟨f, by simp, hPf⟩

namespace Extraction.Sound

variable (h : Sound p spent x)
include h

/-- A call that ends at a frame, where nothing more was delivered. -/
theorem ended {f : Frame} {rc : Int} (alive : Bool)
    (hrc : (rc = rarOk → f.Vouches call.index ∧ (entry.hasCrc32 → x.crc = entry.crc32)) ↔
      ¬ f.Forges) :
    Ended p spent call entry { x with taken := x.taken ++ [f] } rc alive := by
  refine ⟨h.member ▸ h.member_le, h.total ▸ h.total_le, fun _ => h.total, ?_⟩
  rw [exists_snoc h.chunks fun g hg => by rw [hg.1]; decide,
    exists_snoc h.chunks fun g hg => by rw [hg.1]; decide, ← h.crc]
  exact hrc

/-- A call that is given up at a frame. -/
theorem refused {f : Frame} {rc : Int} (hf : f.type ≠ .error) (hrc : rc ≠ rarOk) :
    Ended p spent call entry { x with taken := x.taken ++ [f] } rc false :=
  h.ended false (iff_of_true (fun hok => absurd hok hrc) fun hforges => hf hforges.1)

theorem onFrame (f : Frame) : Kept p spent call entry (onFrame p call entry x f) := by
  have hmember := h.member
  have htotal := h.total
  unfold Sandbox.onFrame
  dsimp only
  split_ifs with hdata hlimit hsink hresult herror
  · exact h.refused (by rw [hdata]; decide) (by decide)
  · -- the chunk was passed on, within the limits, and is not counted any more
    rw [not_or] at hlimit
    refine ⟨by rw [length_append]; omega, by rw [length_append]; omega, nofun, ?_⟩
    have hended : Ended p spent call entry { x with taken := x.taken ++ [f] } rarErrAborted false :=
      h.refused (by rw [hdata]; decide) (by decide)
    exact iff_of_true nofun (hended.honest.mp nofun)
  · rw [not_or] at hlimit
    refine ⟨?_, ?_, by dsimp only; omega, ?_, by dsimp only; omega, ?_⟩
    · rw [crc32From_append, ← h.crc]
    · rw [length_append, hmember]
    · rw [length_append, htotal, Nat.add_assoc]
    · intro g hg
      rcases mem_append.mp hg with hg | hg
      · exact h.chunks g hg
      · rw [mem_singleton.mp hg, hdata]
  · split
    · exact h.refused (by rw [hresult]; decide) (by decide)
    · next er her =>
      split_ifs with hindex hcrc
      · exact h.refused (by rw [hresult]; decide) (by decide)
      · exact h.refused (by rw [hresult]; decide) (by decide)
      · refine h.ended true
          (iff_of_true (fun hok => ⟨⟨hresult, er, her, not_not.mp hindex, hok⟩, ?_⟩) ?_)
        · intro hhas
          by_contra hne
          exact hcrc ⟨hok, hhas, hne⟩
        · rintro ⟨herror, -⟩
          rw [hresult] at herror
          cases herror
  · refine h.ended true ⟨fun hhonest hforges => ?_, fun hforges hok => absurd ⟨herror, hok⟩ hforges⟩
    exact hresult (hhonest hforges.2).1.1
  · exact h.refused herror (by decide)

theorem onFrames (frames : List Frame) :
    Kept p spent call entry (onFrames p call entry x frames) := by
  induction frames generalizing x with
  | nil => exact h
  | cons f rest ih =>
    have hkept := @onFrame p spent call entry x h f
    rw [Sandbox.onFrames]
    split
    · next hgo =>
      rw [hgo] at hkept
      exact ih hkept
    · next hend => rwa [hend] at hkept

/-- A channel that closes or breaks ends the call without a frame. -/
theorem closed : Ended p spent call entry x rarErrContainmentBreach false := by
  refine ⟨h.member ▸ h.member_le, h.total ▸ h.total_le, nofun, iff_of_true nofun ?_⟩
  rintro ⟨f, hf, herror, -⟩
  rw [h.chunks f hf] at herror
  cases herror

theorem extractLoop (reads : List (List UInt8)) (r : FrameReader) :
    Ended p spent call entry (extractLoop p call entry reads r x).1
      (extractLoop p call entry reads r x).2.1.1 (extractLoop p call entry reads r x).2.1.2 := by
  induction reads generalizing r x with
  | nil => exact h.closed
  | cons piece rest ih =>
    rw [Sandbox.extractLoop]
    dsimp only
    split
    · exact h.closed
    · have hkept := @onFrames p spent call entry x h (r.feed piece []).2.2
      split
      · next hgo =>
        rw [hgo] at hkept
        exact ih hkept _
      · next hend => rwa [hend] at hkept

end Extraction.Sound

/-- A success is honest: the worker has reported it, and the checksum is the announced one. -/
def ExtractResult.Honest (p : Policy) (result : ExtractResult) : Prop :=
  result.rc = rarOk → (∃ f ∈ result.taken, f.Vouches result.index) ∧
    ∀ entry ∈ p.entries[result.index]?,
      entry.hasCrc32 → crc32From 0#32 result.delivered = entry.crc32

/-- What holds of a call behind `spent` bytes, and of the broker after it. -/
structure Reported (p : Policy) (spent : Nat) (result : ExtractResult) (b : WorkerBroker) :
    Prop where
  honest : result.Honest p ↔ ¬ ∃ f ∈ result.taken, f.Forges
  member_le : result.delivered.length ≤ p.maxMemberBytes
  total_le : spent + result.delivered.length ≤ p.maxTotalBytes
  total : b.ready = true → b.totalEmitted = spent + result.delivered.length

variable {b : WorkerBroker}

theorem extract_reported (call : ExtractCall) (hspent : spent ≤ p.maxTotalBytes)
    (hready : b.ready = true → b.totalEmitted = spent) :
    Reported p spent (extract p b call).1 (extract p b call).2 := by
  -- a call that comes to no frame
  have hnone : ∀ {rc : Int} {b' : WorkerBroker}, rc ≠ rarOk →
      (b'.ready = true → b'.totalEmitted = spent) →
        Reported p spent { index := call.index, rc := rc } b' :=
    fun hrc htotal => ⟨iff_of_true (fun hok => absurd hok hrc) (by simp), Nat.zero_le _, hspent,
      htotal⟩
  unfold extract
  split
  · exact hnone (by decide) hready
  · next hb =>
    split
    · exact hnone (by decide) hready
    · next entry hentry =>
      split
      · exact hnone (by decide) nofun
      · have htotal := hready (by simpa using hb)
        have hsound : Extraction.Sound p spent { totalEmitted := b.totalEmitted } :=
          ⟨by simp [crc32From, crcUpdate], rfl, Nat.zero_le _, htotal,
            htotal.trans_le hspent, by simp⟩
        have hended := @Extraction.Sound.extractLoop _ _ call entry _ hsound b.reads b.reader
        refine ⟨?_, hended.member_le, hended.total_le, hended.total⟩
        simpa [ExtractResult.Honest, hentry] using hended.honest

theorem extractAll_reported (calls : List ExtractCall) (hspent : spent ≤ p.maxTotalBytes)
    (hready : b.ready = true → b.totalEmitted = spent) :
    (∀ r ∈ extractAll p b calls, (r.Honest p ↔ ¬ ∃ f ∈ r.taken, f.Forges) ∧
        r.delivered.length ≤ p.maxMemberBytes) ∧
      spent + ((extractAll p b calls).map fun r => r.delivered.length).sum ≤ p.maxTotalBytes := by
  induction calls generalizing b spent with
  | nil => exact ⟨by simp [extractAll], hspent⟩
  | cons call calls ih =>
    have hfirst := extract_reported call hspent hready
    obtain ⟨hrest, hsum⟩ := ih hfirst.total_le hfirst.total
    rw [extractAll, map_cons, sum_cons, ← Nat.add_assoc]
    exact ⟨forall_mem_cons.mpr ⟨⟨hfirst.honest, hfirst.member_le⟩, hrest⟩, hsum⟩

/-- **A worker forges a success only with an error whose code is that of success.**  The limits
hold for every worker. -/
theorem extract_honest_iff (p : Policy) (reader : FrameReader) (reads : List (List UInt8))
    (calls : List ExtractCall) :
    let results := extractAll p { reader := reader, reads := reads } calls
    (∀ r ∈ results, r.Honest p) ∧ (∀ r ∈ results, r.delivered.length ≤ p.maxMemberBytes) ∧
        (results.map fun r => r.delivered.length).sum ≤ p.maxTotalBytes ↔
      ∀ r ∈ results, ¬ ∃ f ∈ r.taken, f.Forges := by
  intro results
  obtain ⟨hall, hsum⟩ := @extractAll_reported p 0 { reader := reader, reads := reads } calls
    (Nat.zero_le _) fun _ => rfl
  rw [Nat.zero_add] at hsum
  constructor
  · exact fun hhonest r hr => (hall r hr).1.mp (hhonest.1 r hr)
  · exact fun hforges => ⟨fun r hr => (hall r hr).1.mpr (hforges r hr),
      fun r hr => (hall r hr).2, hsum⟩

/-- An empty `Error` frame is a success for an entry with a checksum, and nothing is delivered. -/
theorem extract_forged :
    (extract ⟨[⟨true, 0x352441C2#32⟩], 100, 100⟩ { reader := {}, reads := [[0, 0, 0, 0, 9]] }
      ⟨0, fun _ _ => true, true⟩).1 = ⟨0, rarOk, [], [⟨.error, []⟩]⟩ := by
  decide

end OpenRar.Sandbox
