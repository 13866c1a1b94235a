import OpenRar.Compress.Filters50
import OpenRar.Foundation.RingHistory

/-!
# The apply engine

Embedding of `Decompressor50::ApplyEngine`: the ring window, the match copy, the
queue of filter regions and the flush of decoded bytes to the caller.  The
sequential decoder and the record applier drive the same engine.

The window is a function of the slot; growing it in place does not change what a
slot holds, so the allocated capacity is not part of the state, and allocation is
taken to succeed.  The bytes handed to the output callback are collected in
`emitted`, one entry per call, and the callback accepts them.  `none` is the
source's `false`.
-/

namespace OpenRar.Compress

open OpenRar.Core RingHistory

/-- `FilterEntry` -/
structure FilterEntry where
  type : Nat
  channels : Nat
  blockStart : Nat
  fileOffset : Nat
  blockLength : Nat
  deriving DecidableEq, Repr

/-- The inverse transform of a region; undefined types emit it as it is. -/
def FilterEntry.apply (f : FilterEntry) (region : List UInt8) : List UInt8 :=
  match f.type with
  | 0 => (applyDelta region f.channels).getD region
  | 1 => applyE8 region f.fileOffset false
  | 2 => applyE8 region f.fileOffset true
  | 3 => applyArm region f.fileOffset
  | _ => region

/-- `ApplyEngine`; `filters` are the entries that are not consumed yet. -/
structure ApplyEngine where
  winSize : Nat
  window : Nat → UInt8
  winPos : Nat
  firstWinDone : Bool
  filters : List FilterEntry
  lastFlushed : Nat
  emitted : List (List UInt8)

namespace ApplyEngine

/-- `init`: the window has at least 64 KiB. -/
def init (winSize : Nat) : ApplyEngine where
  winSize := max winSize 0x10000
  window := fun _ => 0
  winPos := 0
  firstWinDone := false
  filters := []
  lastFlushed := 0
  emitted := []

variable (engine : ApplyEngine)

/-- `wrap_up`: masks when the window size is a power of two. -/
def wrapUp (pos : Nat) : Nat :=
  if engine.winSize &&& (engine.winSize - 1) = 0 then pos &&& (engine.winSize - 1)
  else if pos ≥ engine.winSize then pos - engine.winSize
  else pos

/-- `flush_cadence` -/
def flushCadence : Nat :=
  min 65536 (engine.winSize / 2)

/-- `reset_window` -/
def resetWindow : ApplyEngine :=
  { engine with winPos := 0, firstWinDone := false }

/-- Move the write position past `count` slots. -/
def advance (count : Nat) : ApplyEngine :=
  let pos := engine.wrapUp (engine.winPos + count)
  { engine with winPos := pos, firstWinDone := engine.firstWinDone || pos == 0 }

/-- `write_literal` -/
def writeLiteral (slot : Nat) : ApplyEngine :=
  { engine with window := setBlock engine.window engine.winPos (UInt8.ofNat slot) 1 }.advance 1

/-! ## Match copy -/

/-- References past the written data decode as zeros on the first pass. -/
def zeroRun : Nat → Nat → ApplyEngine → ApplyEngine
  | 0, _, engine => engine
  | fuel + 1, rem, engine =>
    if rem = 0 then engine
    else
      let chunk := min rem (engine.winSize - engine.winPos)
      zeroRun fuel (rem - chunk)
        ({ engine with window := setBlock engine.window engine.winPos 0 chunk }.advance chunk)

/-- Doubling of a run inside the window: `done` slots behind `winPos` are
written.  Returns the window and the number of slots written. -/
def doubleRun (winSize winPos : Nat) : Nat → Nat → Nat → (Nat → UInt8) → (Nat → UInt8) × Nat
  | 0, done, _, window => (window, done)
  | fuel + 1, done, remaining, window =>
    let step := min (min done remaining) (winSize - (winPos + done))
    if step = 0 then (window, done)
    else doubleRun winSize winPos fuel (done + step) (remaining - step)
      (moveBlock window (winPos + done) winPos step)

/-- Distance of two slots in the buffer. -/
def slotGap (src dst : Nat) : Nat :=
  if src < dst then dst - src else src - dst

/-- One pass of the copy loop: a block move up to the next ring end or overlap,
continued by doubling once a whole period is there.  Returns the window and the
number of slots written. -/
def copyChunk (distance src length : Nat) : (Nat → UInt8) × Nat :=
  let chunk := min (min (min length (engine.winSize - engine.winPos)) (engine.winSize - src))
    (slotGap src engine.winPos)
  let window := moveBlock engine.window engine.winPos src chunk
  if chunk < length ∧ chunk ≥ distance then
    doubleRun engine.winSize engine.winPos length chunk (length - chunk) window
  else (window, chunk)

/-- The chunked copy loop. -/
def chunkLoop (distance : Nat) : Nat → Nat → Nat → ApplyEngine → ApplyEngine
  | 0, _, _, engine => engine
  | fuel + 1, src, length, engine =>
    if length = 0 then engine
    else
      let result := engine.copyChunk distance src length
      chunkLoop distance fuel (engine.wrapUp (src + result.2)) (length - result.2)
        ({ engine with window := result.1 }.advance result.2)

/-- `copy_match` -/
def copyMatch (distance length : Nat) : ApplyEngine :=
  if distance = 0 ∨ distance > engine.winSize then engine
  else
    let src := engine.wrapUp (engine.winPos + engine.winSize - distance)
    if distance > engine.winPos ∧ ¬ engine.firstWinDone then zeroRun length length engine
    else if src = engine.winPos then engine.advance length
    else if distance = 1 ∧ engine.winPos + length ≤ engine.winSize then
      { engine with
        window := setBlock engine.window engine.winPos (engine.window src) length }.advance length
    else if src + length ≤ engine.winSize ∧ engine.winPos + length ≤ engine.winSize
        ∧ slotGap src engine.winPos ≥ length then
      { engine with window := moveBlock engine.window engine.winPos src length }.advance length
    else chunkLoop distance length src length engine

/-! ## Flush -/

/-- `count` slots from `start` on, wrapping at the end of the ring. -/
def ringBytes (start count : Nat) : List UInt8 :=
  (List.range count).map fun i => engine.window ((start + i) % engine.winSize)

/-- The loop of `flush_plain_up_to`: one callback per contiguous run. -/
def flushLoop (totalWritten target : Nat) : Nat → ApplyEngine → ApplyEngine
  | 0, engine => engine
  | fuel + 1, engine =>
    if engine.lastFlushed < target then
      let back := (totalWritten - engine.lastFlushed) % engine.winSize
      let circStart := (engine.winPos + engine.winSize - back) % engine.winSize
      let chunk := min (target - engine.lastFlushed) (engine.winSize - circStart)
      flushLoop totalWritten target fuel
        { engine with
          lastFlushed := engine.lastFlushed + chunk
          emitted := engine.emitted ++ [engine.ringBytes circStart chunk] }
    else engine

/-- `flush_plain_up_to` -/
def flushPlainUpTo (target totalWritten destSize : Nat) : Option ApplyEngine :=
  if engine.lastFlushed > totalWritten then none
  else if totalWritten - engine.lastFlushed > engine.winSize then none
  else
    let target := min (min target destSize) totalWritten
    some (flushLoop totalWritten target (target - engine.lastFlushed) engine)

/-- A region whose last byte has been written. -/
def regionComplete (f : FilterEntry) (absPos : Nat) : Bool :=
  f.blockStart ≤ absPos && f.blockLength ≤ absPos - f.blockStart

/-- Start of a region in the frame of the call. -/
def localRegionStart (f : FilterEntry) (baseAtEntry : Nat) : Nat :=
  if f.blockStart > baseAtEntry then f.blockStart - baseAtEntry else 0

/-- Emission of one complete region. -/
def emitRegion (f : FilterEntry) (baseAtEntry totalWritten destSize : Nat) : Option ApplyEngine :=
  let absPos := baseAtEntry + totalWritten
  let prior := if f.blockStart < baseAtEntry then baseAtEntry - f.blockStart else 0
  if prior > f.blockLength then none
  else if f.blockLength = 0 then some engine
  else if absPos - f.blockStart ≥ engine.winSize then none
  else
    let back := (absPos - f.blockStart) % engine.winSize
    let circStart := (engine.winPos + engine.winSize - back) % engine.winSize
    if destSize ≠ sizeMax ∧ prior ≠ 0 then none
    else if destSize ≠ sizeMax ∧ (engine.lastFlushed > destSize
        ∨ f.blockLength > destSize - engine.lastFlushed) then none
    else
      some
        { engine with
          lastFlushed := engine.lastFlushed + (f.blockLength - prior)
          emitted := engine.emitted ++ [f.apply (engine.ringBytes circStart f.blockLength)] }

/-- The queue loop of `flush_pending`. -/
def flushQueue (flushAll : Bool) (baseAtEntry totalWritten destSize : Nat) :
    List FilterEntry → ApplyEngine → Option ApplyEngine
  | [], engine => some { engine with filters := [] }
  | f :: rest, engine =>
    if regionComplete f (baseAtEntry + totalWritten) then do
      let regionLocal := localRegionStart f baseAtEntry
      let engine ←
        if engine.lastFlushed < regionLocal then
          engine.flushPlainUpTo regionLocal totalWritten destSize
        else some engine
      let engine ← engine.emitRegion f baseAtEntry totalWritten destSize
      flushQueue flushAll baseAtEntry totalWritten destSize rest engine
    else if flushAll then
      if f.blockLength ≠ 0 then none
      else flushQueue flushAll baseAtEntry totalWritten destSize rest engine
    else some { engine with filters := f :: rest }

/-- `flush_pending` -/
def flushPending (flushAll : Bool)
    (baseAtEntry totalWritten destSize : Nat) : Option ApplyEngine := do
  let engine ← flushQueue flushAll baseAtEntry totalWritten destSize engine.filters engine
  let safeLimit :=
    if flushAll then totalWritten
    else engine.filters.foldl (fun limit f => min limit (localRegionStart f baseAtEntry))
      totalWritten
  engine.flushPlainUpTo safeLimit totalWritten destSize

/-- `has_completed_filter` -/
def hasCompletedFilter (baseAtEntry totalWritten : Nat) : Bool :=
  match engine.filters with
  | [] => false
  | f :: _ => regionComplete f (baseAtEntry + totalWritten)

/-- The flush check between tokens. -/
def cadence (baseAtEntry totalWritten destSize : Nat) : Option ApplyEngine :=
  if totalWritten - engine.lastFlushed < engine.flushCadence
      ∧ ¬ engine.hasCompletedFilter baseAtEntry totalWritten then some engine
  else engine.flushPending false baseAtEntry totalWritten destSize

end ApplyEngine

end OpenRar.Compress
