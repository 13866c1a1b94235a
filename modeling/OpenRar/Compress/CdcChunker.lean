import OpenRar.Foundation.GearHash

/-!
# Content-defined chunking

`CdcStreamChunker`, which cuts a stream as it is fed, and `chunk_parallel`, which scans
slices of a buffer for candidate positions and then replays the cut rules over the
candidates.  The constructor of `CdcChunker` takes no arguments: one table, two masks and
three sizes are all the configurations there are.
-/

namespace OpenRar.Compress

open GearHash

/-! ## The chunker -/

/-- `splitmix64`: the next state and its output. -/
def splitmix64 (state : UInt64) : UInt64 × UInt64 :=
  let state := state + 0x9E3779B97F4A7C15
  let z := (state ^^^ (state >>> 30)) * 0xBF58476D1CE4E5B9
  let z := (z ^^^ (z >>> 27)) * 0x94D049BB133111EB
  (state, z ^^^ (z >>> 31))

/-- Successive outputs of `splitmix64`. -/
def gearEntries : Nat → UInt64 → List UInt64
  | 0, _ => []
  | n + 1, state => (splitmix64 state).2 :: gearEntries n (splitmix64 state).1

structure CdcChunk where
  offset : Nat
  length : Nat
  hash : UInt64
  deriving DecidableEq

structure CdcChunker where
  table : List UInt64
  maskStrict : UInt64
  maskLight : UInt64

namespace CdcChunker

def minChunk : Nat := 16 * 1024
def maxChunk : Nat := 256 * 1024
def avgChunk : Nat := 64 * 1024

/-- The constructor. -/
def new : CdcChunker where
  table := gearEntries 256 0x243F6A8885A308D3
  maskStrict := 0xFFFF800000000000
  maskLight := 0xFFFE000000000000

def entry (c : CdcChunker) (b : UInt8) : UInt64 := c.table.getD b.toNat 0

/-- `hash_range` -/
def hashRange (c : CdcChunker) (bytes : List UInt8) : UInt64 := gearHash c.entry 0 bytes

def isStrict (c : CdcChunker) (h : UInt64) : Bool := h &&& c.maskStrict == 0

def isLight (c : CdcChunker) (h : UInt64) : Bool := h &&& c.maskLight == 0

end CdcChunker

/-! ## Streaming -/

/-- The state of a `CdcStreamChunker`. -/
structure CdcStream where
  h : UInt64 := 0
  pendingSize : Nat := 0
  fed : Nat := 0

namespace CdcStream

open CdcChunker

variable (c : CdcChunker)

/-- One byte of the input. -/
def absorb (s : CdcStream) (b : UInt8) : CdcStream where
  h := roll c.entry s.h b
  pendingSize := s.pendingSize + 1
  fed := s.fed + 1

/-- `emit`: the pending bytes become a chunk. -/
def emit (s : CdcStream) (out : List CdcChunk) : CdcStream × List CdcChunk :=
  ({ s with h := 0, pendingSize := 0 }, out ++ [⟨s.fed - s.pendingSize, s.pendingSize, s.h⟩])

/-- The loop between the minimum and the average: at most `n` bytes, up to a strict
match.  The input that is left comes back with the state. -/
def strictLoop : Nat → CdcStream → List UInt8 → List CdcChunk →
    (CdcStream × List CdcChunk) × List UInt8
  | 0, s, data, out => ((s, out), data)
  | _ + 1, s, [], out => ((s, out), [])
  | n + 1, s, b :: data, out =>
    let s := absorb c s b
    if c.isStrict s.h then (emit s out, data) else strictLoop n s data out

/-- The loop beyond the average: up to a light match or the maximum. -/
def lightLoop : CdcStream → List UInt8 → List CdcChunk →
    (CdcStream × List CdcChunk) × List UInt8
  | s, [], out => ((s, out), [])
  | s, b :: data, out =>
    let s := absorb c s b
    if c.isLight s.h ∨ s.pendingSize = maxChunk then (emit s out, data)
    else lightLoop s data out

/-- The loop of `feed`.  Each turn takes a byte, so the length of the input is fuel
enough. -/
def feedLoop : Nat → CdcStream → List UInt8 → List CdcChunk → CdcStream × List CdcChunk
  | 0, s, _, out => (s, out)
  | fuel + 1, s, data, out =>
    if data = [] then (s, out)
    else
      -- No cut ends before the minimum: these bytes are only hashed.
      let skip :=
        if s.pendingSize < minChunk - 1 then min data.length (minChunk - 1 - s.pendingSize)
        else 0
      let s1 := (data.take skip).foldl (absorb c) s
      let data1 := data.drop skip
      if data1 = [] then (s1, out)
      else if s1.pendingSize < avgChunk - 1 then
        let strict := strictLoop c (avgChunk - 1 - s1.pendingSize) s1 data1 out
        if strict.1.1.pendingSize = 0 ∨ strict.2 = [] then
          feedLoop fuel strict.1.1 strict.2 strict.1.2
        else
          let light := lightLoop c strict.1.1 strict.2 strict.1.2
          feedLoop fuel light.1.1 light.2 light.1.2
      else
        let light := lightLoop c s1 data1 out
        feedLoop fuel light.1.1 light.2 light.1.2

def feed (s : CdcStream) (data : List UInt8) (out : List CdcChunk) : CdcStream × List CdcChunk :=
  feedLoop c data.length s data out

/-- `finish`: the tail is a chunk. -/
def finish (s : CdcStream) (out : List CdcChunk) : List CdcChunk :=
  if s.pendingSize > 0 then (emit s out).2 else out

/-- A stream fed in pieces. -/
def chunkPieces (pieces : List (List UInt8)) : List CdcChunk :=
  let fed := pieces.foldl (fun st piece => feed c st.1 piece st.2) ({}, [])
  finish fed.1 fed.2

end CdcStream

/-- `chunk` -/
def CdcChunker.chunk (c : CdcChunker) (data : List UInt8) : List CdcChunk :=
  let fed := CdcStream.feed c {} data []
  CdcStream.finish fed.1 fed.2

/-! ## Scanning slices -/

/-- The flags of a match: `MATCH_STRICT` and `MATCH_LIGHT`. -/
structure MatchFlags where
  strict : Bool
  light : Bool
  deriving DecidableEq

/-- Consecutive positions with the same flags. -/
structure CandidateInterval where
  startOff : Nat
  count : Nat
  flags : MatchFlags
  deriving DecidableEq

/-- `CdcParallelDiag` -/
structure CdcParallelDiag where
  fellBack : Bool := false
  fallbackReason : String := ""
  candidateIntervals : Nat := 0

namespace CdcChunker

variable (c : CdcChunker)

/-- The bytes from `a` up to `b`. -/
def segment (data : List UInt8) (a b : Nat) : List UInt8 := (data.take b).drop a

def matchFlags (h : UInt64) : MatchFlags := ⟨c.isStrict h, c.isLight h⟩

/-- The scan of a slice from position `i` on: `none` when there are too many intervals. -/
def scanLoop (maxIntervals : Nat) : UInt64 → Nat → List UInt8 → List CandidateInterval →
    Option (List CandidateInterval)
  | _, _, [], intervals => some intervals
  | h, i, b :: bytes, intervals =>
    let h := roll c.entry h b
    if c.isStrict h || c.isLight h then
      match intervals.getLast? with
      | some last =>
        if last.startOff + last.count = i ∧ last.flags = c.matchFlags h then
          scanLoop maxIntervals h (i + 1) bytes
            (intervals.dropLast ++ [{ last with count := last.count + 1 }])
        else if intervals.length ≥ maxIntervals then none
        else scanLoop maxIntervals h (i + 1) bytes (intervals ++ [⟨i, 1, c.matchFlags h⟩])
      | none =>
        if intervals.length ≥ maxIntervals then none
        else scanLoop maxIntervals h (i + 1) bytes (intervals ++ [⟨i, 1, c.matchFlags h⟩])
    else scanLoop maxIntervals h (i + 1) bytes intervals

/-- The end of slice `s`: the last slice takes what the division leaves. -/
def sliceEnd (size numSlices s : Nat) : Nat :=
  if s + 1 = numSlices then size else (s + 1) * (size / numSlices)

/-- One task: slice `s`, after a warm-up over the 63 bytes in front of it. -/
def scanSlice (data : List UInt8) (numSlices s : Nat) : Option (List CandidateInterval) :=
  let start := s * (data.length / numSlices)
  let stop := sliceEnd data.length numSlices s
  let warmupStart := if s = 0 then 0 else start - 63
  scanLoop c (max ((stop - start) / 1024) 64) (c.hashRange (segment data warmupStart start)) start
    (segment data start stop) []

/-! ## Replaying the cuts -/

/-- The search for a candidate with a flag, at `start` or behind it and in front of a
boundary, and the candidates from where it stopped. -/
def search (wanted : MatchFlags → Bool) (start boundary : Nat) :
    List CandidateInterval → Option Nat × List CandidateInterval
  | [] => (none, [])
  | ci :: rest =>
    if ci.startOff < boundary then
      if wanted ci.flags ∧ max ci.startOff start < boundary then
        (some (max ci.startOff start), ci :: rest)
      else search wanted start boundary rest
    else (none, ci :: rest)

/-- Strict matches up to the average. -/
def searchStrict (strictStart avgBoundary : Nat) (candidates : List CandidateInterval) :
    Option Nat × List CandidateInterval :=
  search MatchFlags.strict strictStart avgBoundary candidates

/-- Light matches beyond the average. -/
def searchLight (avgBoundary maxBoundary : Nat) (candidates : List CandidateInterval) :
    Option Nat × List CandidateInterval :=
  search MatchFlags.light avgBoundary maxBoundary candidates

/-- Skip the intervals that end at or before a position. -/
def skipTo (position : Nat) (candidates : List CandidateInterval) : List CandidateInterval :=
  candidates.dropWhile fun ci => decide (ci.startOff + ci.count ≤ position)

/-- The cut of one turn, among candidates that reach behind `strictStart`. -/
def findCut (strictStart avgBoundary maxBoundary : Nat) (candidates : List CandidateInterval) :
    Option Nat :=
  match searchStrict strictStart avgBoundary candidates with
  | (some cut, _) => some cut
  | (none, rest) => (searchLight avgBoundary maxBoundary (skipTo avgBoundary rest)).1

/-- The loop of the replay.  Each turn moves the last cut, so the size of the buffer is
fuel enough. -/
def replayLoop (data : List UInt8) : Nat → Nat → List CandidateInterval → List CdcChunk →
    Nat × List CdcChunk
  | 0, lastCut, _, out => (lastCut, out)
  | fuel + 1, lastCut, candidates, out =>
    if lastCut < data.length then
      if data.length - lastCut ≤ minChunk then (lastCut, out)
      else
        let strictStart := lastCut + minChunk - 1
        let avgBoundary := min data.length (lastCut + avgChunk - 1)
        let maxBoundary := min data.length (lastCut + maxChunk)
        let candidates := skipTo strictStart candidates
        match findCut strictStart avgBoundary maxBoundary candidates with
        | some cut =>
          replayLoop data fuel (cut + 1) candidates
            (out ++ [⟨lastCut, cut + 1 - lastCut,
              c.hashRange (segment data (cut + 1 - 64) (cut + 1))⟩])
        | none =>
          if maxBoundary = data.length then (lastCut, out)
          else
            replayLoop data fuel (lastCut + maxChunk) candidates
              (out ++ [⟨lastCut, maxChunk,
                c.hashRange (segment data (lastCut + maxChunk - 64) (lastCut + maxChunk))⟩])
    else (lastCut, out)

/-- What is left behind the last cut is the tail. -/
def replayTail (data : List UInt8) (st : Nat × List CdcChunk) : List CdcChunk :=
  let (lastCut, out) := st
  if lastCut < data.length then
    let tailLen := data.length - lastCut
    let hash :=
      if tailLen ≥ 64 then c.hashRange (segment data (data.length - 64) data.length)
      else c.hashRange (segment data lastCut data.length)
    out ++ [⟨lastCut, tailLen, hash⟩]
  else out

def replay (data : List UInt8) (candidates : List CandidateInterval) : List CdcChunk :=
  replayTail c data (replayLoop c data data.length 0 candidates [])

/-- The number of threads: of the pool, or of the machine but at most eight, if the caller
does not say. -/
def threadCount (threads : Nat) (pool : Option Nat) (hardwareConcurrency : Nat) : Nat :=
  if threads = 0 then
    match pool with
    | some workers => workers
    | none => min hardwareConcurrency 8
  else threads

/-- `chunk_parallel`.  The pool is given by its number of workers; its tasks write to slots
of their own, so that the order in which they run does not matter. -/
def chunkParallel (data : List UInt8) (threads : Nat) (pool : Option Nat)
    (hardwareConcurrency : Nat) : List CdcChunk × CdcParallelDiag :=
  if data.length = 0 then ([], {})
  else if data.length < 2 * maxChunk ∨ (threads = 1 ∧ pool = none) then (c.chunk data, {})
  else
    let threads := threadCount threads pool hardwareConcurrency
    if threads ≤ 1 ∧ pool.getD 0 ≤ 1 then (c.chunk data, {})
    else
      let numSlices := min threads (data.length / (2 * maxChunk))
      if numSlices ≤ 1 then (c.chunk data, {})
      else
        match (List.range numSlices).mapM (c.scanSlice data numSlices) with
        | none =>
          (c.chunk data,
            { fellBack := true
              fallbackReason := "candidate list overflow (exceeded range_len/1024)" })
        | some slices =>
          (c.replay data slices.flatten, { candidateIntervals := slices.flatten.length })

end CdcChunker

end OpenRar.Compress
