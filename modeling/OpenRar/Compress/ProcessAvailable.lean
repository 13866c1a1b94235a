import OpenRar.Compress.ForwardArrival

/-!
# The main loop of the encoder

Embedding of `process_available` and of `compress`.  One pass of the loop loads
input, opens a filter region, flushes a full block and emits one token; it goes on,
stops because nothing is left or more input has to arrive first, or fails.
-/

namespace OpenRar.Compress

open OpenRar.Core

/-- The transform of one chunk, as the encoder applies it; the delta transform refuses
channel counts that the detection never returns. -/
def encodeChunk (type : FilterType) (channels offset : Nat) (chunk : List UInt8) : List UInt8 :=
  match type with
  | .e8 => encodeE8 chunk offset false
  | .e8e9 => encodeE8 chunk offset true
  | .arm => encodeArm chunk offset
  | .delta => (encodeDelta chunk channels).getD chunk
  | .none => chunk

/-- `filter_max_chunk` -/
def filterMaxChunk (winSize : Nat) : Nat :=
  if winSize > 0x20000 ∧ winSize / 2 < 0x100000 then winSize / 2
  else if winSize ≤ 0x20000 then if winSize > 4 then winSize / 2 else 1
  else 0x100000

namespace Compressor50

variable (c : Compressor50)

/-- How a pass of the loop ends: `return -1`, `return 0` or `break`, `continue`. -/
inductive Pass
  | fail
  | stop (c : Compressor50)
  | again (c : Compressor50)

/-! ## Tokens and the bytes they cover -/

/-- Advance over the literal at the current position. -/
def coverLiteral : Compressor50 :=
  { c with
    cur := c.cur + 1
    inputSinceBlock := c.inputSinceBlock + 1
    unhashedPos := c.cur + 1 }

/-- A literal of the search paths: its position is hashed. -/
def emitLiteral : Compressor50 :=
  ((c.addLiteral (c.byteAt c.cur)).insertPosition c.cur).coverLiteral

/-- Advance over a copy. -/
def coverCopy (len : Nat) : Compressor50 :=
  let stop := min (c.cur + len) c.srcLoaded
  { c.hashRange c.cur stop with
    cur := stop
    inputSinceBlock := c.inputSinceBlock + len
    unhashedPos := stop }

def bumpFail : Compressor50 := { c with failCount := (c.failCount + 1) % 2 ^ 32 }

/-- A long token ends a run of failed searches. -/
def clearFail (len : Nat) : Compressor50 :=
  if len ≥ 8 then { c with failCount := 0 } else c

/-- `size_t` length that a fresh match covers; zero leaves a literal. -/
def emitMatch (len dist : Nat) : Compressor50 :=
  let (c', actual) := c.addMatch len dist
  if actual = 0 then c.bumpFail.emitLiteral else c'.coverCopy actual

/-- The branches of the forward-arrival path. -/
def emitDecision : Decision → Compressor50
  | .literal => c.bumpFail.emitLiteral
  | .match_ len dist => (c.clearFail len).emitMatch len dist
  | .rep index len => ((c.clearFail len).addRep index len).coverCopy len
  | .lastLen len => (c.clearFail len).addLastLen.coverCopy len

/-! ## The search at one position -/

/-- A filter region is open at the current position. -/
def inRegion : Bool :=
  c.activeFilter ≠ .none && c.filterEmittedUntil > c.cur

/-- `cur_max_lz` -/
def curMaxLz : Nat :=
  if c.inRegion then min maxLzMatch (c.filterEmittedUntil - c.cur) else maxLzMatch

/-- `cur_nice_len` -/
def curNiceLen : Nat :=
  if c.inRegion then min c.niceLen (c.filterEmittedUntil - c.cur) else c.niceLen

/-- `search_chain`: long runs without a match are searched less often. -/
def searchChain : Nat :=
  let skipMask :=
    if c.failCount > 0x1000 then 31
    else if c.failCount > 0x800 then 15
    else if c.failCount > 0x400 then 7
    else 3
  if c.failCount > 0x100 ∧ c.failCount % (skipMask + 1) ≠ 0 then 0 else c.maxChain

/-- The fresh match at a position, clamped to a room. -/
def searchAt (chain pos room : Nat) : MatchInfo :=
  let best := if chain > 0 then c.findMatch pos chain c.niceLen else ⟨0, none⟩
  { best with length := min best.length room }

/-- One turn of the scan over the repeat distances. -/
def scanRep (room : Nat) (best : Nat × Option Nat) (i : Nat) : Nat × Option Nat :=
  let d := c.oldDist.getD i 0
  if d = sizeMax ∨ d = 0 ∨ d > c.cur - c.posBase ∨ d > c.maxDist then best
  else if c.byteAt c.cur ≠ c.byteAt (c.cur - d) then best
  else
    let len := c.repLength c.cur d room
    if len > best.1 then (len, some i) else best

/-- The longest repeat match and its index. -/
def bestRep (room : Nat) : Nat × Option Nat :=
  (List.range 4).foldl (c.scanRep room) (0, none)

/-- The lazy test of the arbiter: the next position has a better match. -/
def lazyBetter (chain len dist room : Nat) : Bool :=
  let nextRoom :=
    if c.activeFilter ≠ .none ∧ c.filterEmittedUntil > c.cur + 1 then
      min room (c.filterEmittedUntil - (c.cur + 1))
    else room
  let next := c.searchAt chain (c.cur + 1) nextRoom
  let nextDist := match next.candidate with
    | some cand => c.cur + 1 - cand
    | none => 0
  c.lazyTests > 0 && len < c.curNiceLen && c.availAt c.cur > len + 1 && c.cur + 1 < c.srcSize &&
    (c.activeFilter = .none || c.cur + 1 < c.filterEmittedUntil) &&
    next.length - lengthIncrement nextDist > len - lengthIncrement dist + 1

/-- The branches of the arbiter without a repeat match. -/
def freshOrLiteral (chain len dist room : Nat) : Compressor50 :=
  if len ≥ c.minMatch ∧ len ≥ lengthIncrement dist + 2 then
    let c := c.clearFail len
    if c.lazyBetter chain len dist room then c.emitLiteral
    else
      let (c', actual) := c.addMatch len dist
      c'.coverCopy actual
  else c.bumpFail.emitLiteral

/-- `dist_f` -/
def freshDistance (best : MatchInfo) : Nat :=
  match best.candidate with
  | some cand => if best.length > 0 then c.cur - cand else 0
  | none => 0

/-- The arbiter between a repeat and a fresh match, with the forward-arrival parser
switched off. -/
def arbiter (chain : Nat) (best : MatchInfo) (repBestLen : Nat)
    (repIdx : Option Nat) (room : Nat) : Compressor50 :=
  let dist := c.freshDistance best
  match repIdx with
  | some idx =>
    if repBestLen ≥ c.minMatch ∧
        (best.length = 0 ∨ repBestLen + lengthIncrement dist ≥ best.length) then
      let c := c.clearFail repBestLen
      if ¬ c.lastlenSuppressed ∧ idx = 0 ∧ c.lastLength ≠ 0 ∧ repBestLen = c.lastLength then
        c.addLastLen.coverCopy c.lastLength
      else (c.addRep idx repBestLen).coverCopy repBestLen
    else c.freshOrLiteral chain best.length dist room
  | none => c.freshOrLiteral chain best.length dist room

/-- The forward-arrival path. -/
def arrival (best : MatchInfo) (repBestLen : Nat) (repIdx : Option Nat)
    (room : Nat) : Compressor50 :=
  if best.length < c.minMatch ∧ repBestLen < c.minMatch then c.emitDecision .literal
  else
    c.emitDecision
      (c.evaluateForwardArrival c.cur best.length best.candidate repBestLen repIdx room)

/-- Hash all positions before the current one. -/
def catchUp : Compressor50 :=
  { c.hashRange c.unhashedPos c.cur with unhashedPos := c.cur }

/-- The choice of the token at the current position. -/
def chooseToken : Compressor50 :=
  if c.inRegion ∧ c.filterEmittedUntil - c.cur < 2 then c.bumpFail.emitLiteral
  else
    let room := c.curMaxLz
    let chain := c.searchChain
    let best := c.searchAt chain c.cur room
    let (repBestLen, repIdx) := c.bestRep room
    if c.forwardArrivalEnable then c.arrival best repBestLen repIdx room
    else c.arbiter chain best repBestLen repIdx room

/-- The token at a position with at least four bytes ahead. -/
def searchToken : Compressor50 := c.catchUp.chooseToken

/-- The last bytes of the input are literals. -/
def tailLiteral : Compressor50 :=
  (c.addLiteral (c.byteAt c.cur)).coverLiteral

/-! ## Filter regions -/

/-- Transform the next chunk in the buffer. -/
def transformChunk (chunkLen : Nat) : Compressor50 :=
  let start := c.filterEmittedUntil
  let chunk := encodeChunk c.activeFilter c.filterChannels (start - c.fileStartPos)
    ((c.data.drop start).take chunkLen)
  { c with data := c.data.take start ++ chunk ++ c.data.drop (start + chunkLen) }

/-- Emit the filter token of the next chunk. -/
def openRegion (chunkLen : Nat) : Compressor50 :=
  { c.addFilter chunkLen c.activeFilter.code c.filterChannels with
    filterEmittedUntil := c.filterEmittedUntil + chunkLen }

/-- `chunk_len`: before the end of a streamed input is known only full chunks are
taken. -/
def nextChunkLen (final : Bool) : Nat :=
  if c.streaming ∧ ¬ final then filterMaxChunk c.winSize
  else min (c.srcSize - c.filterEmittedUntil) (filterMaxChunk c.winSize)

/-- Open the next filter region when the last one is used up. -/
def filterStep (final : Bool) : Pass :=
  if c.activeFilter ≠ .none ∧ c.filterEmittedUntil ≤ c.cur ∧ c.filterEmittedUntil < c.srcSize then
    let chunkLen := c.nextChunkLen final
    if chunkLen > 0 then
      if c.filterEmittedUntil > sizeMax - chunkLen then .fail
      else if ¬ c.externalBuf ∧ ¬ c.filterPretransformed then
        if c.filterEmittedUntil < c.posBase then .fail
        else
          let required := c.filterEmittedUntil + chunkLen
          let c := c.loadData required
          if c.srcLoaded < required then
            if c.srcEof ∨ ¬ c.streaming ∨ final then .fail else .stop c
          else .again ((c.transformChunk chunkLen).openRegion chunkLen)
      else .again (c.openRegion chunkLen)
    else .again c
  else .again c

/-! ## The loop -/

/-- Flush a full block. -/
def flushStep : Option Compressor50 :=
  if c.needFlush then { c with unhashedPos := c.cur }.writeBlock false else some c

/-- Make room in the input buffer. -/
def slideStep : Compressor50 :=
  if ¬ c.externalBuf ∧ c.cur ≥ c.posBase + c.bufSize - readChunk then c.slideWindow else c

/-- The part of a pass behind the filter step. -/
def tokenStep (final : Bool) : Pass :=
  match c.flushStep with
  | none => .fail
  | some c =>
    if c.streaming ∧ ¬ final ∧ c.cur + streamLookahead > c.srcLoaded then .stop c
    else if c.cur + 4 > c.srcLoaded then .again c.tailLiteral
    else .again c.searchToken

/-- A pass behind the load, with input ahead. -/
def passBody (final : Bool) : Pass :=
  match c.slideStep.filterStep final with
  | .fail => .fail
  | .stop c => .stop c
  | .again c => c.tokenStep final

/-- One pass of the loop. -/
def pass (final : Bool) : Pass :=
  let c := c.loadData (c.cur + 0x80000)
  if c.srcEof ∧ c.srcLoaded < c.srcSize then .fail
  else if c.cur ≥ c.srcLoaded then .stop c
  else c.passBody final

/-- The loop: every pass that goes on has covered a byte. -/
def passes (final : Bool) : Nat → Compressor50 → Option Compressor50
  | 0, _ => none
  | fuel + 1, c =>
    match c.pass final with
    | .fail => none
    | .stop c => some c
    | .again c => passes final fuel c

/-- `process_available`; `none` is the source's `-1`. -/
def processAvailable (final : Bool) : Option Compressor50 :=
  passes final (c.srcLoaded + c.source.length + 1 - c.cur) c

/-- `compress` -/
def compress (lastBlock : Bool) : Option Compressor50 := do
  let c ← { c.initMatchParams with failCount := 0 }.processAvailable false
  { c with unhashedPos := c.cur }.writeBlock lastBlock

end Compressor50

end OpenRar.Compress
