import OpenRar.Compress.BlockWriter

/-!
# The state of the encoder

Embedding of the data members of `Compressor50` and of the functions that change
them: the start of a session, loading and sliding of the input buffer, the token
adders and the flush of a block.

The input buffer is given by the bytes at absolute positions, so that sliding it
only moves `posBase`: the bytes before it are not in the buffer any more.  Tokens
are kept in one list in their order.  The checksum of the input, the counters of
packed bytes and the probes of the search do not influence the output and are left
out; the output goes to memory.
-/

namespace OpenRar.Compress

open OpenRar.Core

/-- `PriceModel`; prices are bits times 256. -/
structure PriceModel where
  litCost : Nat → Nat
  lenCost : Nat → Nat
  distCost : Nat → Nat
  repCost : Nat → Nat → Nat
  lddCost : Nat → Nat
  slot257Cost : Nat

namespace PriceModel

/-- `price_sym` -/
def priceSym (len : Nat) : Nat := if len ≠ 0 then len * 2 ^ 8 else 15 * 2 ^ 8

/-- `init_price_model` -/
def init : PriceModel where
  litCost := fun _ => 8 * 2 ^ 8
  lenCost := fun i => (if i < 8 then 5 else 7) * 2 ^ 8
  distCost := fun i => (if i < 4 then 4 else if i < 16 then 8 else 14) * 2 ^ 8
  repCost := fun r s => ((3 + r) + if s < 8 then 4 else 6) * 2 ^ 8
  lddCost := fun _ => 4 * 2 ^ 8
  slot257Cost := 3 * 2 ^ 8

/-- `update_price_model` -/
def update (prices : PriceModel) (lens : CodeLengths) : PriceModel where
  litCost := fun i => priceSym (lens.ld.getD i 0)
  lenCost := fun i => priceSym (lens.ld.getD (262 + i) 0)
  distCost := fun i => if i < 64 then priceSym (lens.dd.getD i 0) else prices.distCost i
  repCost := fun r s => priceSym (lens.ld.getD (258 + r) 0) + priceSym (lens.rd.getD s 0)
  lddCost := fun i => priceSym (lens.ldd.getD i 0)
  slot257Cost := priceSym (lens.ld.getD 257 0)

end PriceModel

/-- `Compressor50`.  `data` are the loaded bytes, `source` the bytes of a memory source
that are not loaded yet.  `backShiftEnable` and `forwardArrivalEnable` are the
switches of the environment, `lastlenSuppressed` the one of the tests. -/
structure Compressor50 where
  data : List UInt8
  source : List UInt8
  srcSize : Nat
  srcEof : Bool
  externalBuf : Bool
  streaming : Bool
  streamFinished : Bool
  posBase : Nat
  bufSize : Nat
  winSize : Nat
  maxDist : Nat
  method : Nat
  maxChain : Nat
  niceLen : Nat
  lazyTests : Nat
  minMatch : Nat
  failCount : Nat
  head : Nat → Nat
  prev : Nat → Nat
  tokens : List Token
  filterConfig : FilterConfig
  activeFilter : FilterType
  filterChannels : Nat
  filterEmittedUntil : Nat
  filterPretransformed : Bool
  fileStartPos : Nat
  freq : Frequencies
  prices : PriceModel
  oldDist : List Nat
  lastLength : Nat
  lastlenSuppressed : Bool
  backShiftEnable : Bool
  forwardArrivalEnable : Bool
  inputSinceBlock : Nat
  cur : Nat
  unhashedPos : Nat
  memOut : List UInt8

namespace Compressor50

variable (c : Compressor50)

def readChunk : Nat := 0x100000

def streamLookahead : Nat := 0x80000

def hashBits : Nat := 17

/-- `init_freq` -/
def initFreq : Frequencies where
  ld := List.replicate 306 0
  dd := List.replicate 80 0
  ldd := List.replicate 16 0
  rd := List.replicate 44 0

/-- `reset_old_dist` sets the four repeat distances to the value of an unset one. -/
def unsetOldDist : List Nat := List.replicate 4 sizeMax

/-! ## Sessions -/

/-- The doubling loop of `normalize_window_size`. -/
def doubleUntil (bound limit : Nat) : Nat → Nat → Nat
  | 0, size => size
  | fuel + 1, size =>
    if size < bound ∧ size < limit then doubleUntil bound limit fuel (2 * size) else size

/-- `normalize_window_size`: the window, a power of two, and the largest distance. -/
def normalizeWindowSize (winSize : Nat) : Nat × Nat :=
  let maxRetain := min 0x1000000000 (sizeMax - 0x1000000)
  let maxDist := min winSize maxRetain
  let ws := if maxDist = 0 then 0x20000 else maxDist
  (max 0x10000 (doubleUntil ws maxRetain 64 0x10000), maxDist)

def isLargeWindow : Bool := c.winSize > 4 * 1024 * 1024 * 1024

/-- A new object; the environment may switch two of the heuristics off. -/
def new (noBackshift noForwardArrival : Bool) : Compressor50 where
  data := []
  source := []
  srcSize := 0
  srcEof := false
  externalBuf := false
  streaming := false
  streamFinished := false
  posBase := 0
  bufSize := 0
  winSize := 0
  maxDist := 0
  method := 5
  maxChain := 0
  niceLen := 0
  lazyTests := 0
  minMatch := 2
  failCount := 0
  head := fun _ => 0
  prev := fun _ => 0
  tokens := []
  filterConfig := {}
  activeFilter := .none
  filterChannels := 1
  filterEmittedUntil := 0
  filterPretransformed := false
  fileStartPos := 0
  freq := initFreq
  prices := .init
  oldDist := unsetOldDist
  lastLength := 0
  lastlenSuppressed := false
  backShiftEnable := !noBackshift
  forwardArrivalEnable := !noForwardArrival
  inputSinceBlock := 0
  cur := 0
  unhashedPos := 0
  memOut := []

/-- `begin_archive` with the reset it starts with.  The chain links are allocated
but not initialised: `links` is what the memory holds. -/
def beginArchive (links : Nat → Nat) (method winSize : Nat) : Compressor50 :=
  let window := (normalizeWindowSize winSize).1
  let unset := if window > 4 * 1024 * 1024 * 1024 then 2 ^ 64 - 1 else 2 ^ 32 - 1
  { c with
    data := []
    source := []
    srcSize := 0
    srcEof := false
    externalBuf := false
    posBase := 0
    bufSize := window + 0x400000 + readChunk
    winSize := window
    maxDist := min (normalizeWindowSize winSize).2 (4 * 1024 * 1024 * 1024)
    method := if method < 1 ∨ method > 5 then 5 else method
    head := fun _ => unset
    prev := links
    tokens := []
    activeFilter := .none
    filterChannels := 1
    filterEmittedUntil := 0
    filterPretransformed := false
    fileStartPos := 0
    freq := initFreq
    prices := .init
    oldDist := unsetOldDist
    lastLength := 0
    inputSinceBlock := 0
    cur := 0
    unhashedPos := 0
    memOut := [] }

/-- `init_match_params` -/
def initMatchParams : Compressor50 :=
  { c with
    maxChain := [0, 4, 8, 32, 64, 128].getD c.method 0
    niceLen := [0, 256, 512, 1024, 2048, 4096].getD c.method 0
    lazyTests := [0, 0, 0, 1, 1, 1].getD c.method 0
    minMatch := [3, 3, 3, 3, 3, 3].getD c.method 2 }

/-- `set_external_buffer` -/
def setExternalBuffer (src : List UInt8) : Compressor50 :=
  { c with
    externalBuf := true
    data := src
    bufSize := src.length
    srcSize := src.length
    srcEof := true
    posBase := 0
    cur := 0
    unhashedPos := 0 }

/-- `set_seeded_external_buffer`: the first `seedLen` bytes are history. -/
def setSeededExternalBuffer (history : List UInt8) (seedLen : Nat) : Compressor50 :=
  { c with
    externalBuf := true
    data := history
    bufSize := history.length
    srcSize := history.length
    srcEof := true
    posBase := 0
    cur := seedLen
    unhashedPos := 0 }

/-- `set_active_filter` -/
def setActiveFilter (type : FilterType) (channels : Nat) (pretransformed : Bool) : Compressor50 :=
  { c with
    activeFilter := type
    filterChannels := channels
    filterPretransformed := pretransformed
    filterEmittedUntil := 0 }

/-! ## The input buffer -/

/-- `src_loaded_` -/
def srcLoaded : Nat := c.data.length

/-- `avail_at` -/
def availAt (pos : Nat) : Nat :=
  if pos < c.srcLoaded then c.srcLoaded - pos else 0

/-- `byte_at` -/
def byteAt (pos : Nat) : UInt8 := c.data.getD pos 0

/-- The loop of `load_data` over a memory source.  Every pass loads a byte or is the
last. -/
def loadLoop (target : Nat) : Nat → Compressor50 → Compressor50
  | 0, c => c
  | fuel + 1, c =>
    if c.srcLoaded < target ∧ ¬ c.srcEof then
      let space := c.bufSize - (c.srcLoaded - c.posBase)
      if space = 0 then c
      else
        let toRead := min space (target - c.srcLoaded)
        let readSize := min toRead c.source.length
        if readSize = 0 then { c with srcEof := true }
        else
          loadLoop target fuel
            { c with
              data := c.data ++ c.source.take readSize
              source := c.source.drop readSize }
    else c

/-- `load_data` -/
def loadData (target : Nat) : Compressor50 :=
  if c.externalBuf then c
  else if c.streaming then c
  else
    let target := min target c.srcSize
    if target ≤ c.srcLoaded then c else loadLoop target (target - c.srcLoaded + 1) c

/-- `slide_window` -/
def slideWindow : Compressor50 :=
  { c with posBase := c.cur - min c.cur c.winSize }

/-! ## Tokens -/

/-- A counter stops below the limit of sixteen bits. -/
def bump (freq : List Nat) (i : Nat) : List Nat :=
  if freq.getD i 0 < 0xfffe then freq.set i (freq.getD i 0 + 1) else freq

/-- `length_increment` -/
def lengthIncrement (distance : Nat) : Nat :=
  if distance > 0x100 then
    if distance > 0x2000 then if distance > 0x40000 then 3 else 2 else 1
  else 0

/-- `add_literal` -/
def addLiteral (b : UInt8) : Compressor50 :=
  { c with
    tokens := c.tokens ++ [.literal b]
    freq := { c.freq with ld := bump c.freq.ld b.toNat } }

/-- `add_match`: the state and the number of bytes that the token covers, zero if the
pair cannot be coded. -/
def addMatch (length distance : Nat) : Compressor50 × Nat :=
  let inc := lengthIncrement distance
  if length < inc + 2 then (c, 0)
  else
    let base := min (length - inc) maxLzMatch
    let (lenSlot, lenExtra, _) := lengthToSlot base
    let (distSlot, distExtra, rawBits) := distanceToSlot distance
    ({ c with
        tokens := c.tokens ++ [.match_ lenSlot lenExtra distSlot distExtra]
        freq :=
          { c.freq with
            ld := bump c.freq.ld (262 + lenSlot)
            dd := bump c.freq.dd distSlot
            ldd := if rawBits ≥ 4 then bump c.freq.ldd (distExtra % 16) else c.freq.ldd }
        oldDist := distance :: c.oldDist.take 3
        lastLength := base + inc }, base + inc)

/-- `add_rep` -/
def addRep (index length : Nat) : Compressor50 :=
  let (lenSlot, lenExtra, _) := lengthToSlot length
  { c with
    tokens := c.tokens ++ [.rep index lenSlot lenExtra]
    freq :=
      { c.freq with
        ld := bump c.freq.ld (258 + index)
        rd := bump c.freq.rd lenSlot }
    oldDist := c.oldDist.getD index 0 :: c.oldDist.eraseIdx index
    lastLength := length }

/-- `add_last_len` -/
def addLastLen : Compressor50 :=
  { c with
    tokens := c.tokens ++ [.lastLen]
    freq := { c.freq with ld := bump c.freq.ld 257 } }

/-- `add_filter` -/
def addFilter (blockLength type channels : Nat) : Compressor50 :=
  { c with
    tokens := c.tokens ++ [.filter 0 blockLength type channels]
    freq := { c.freq with ld := c.freq.ld.set 256 (c.freq.ld.getD 256 0 + 1) } }

/-- `need_flush` -/
def needFlush : Bool :=
  c.tokens.length ≥ 32768 || c.inputSinceBlock ≥ 0x80000

/-- `write_block` on the collected tokens; `none` is the source's `false`. -/
def writeBlock (lastBlock : Bool) : Option Compressor50 := do
  let bytes ← BlockWriter.writeBlock c.freq c.tokens lastBlock
  some
    { c with
      memOut := c.memOut ++ bytes
      prices := c.prices.update (BlockWriter.makeTables c.freq)
      tokens := []
      inputSinceBlock := 0
      freq := initFreq }

end Compressor50

end OpenRar.Compress
