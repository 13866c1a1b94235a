import OpenRar.Compress.FilterChunks

/-!
# Sessions of the encoder

Embedding of the functions that drive `Compressor50`: the compression of one buffer and
the streaming interface with a window that may be carried on.

What the host contributes is kept apart: the two switches of the environment, and the
contents of memory that is allocated without being initialised.  Callbacks for
progress and cancellation are left out; a sink accepts what it is given.
-/

namespace OpenRar.Compress

open OpenRar.Core

/-- What the process takes from its surroundings. -/
structure Host where
  noBackshift : Bool
  noForwardArrival : Bool
  links : Nat → Nat

namespace Compressor50

/-! ## One buffer -/

/-- The window of the internal packer: not much larger than the input. -/
def compWinSize (srcSize winSize : Nat) : Nat :=
  if srcSize > 0 ∧ srcSize < winSize then
    min winSize (doubleUntil srcSize (min winSize (2 ^ 63)) 64 0x20000)
  else winSize

/-- A packer for one buffer: the buffer itself, or a source that is loaded as the
encoder goes. -/
def withInput (c : Compressor50) (src : List UInt8) (compWin : Nat) : Compressor50 :=
  if src.length ≤ compWin + 0x400000 then c.setExternalBuffer src
  else { c with srcSize := src.length, source := src }

/-- Run a packer to its end; an empty output counts as a failure. -/
def packed (c : Compressor50) : Option (List UInt8) := do
  let c ← c.compress true
  if c.memOut = [] then none else some c.memOut

/-- `compress_buffer`; `none` is the source's `false`. -/
def compressBuffer (host : Host) (src : List UInt8) (method winSize : Nat)
    (filterCfg : FilterConfig) : Option (List UInt8) :=
  if src.length = 0 then some []
  else
    let compWin := compWinSize src.length winSize
    let packer := (new host.noBackshift host.noForwardArrival).beginArchive host.links method
      compWin
    let (type, channels) := detectFilter src filterCfg
    if type = .none then (packer.withInput src compWin).packed
    else
      let packer := { packer with filterConfig := filterCfg }.setActiveFilter type channels true
      let filtered :=
        encodeChunks type channels (filterMaxChunk packer.winSize) src.length 0 src
      (packer.withInput filtered compWin).packed

/-! ## Streams -/

/-- `begin_stream`; `none` is the source's `false`. -/
def beginStream (c : Compressor50) (links : Nat → Nat) (method winSize : Nat)
    (continueWindow : Bool) : Option Compressor50 :=
  let winSize := if winSize = 0 then 0x200000 else winSize
  if method < 1 ∨ method > 5 then none
  else if continueWindow ∧ (¬ c.streaming ∨ ¬ c.streamFinished ∨
      c.winSize ≠ (normalizeWindowSize winSize).1) then none
  else
    let c := { c with streaming := true, streamFinished := false }
    if continueWindow then
      some
        { c.initMatchParams with
          srcSize := c.srcLoaded
          tokens := []
          filterEmittedUntil := c.cur
          inputSinceBlock := 0
          failCount := 0
          activeFilter := .none
          filterPretransformed := false
          fileStartPos := c.cur
          unhashedPos := c.cur }
    else
      some { (c.beginArchive links method winSize).initMatchParams with
        srcSize := 0, failCount := 0 }

/-- The filter of a streamed input is detected on the first pieces. -/
def detectStep (c : Compressor50) (piece : List UInt8) : Compressor50 :=
  if c.activeFilter = .none ∧ c.filterConfig.mode ≠ .disableAll ∧ c.cur = 0 ∧ piece.length ≥ 64 then
    { c with
      activeFilter := (detectFilter piece c.filterConfig).1
      filterChannels := (detectFilter piece c.filterConfig).2 }
  else c

/-- The loop of `feed`; a turn without space slides the buffer. -/
def feedLoop : Nat → Compressor50 → List UInt8 → Option Compressor50
  | 0, _, _ => none
  | fuel + 1, c, left =>
    if left = [] then some c
    else
      let used := c.srcLoaded - c.posBase
      let space := c.bufSize - used
      if space = 0 then feedLoop fuel c.slideWindow left
      else do
        let chunk := left.take (min space left.length)
        let c := { c with data := c.data ++ chunk, srcSize := c.srcLoaded + chunk.length }
        let c ← c.processAvailable false
        feedLoop fuel c (left.drop (min space left.length))

/-- `feed` -/
def feed (c : Compressor50) (piece : List UInt8) : Option Compressor50 :=
  if ¬ c.streaming ∨ c.streamFinished then none
  else feedLoop (2 * piece.length + 1) (c.detectStep piece) piece

/-- `finish_stream` -/
def finishStream (c : Compressor50) : Option Compressor50 :=
  if ¬ c.streaming ∨ c.streamFinished then none
  else do
    let c ← { c with srcEof := true, srcSize := c.srcLoaded }.processAvailable true
    let c ← { c with unhashedPos := c.cur }.writeBlock true
    some { c with streamFinished := true }

end Compressor50

end OpenRar.Compress
