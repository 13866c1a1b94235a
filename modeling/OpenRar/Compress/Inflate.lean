import OpenRar.Compress.InflateTables

/-!
# The DEFLATE decoder

Embedding of the output side and of `decode` of `compress/inflate.cpp`.  One buffer serves
as window and as output chunk: 32 KiB of history, and behind them the chunk that is being
produced.  A full chunk of 64 KiB goes to the sink, and the last 32 KiB of the buffer become
the history of the next one.

A step that fails ends the call; what is kept of its state are the pieces that were handed
to the sink by then.
-/

namespace OpenRar.Compress

/-- The sink: whether it takes a piece, which may depend on the pieces before it. -/
abbrev InflateSink := List (List UInt8) → List UInt8 → Bool

/-- `Inflate`.  `buf` is the part of `buf_` that is in use: the history and the chunk. -/
structure Inflate where
  input : InflateInput
  maxOut : Nat
  buf : List UInt8
  outLen : Nat
  windowFill : Nat
  totalOut : Nat
  sunk : List (List UInt8)
  deriving DecidableEq, Repr

/-- How a call ends early.  `offered` are the pieces that were handed to the sink, one that
it refused included. -/
structure InflateStop where
  error : InflateError
  offered : List (List UInt8)
  deriving DecidableEq, Repr

namespace Inflate

open OverlapCopy InflateInput

/-- A step of the input side. -/
def lift {α : Type} (s : Inflate) : Except InflateError α → Except InflateStop α
  | .ok a => .ok a
  | .error e => .error ⟨e, s.sunk⟩

/-- `WINDOW_SIZE` -/
def windowSize : Nat := 32768
/-- `OUT_CHUNK` -/
def outChunk : Nat := 65536
/-- `UNLIMITED` -/
def unlimited : Nat := 2 ^ 64 - 1

/-- `LENGTH_TABLE`: base length and extra bits of the symbols 257 to 285. -/
def lengthTable : List (Nat × Nat) :=
  [(3, 0), (4, 0), (5, 0), (6, 0), (7, 0), (8, 0), (9, 0), (10, 0), (11, 1), (13, 1), (15, 1),
    (17, 1), (19, 2), (23, 2), (27, 2), (31, 2), (35, 3), (43, 3), (51, 3), (59, 3), (67, 4),
    (83, 4), (99, 4), (115, 4), (131, 5), (163, 5), (195, 5), (227, 5), (258, 0)]

/-- `DIST_TABLE`: base distance and extra bits of the symbols 0 to 29. -/
def distTable : List (Nat × Nat) :=
  [(1, 0), (2, 0), (3, 0), (4, 0), (5, 1), (7, 1), (9, 2), (13, 2), (17, 3), (25, 3), (33, 4),
    (49, 4), (65, 5), (97, 5), (129, 6), (193, 6), (257, 7), (385, 7), (513, 8), (769, 8),
    (1025, 9), (1537, 9), (2049, 10), (3073, 10), (4097, 11), (6145, 11), (8193, 12), (12289, 12),
    (16385, 13), (24577, 13)]

/-! ## Output -/

section Output

variable (sink : InflateSink)

/-- `flush_output` -/
def flushOutput (s : Inflate) : Except InflateStop Inflate :=
  if s.outLen = 0 then .ok s
  else
    let chunk := s.buf.drop windowSize
    if (s.totalOut + s.outLen) % 2 ^ 64 > s.maxOut then
      -- up to the cap, then the breach is reported
      let take := min (s.maxOut - s.totalOut) s.outLen
      let offered := if take > 0 then s.sunk ++ [chunk.take take] else s.sunk
      if take > 0 ∧ ¬ sink s.sunk (chunk.take take) then .error ⟨.sinkFailed, offered⟩
      else .error ⟨.outputCapExceeded, offered⟩
    else if ¬ sink s.sunk chunk then .error ⟨.sinkFailed, s.sunk ++ [chunk]⟩
    else
      .ok
        { s with
          totalOut := (s.totalOut + s.outLen) % 2 ^ 64
          buf := s.buf.drop s.outLen
          outLen := 0
          sunk := s.sunk ++ [chunk] }

/-- A full chunk is flushed. -/
def flushIfFull (s : Inflate) : Except InflateStop Inflate :=
  if s.outLen = outChunk then flushOutput sink s else .ok s

/-- Bytes at the write cursor. -/
def append (s : Inflate) (bytes : List UInt8) : Inflate :=
  { s with
    buf := s.buf ++ bytes
    outLen := s.outLen + bytes.length
    windowFill := min windowSize (s.windowFill + bytes.length) }

/-- `emit`; every pass writes at least one byte. -/
def emit : Nat → List UInt8 → Inflate → Except InflateStop Inflate
  | 0, _, s => .ok s
  | fuel + 1, data, s =>
    if data.length = 0 then .ok s
    else
      let chunk := min data.length (outChunk - s.outLen)
      (flushIfFull sink (s.append (data.take chunk))).bind (emit fuel (data.drop chunk))

/-- `emit_literal` -/
def emitLiteral (s : Inflate) (b : UInt8) : Except InflateStop Inflate :=
  flushIfFull sink
    { s with
      buf := s.buf ++ [b]
      outLen := s.outLen + 1
      windowFill := if s.windowFill < windowSize then s.windowFill + 1 else s.windowFill }

/-- One piece of a match: a block, a run, or blocks that double. -/
def copyPiece (buf : List UInt8) (dist chunk : Nat) : List UInt8 :=
  let src := buf.drop (buf.length - dist)
  if dist ≥ chunk then src.take chunk
  else if dist = 1 then List.replicate chunk (src.headD 0)
  else (doubling chunk src chunk).drop dist

/-- The loop of `window_copy`. -/
def copyLoop (dist : Nat) : Nat → Nat → Inflate → Except InflateStop Inflate
  | 0, _, s => .ok s
  | fuel + 1, len, s =>
    if len = 0 then .ok s
    else
      let chunk := min len (outChunk - s.outLen)
      (flushIfFull sink (s.append (copyPiece s.buf dist chunk))).bind
        (copyLoop dist fuel (len - chunk))

/-- `window_copy` -/
def windowCopy (s : Inflate) (dist len : Nat) : Except InflateStop Inflate :=
  if dist = 0 ∨ dist > s.windowFill then .error ⟨.distanceTooFar, s.sunk⟩
  else copyLoop sink dist len len s

end Output

/-! ## Blocks -/

/-- A base and its extra bits. -/
def readExtra (entry : Nat × Nat) (r : InflateInput) : Except InflateError (Nat × InflateInput) :=
  if entry.2 ≠ 0 then (r.field entry.2).map fun p => (entry.1 + p.1, p.2) else .ok (entry.1, r)

/-- What a failed `next_symbol` is reported as. -/
def symbolError (r : InflateInput) : InflateError :=
  if r.truncated then .truncatedInput else .badHuffmanCode

section Decode

variable (sink : InflateSink)

/-- `decode_block_body`.  Every pass consumes a bit, so the bits that are left bound the
passes. -/
def decodeBlockBody (lit dist : InflateTable) : Nat → Inflate → Except InflateStop Inflate
  | 0, s => .error ⟨.truncatedInput, s.sunk⟩
  | fuel + 1, s =>
    match lit.nextSymbol s.input with
    | (none, r) => .error ⟨symbolError r, s.sunk⟩
    | (some sym, r) =>
      if sym < 256 then
        (emitLiteral sink { s with input := r } (UInt8.ofNat sym)).bind
          (decodeBlockBody lit dist fuel)
      else if sym = 256 then .ok { s with input := r }
      else if sym ≤ 285 then
        (s.lift (readExtra (lengthTable.getD (sym - 257) (0, 0)) r)).bind fun p =>
          match dist.nextSymbol p.2 with
          | (none, r) => .error ⟨symbolError r, s.sunk⟩
          | (some dsym, r) =>
            if dsym > 29 then .error ⟨.badLiteralCode, s.sunk⟩
            else
              (s.lift (readExtra (distTable.getD dsym (0, 0)) r)).bind fun q =>
                (windowCopy sink { s with input := q.2 } q.1 p.1).bind
                  (decodeBlockBody lit dist fuel)
      else .error ⟨.badLiteralCode, s.sunk⟩

/-- The whole bytes of a stored block that are still in the accumulator; the number of bytes
that are left comes back. -/
def drainStored : Nat → Inflate → Except InflateStop (Nat × Inflate)
  | 0, s => .ok (0, s)
  | left + 1, s =>
    if s.input.realBits ≥ 8 then
      let p := s.input.getBits 8
      (emitLiteral sink { s with input := p.2 } (UInt8.ofNat p.1)).bind (drainStored left)
    else .ok (left + 1, s)

/-- The rest of a stored block, straight from the staging buffer. -/
def copyStored : Nat → Nat → Inflate → Except InflateStop Inflate
  | 0, _, s => .ok s
  | fuel + 1, left, s =>
    if left = 0 then .ok s
    else
      let p := if s.input.inBuf = [] then s.input.refillInput else (true, s.input)
      if ¬ p.1 then .error ⟨.truncatedInput, s.sunk⟩
      else
        let n := min left p.2.inBuf.length
        (emit sink n (p.2.inBuf.take n) { s with input := p.2 }).bind fun s =>
          copyStored fuel (left - n)
            { s with
              input :=
                { s.input with
                  inBuf := s.input.inBuf.drop n
                  consumedBits := s.input.consumedBits + n * 8 } }

/-- A stored block. -/
def decodeStored (s : Inflate) : Except InflateStop Inflate :=
  let r := s.input.alignByte
  if r.truncated then .error ⟨.truncatedInput, s.sunk⟩
  else
    let len := r.getBits 16
    let nlen := len.2.getBits 16
    if nlen.2.truncated then .error ⟨.truncatedInput, s.sunk⟩
    else if len.1 ^^^ 0xFFFF ≠ nlen.1 then .error ⟨.badStoredLen, s.sunk⟩
    else
      (drainStored sink len.1 { s with input := nlen.2 }).bind fun p =>
        if p.1 > 0 ∧ p.2.input.bitCount ≠ 0 then .error ⟨.truncatedInput, p.2.sunk⟩
        else copyStored sink p.1 p.1 p.2

/-- `build_fixed_tables` -/
def fixedTables : Option (InflateTable × InflateTable) :=
  (InflateTable.build (List.replicate 144 8 ++ List.replicate 112 9 ++ List.replicate 24 7
      ++ List.replicate 8 8) false).bind fun lit =>
    (InflateTable.build (List.replicate 32 5) false).map fun dist => (lit, dist)

/-- One pass of the loop of `decode`: a block, and whether it was the final one. -/
def decodeBlock (s : Inflate) : Except InflateStop (Bool × Inflate) :=
  (s.lift (s.input.field 1)).bind fun bfinal => (s.lift (bfinal.2.field 2)).bind fun btype =>
    let s := { s with input := btype.2 }
    let body : Except InflateStop Inflate :=
      if btype.1 = 0 then decodeStored sink s
      else if btype.1 = 1 then
        match fixedTables with
        | none => .error ⟨.oversubscribedCode, s.sunk⟩
        | some (lit, dist) => decodeBlockBody sink lit dist (s.input.bits.length + 1) s
      else if btype.1 = 2 then
        (s.lift s.input.readDynamicTables).bind fun p =>
          decodeBlockBody sink p.1.1 p.1.2 (p.2.bits.length + 1) { s with input := p.2 }
      else .error ⟨.badBlockType, s.sunk⟩
    body.map fun s => (decide (bfinal.1 ≠ 0), s)

/-- The loop of `decode`. -/
def decodeLoop : Nat → Inflate → Except InflateStop Inflate
  | 0, s => .error ⟨.truncatedInput, s.sunk⟩
  | fuel + 1, s =>
    (decodeBlock sink s).bind fun p => if p.1 then .ok p.2 else decodeLoop fuel p.2

/-- `decode` with the history that an earlier stream may have left in the buffer: the state
in which it ends. -/
def run (maxOut : Nat) (history source : List UInt8) : Except InflateStop Inflate :=
  (decodeLoop sink (8 * source.length + 1)
    { input := InflateInput.start source
      maxOut := maxOut
      buf := history
      outLen := 0
      windowFill := 0
      totalOut := 0
      sunk := [] }).bind (flushOutput sink)

/-- `decode`: the pieces that the sink receives. -/
def decode (maxOut : Nat) (history source : List UInt8) :
    Except InflateError (List (List UInt8)) :=
  match run sink maxOut history source with
  | .ok s => .ok s.sunk
  | .error stop => .error stop.error

end Decode

end Inflate

end OpenRar.Compress
