import OpenRar.Archive.BufferArchive

/-!
# Writing a set of volumes

`ArchiveMutator::add_file_to_archive_vol` writes all entries of the old set and the new file
into volumes of a given size.  A volume holds the signature, the encryption header if headers
are encrypted, a main header, in the first volume the comment, then blocks with their data, and
an end header.  An entry that does not fit is cut into slices; the slices before the last are
marked as split.

The loops of the source are one machine here.  Its state is what is written and what is still
to be written, and `turn` is one turn of the loop over the slices of an entry, or the one turn
of an entry without data.  A turn writes the block that `nextBlock` says, or only closes the
volume because there is no room.

A volume is kept as the list of its blocks, and `contents` are its bytes.  What encryption makes
of a header is left open but for its length, which is all that the writer looks at.
-/

namespace OpenRar.Archive

open OpenRar.Core OpenRar.Crypto OpenRar.Format HeaderWriter List

/-! ## Main, encryption and end headers -/

/-- `MHFL_SOLID` -/
def mhflSolid : Nat := 0x0004
/-- `MHFL_LOCK` -/
def mhflLock : Nat := 0x0010

/-- The locator with offsets of a fixed width. -/
def locatorRecord (m : MainBlock) : List UInt8 :=
  let hasQo := m.hasLocator && 0 ≤ m.locatorQoOffset
  let hasRr := m.hasLocator && 0 ≤ m.locatorRrOffset
  if hasQo || hasRr then
    extraRecord mhextraLocator
      (pushVint ((if hasQo then 0x01 else 0) ||| (if hasRr then 0x02 else 0)) ++
        ((if hasQo then pushVintFixed 10 m.locatorQoOffset.toNat else []) ++
          if hasRr then pushVintFixed 10 m.locatorRrOffset.toNat else []))
  else []

def metadataFlags (m : MainBlock) : Nat :=
  (if m.metadataName ≠ [] then 0x01 else 0) ||| (if m.metadataCtime ≠ 0 then 0x02 else 0)
    ||| (if m.metadataIsUnixTime then 0x04 else 0) ||| (if m.metadataIsNanoseconds then 0x08 else 0)

def metadataRecord (m : MainBlock) : List UInt8 :=
  if m.hasMetadata then
    extraRecord mhextraMetadata
      (pushVint (metadataFlags m) ++
        ((if m.metadataName ≠ [] then pushVint m.metadataName.length ++ m.metadataName else []) ++
          if m.metadataCtime ≠ 0 then
            writeLe (if m.metadataIsUnixTime ∧ ¬ m.metadataIsNanoseconds then 4 else 8)
              m.metadataCtime
          else []))
  else []

/-- The body of `write_main_block`. -/
def mainHeaderBody (m : MainBlock) : List UInt8 :=
  let extra := locatorRecord m ++ metadataRecord m
  pushVint headMain ++ (pushVint (if extra = [] then 0 else hflExtra) ++
    ((if extra = [] then [] else pushVint extra.length) ++ (pushVint m.arcFlags ++
      ((if hasFlag m.arcFlags mhflVolNumber then pushVint m.volNumber else []) ++ extra))))

/-- `CryptBlock` -/
structure CryptBlock where
  version : Nat := 0
  lg2Count : UInt8 := 15
  salt : ByteArrayOf 16 := .zero 16
  hasPswCheck : Bool := true
  pswCheck : ByteArrayOf 8 := .zero 8
  pswCheckCsum : ByteArrayOf 4 := .zero 4

/-- The body of `write_crypt_block`. -/
def cryptHeaderBody (c : CryptBlock) : List UInt8 :=
  pushVint headCrypt ++ (pushVint 0 ++ (pushVint c.version ++
    (pushVint (if c.hasPswCheck then 1 else 0) ++ (c.lg2Count :: (c.salt.bytes ++
      if c.hasPswCheck then c.pswCheck.bytes ++ c.pswCheckCsum.bytes else [])))))

/-- The body of `write_end_block`. -/
def endHeaderBody (endFlags : Nat) : List UInt8 :=
  pushVint headEndArc ++ (pushVint 0 ++ pushVint endFlags)

/-- `HeaderCryptWriter`.  `iv` are the random vectors, by the volume and the position at which a
header is written; `cipher` is the cipher under the key of the archive in its chaining mode,
which keeps the length. -/
structure HeaderCrypt where
  block : CryptBlock
  iv : Nat → Nat → ByteArrayOf 16
  cipher : ByteArrayOf 16 → List UInt8 → List UInt8
  cipher_length : ∀ iv plain, (cipher iv plain).length = plain.length

/-- Zeros up to a whole number of cipher blocks. -/
def padToBlock (plain : List UInt8) : List UInt8 :=
  plain ++ List.replicate ((plain.length + 15) / 16 * 16 - plain.length) 0

/-- `emit_block` at a position of a volume. -/
def emitBlock (crypt : Option HeaderCrypt) (index pos : Nat) (body : List UInt8) : List UInt8 :=
  match crypt with
  | none => wrapBlock body
  | some c => (c.iv index pos).bytes ++ c.cipher (c.iv index pos) (padToBlock (wrapBlock body))

/-- What `emit_block` writes is as long as this, wherever it stands. -/
def emitLength (encrypted : Bool) (body : List UInt8) : Nat :=
  if encrypted then 16 + ((wrapBlock body).length + 15) / 16 * 16 else (wrapBlock body).length

theorem emitBlock_length (crypt : Option HeaderCrypt) (index pos : Nat) (body : List UInt8) :
    (emitBlock crypt index pos body).length = emitLength crypt.isSome body := by
  cases crypt with
  | none => rfl
  | some c =>
    simp only [emitBlock, length_append, c.cipher_length, (c.iv index pos).size, padToBlock,
      length_replicate, emitLength, Option.isSome_some, if_true]
    omega

/-! ## Volumes -/

/-- A block and its data. -/
structure Slice where
  header : FileBlock
  headFlags : Nat
  data : List UInt8

/-- The body of the header of a slice; its packed size is that of the slice. -/
def Slice.body (s : Slice) : List UInt8 :=
  fileBody { s.header with packSize := s.data.length } s.headFlags false

structure Volume where
  index : Nat
  blocks : List Slice
  endFlags : Nat

/-- `PayloadEntry`: the header of an entry and its packed bytes. -/
structure Payload where
  fb : FileBlock
  content : List UInt8
  unpackedCrc : Nat

/-- A call: the bytes in front of the first signature, the main header of the old set if there
is one, the switches of the call, the encryption of headers, the comment, the entries of the old
set that stay, and the new one. -/
structure VolumeCall where
  volSize : Nat
  sfx : List UInt8 := []
  prior : Option MainBlock := none
  solid : Bool := false
  lock : Bool := false
  crypt : Option HeaderCrypt := none
  comment : List UInt8 := []
  old : List Payload := []
  new : Payload

variable (call : VolumeCall)

namespace VolumeCall

/-- Headers are encrypted. -/
def encrypts : Bool := call.crypt.isSome

/-- `all_payloads` -/
def payloads : List Payload := call.old ++ [call.new]

/-- The main header of a volume.  The flags of a volume in the old header do not count. -/
def volumeMain (index : Nat) : MainBlock :=
  let mb := call.prior.getD {}
  let kept := mb.arcFlags - (mb.arcFlags &&& (mhflVolume ||| mhflVolNumber))
  { mb with
    arcFlags := kept ||| mhflVolume ||| (if call.solid then mhflSolid else 0)
      ||| (if call.lock then mhflLock else 0) ||| (if index = 0 then 0 else mhflVolNumber)
    volNumber := if index = 0 then mb.volNumber else index
    hasLocator := false }

/-- What `start_vol` writes in front of the main header. -/
def preamble (index : Nat) : List UInt8 :=
  (if index = 0 then call.sfx else []) ++
    (rar5Signature ++ call.crypt.elim [] fun c => wrapBlock (cryptHeaderBody c.block))

/-- What `start_vol` writes in front of the blocks. -/
def head (index : Nat) : List UInt8 :=
  call.preamble index ++
    emitBlock call.crypt index (call.preamble index).length (mainHeaderBody (call.volumeMain index))

def commentSlice : Slice where
  header :=
    { isService := true
      serviceType := [0x43, 0x4D, 0x54]
      fileName := [0x43, 0x4D, 0x54]
      unpSize := call.comment.length
      attributes := 0x20
      hasCrc32 := true
      dataCrc32 := crc32 call.comment }
  headFlags := 0
  data := call.comment

/-- The blocks that `start_vol` writes. -/
def startBlocks (index : Nat) : List Slice :=
  if index = 0 ∧ call.comment ≠ [] then [call.commentSlice] else []

/-- The bytes of a volume up to a place behind a block. -/
def contents (index : Nat) (blocks : List Slice) : List UInt8 :=
  blocks.foldl
    (fun bytes s => bytes ++ (emitBlock call.crypt index bytes.length s.body ++ s.data))
    (call.head index)

def volumeBytes (v : Volume) : List UInt8 :=
  call.contents v.index v.blocks ++
    emitBlock call.crypt v.index (call.contents v.index v.blocks).length (endHeaderBody v.endFlags)

end VolumeCall

/-! ## The writer -/

/-- `MAX_HEADER_SIZE_MARGIN` -/
def maxHeaderSizeMargin : Nat := 80
/-- `ENDARC_SIZE` -/
def endArcSize : Nat := 7

/-- The volumes that are closed, the one that is being written, the entries that are not
complete, and how much of the first of them is written. -/
structure WriterState where
  done : List Volume
  index : Nat
  blocks : List Slice
  pending : List Payload
  written : Nat

/-- A 64-bit unsigned number taken as a signed one. -/
def int64 (n : Nat) : Int := if n < 2 ^ 63 then n else n - 2 ^ 64

/-- The bytes from `written` on, as one slice. -/
def sliceOf (p : Payload) (written slice : Nat) : Slice :=
  let data := (p.content.drop written).take slice
  let final := decide (p.content.length ≤ written + slice)
  { header :=
      { p.fb with
        hasCrc32 := true
        dataCrc32 := if final then p.unpackedCrc else crc32 data }
    headFlags :=
      (if 0 < written then hflSplitBefore else 0) ||| (if final then 0 else hflSplitAfter)
    data := data }

/-- The block of an entry without data. -/
def emptySlice (p : Payload) : Slice := { header := p.fb, headFlags := 0, data := [] }

/-- The length of the next slice at a position, `0` if there is no room for one. -/
def sliceAt (volSize : Nat) (p : Payload) (written pos : Nat) : Nat :=
  let maxSlice := int64 (volSize - pos) - maxHeaderSizeMargin - endArcSize
  if volSize ≤ pos then 0
  else if maxSlice ≤ 0 then 0
  else
    let slice := min (p.content.length - written) maxSlice.toNat
    -- an encrypted entry is cut at whole cipher blocks
    if p.fb.crypt.isEncrypted ∧ written + slice < p.content.length then slice / 16 * 16 else slice

namespace WriterState

/-- `cur.tell()` -/
def tell (st : WriterState) : Nat := (call.contents st.index st.blocks).length

/-- Close the volume as one that is continued and start the next. -/
def nextVolume (st : WriterState) : WriterState :=
  { st with
    done := st.done ++ [{ index := st.index, blocks := st.blocks, endFlags := 0x0001 }]
    index := st.index + 1
    blocks := call.startBlocks (st.index + 1) }

def push (st : WriterState) (s : Slice) : WriterState := { st with blocks := st.blocks ++ [s] }

/-- The block that the turn writes, and the volume it goes into; nothing if there is no room for
a slice.  An entry without data is not tested again in the volume that is started for it. -/
def nextBlock (st : WriterState) : Option (WriterState × Slice) :=
  match st.pending with
  | [] => none
  | p :: _ =>
    if p.content = [] then
      if call.volSize - st.tell call < maxHeaderSizeMargin + endArcSize + 10 then
        some (st.nextVolume call, emptySlice p)
      else some (st, emptySlice p)
    else
      let slice := sliceAt call.volSize p st.written (st.tell call)
      if slice = 0 then none else some (st, sliceOf p st.written slice)

/-- One turn.  A slice that is not the last of its entry ends the volume. -/
def turn (st : WriterState) : WriterState :=
  match st.pending with
  | [] => st
  | p :: rest =>
    match st.nextBlock call with
    | none => st.nextVolume call
    | some (place, s) =>
      let written := st.written + s.data.length
      if written < p.content.length then { (place.push s).nextVolume call with written := written }
      else { place.push s with pending := rest, written := 0 }

end WriterState

/-- The state behind `start_vol` for the first volume. -/
def VolumeCall.start : WriterState where
  done := []
  index := 0
  blocks := call.startBlocks 0
  pending := call.payloads
  written := 0

/-- The state after some turns; a writer that is through stays where it is. -/
def VolumeCall.after (n : Nat) : WriterState := (WriterState.turn call)^[n] call.start

/-- The volumes of a call that succeeds within `fuel` turns. -/
def writeVolumes (fuel : Nat) : Option (List Volume) :=
  if call.volSize < 1024 ∨ 2 ^ 64 - 1 ≤ call.volSize then none
  else
    let st := call.after fuel
    if st.pending.isEmpty then
      some (st.done ++ [{ index := st.index, blocks := st.blocks, endFlags := 0 }])
    else none

end OpenRar.Archive
