import OpenRar.Archive.QuickOpen

/-!
# Scanning a volume

`ArchiveReader::open_ex` walks over the blocks of a volume and lists the files and service
blocks among them.  A main header may name the place of the cache of headers; if the cache
is accepted, its headers, the service block that holds it and the service blocks behind that
are the list, and the walk is over.  What a volume lists is then stitched into the list of
the archive.

Encrypted headers are not modelled: the walk ends at the header that announces them.
-/

namespace OpenRar.Archive

open CheckedReads OpenRar.Core OpenRar.Format HeaderReader List

/-! ## The walk over one volume -/

/-- What the walk over a volume knows. -/
structure ScanState where
  pos : Nat
  entries : List ScanEntry := []
  /-- the first main header -/
  main : Option MainBlock := none
  /-- an end header without `EHFL_NEXTVOLUME` -/
  sawEnd : Bool := false
  /-- `truncated_data_` -/
  truncated : Bool := false
  /-- the loop has been left -/
  stopped : Bool := false
deriving DecidableEq

def ScanState.stop (w : ScanState) : ScanState := { w with stopped := true }

/-- What the volume has of a data area of `dataSize` bytes at `pos`. -/
def availAt (vsz pos dataSize : Nat) : Nat :=
  if dataSize > 0 ∧ vsz > pos then vsz - pos else 0

/-- The entry of a header that stands in the volume. -/
def scannedEntry (vsz headStart headEnd : Nat) (block : RawBlock) (header : FileBlock) :
    ScanEntry :=
  let avail := availAt vsz headEnd block.dataSize
  { headerOffset := headStart
    headerSize := headEnd - headStart
    dataOffset := headEnd
    dataSize := if block.dataSize < avail then block.dataSize else avail
    header := header
    splitBefore := hasFlag block.flags hflSplitBefore
    splitAfter := hasFlag block.flags hflSplitAfter }

/-- What the walk does with a block that ends at `headEnd`. -/
def scanBlock (vsz : Nat) (w : ScanState) (block : RawBlock) (headEnd : Nat) : ScanState :=
  if block.type = headCrypt then w.stop
  else if block.type = headMain then
    match parseMainHeader block.body with
    | none => w.stop
    | some m => { w with pos := headEnd, main := w.main.or (some m) }
  else if block.type = headFile ∨ block.type = headService then
    match parseFileHeader block.body with
    | none => w.stop
    | some header =>
      let e := scannedEntry vsz w.pos headEnd block header
      if block.dataSize > availAt vsz headEnd block.dataSize then
        -- The volume is cut off; the entry is listed with the data that are there.
        { w with entries := w.entries ++ [e], truncated := true, stopped := true }
      else { w with pos := headEnd + e.dataSize, entries := w.entries ++ [e] }
  else if block.type = headEndArc then
    match parseEndHeader block.body with
    | none => w.stop
    | some endFlags =>
      if hasFlag endFlags 0x0001 then { w with pos := headEnd }
      else { w with pos := headEnd, sawEnd := true, stopped := true }
  else if block.dataSize > vsz - headEnd then w.stop
  else { w with pos := headEnd + block.dataSize }

/-- The name of the service block that holds the cache. -/
def qoName : List UInt8 := [0x51, 0x4F]

/-- The service block that holds the cache, with its payload in memory. -/
structure QuickOpenService where
  place : QuickOpenPlace
  header : FileBlock
  dataOffset : Nat
  payload : Buffer

/-- The payload is read into memory if it is not too long and the volume has it. -/
def quickOpenPayload (file : List UInt8) (start n : Nat) : Option Buffer :=
  if h : 0 < n ∧ n ≤ 64 * 1024 * 1024 ∧ start + n ≤ file.length then
    some ⟨(file.drop start).take n, by
      rw [length_take]
      omega⟩
  else none

/-- The service block that the main header at `headStart` names. -/
def quickOpenService (file : List UInt8) (headStart currPos : Nat) (m : MainBlock) :
    Option QuickOpenService :=
  let qoAbsPos := headStart + m.locatorQoOffset.toNat
  if m.hasLocator ∧ 0 < m.locatorQoOffset ∧ ¬ hasFlag m.arcFlags mhflVolume ∧
      qoAbsPos + 7 < file.length then
    match readBlockRaw (file.drop qoAbsPos) with
    | .error _ => none
    | .ok (block, rest) =>
      if block.type = headService then do
        let header ← parseFileHeader block.body
        if header.isService ∧ header.serviceType = qoName then
          let payload ← quickOpenPayload file (file.length - rest.length) block.dataSize
          some
            { place := { qoAbsPos := qoAbsPos, currPos := currPos, vsz := file.length }
              header := header
              dataOffset := file.length - rest.length
              payload := payload }
        else none
      else none
  else none

/-- The entry of the service block itself. -/
def QuickOpenService.entry (q : QuickOpenService) : ScanEntry where
  headerOffset := q.place.qoAbsPos
  headerSize := q.dataOffset - q.place.qoAbsPos
  dataOffset := q.place.qoAbsPos + (q.dataOffset - q.place.qoAbsPos)
  dataSize := q.payload.size
  header := q.header

/-- The blocks behind the cache: service blocks are listed, other blocks are passed over
without their data, and any end header ends the list.  Every turn reads a block. -/
def scanTrailing (file : List UInt8) : Nat → Nat → List ScanEntry × Bool
  | 0, _ => ([], false)
  | fuel + 1, pos =>
    if file.length ≤ pos then ([], false)
    else
      match readBlockRaw (file.drop pos) with
      | .error _ => ([], false)
      | .ok (block, rest) =>
        let tailEnd := file.length - rest.length
        if block.type = headService then
          match parseFileHeader block.body with
          | none => scanTrailing file fuel tailEnd
          | some header =>
            let e : ScanEntry :=
              { scannedEntry file.length pos tailEnd block header with
                splitBefore := false
                splitAfter := false }
            let (entries, sawEnd) := scanTrailing file fuel (tailEnd + e.dataSize)
            (e :: entries, sawEnd)
        else if block.type = headEndArc then
          match parseEndHeader block.body with
          | none => ([], false)
          | some endFlags => ([], !hasFlag endFlags 0x0001)
        else scanTrailing file fuel tailEnd

/-- A cache that has been accepted. -/
structure QuickOpenListing where
  service : QuickOpenService
  cached : QuickOpenState
  trailing : List ScanEntry
  sawEnd : Bool

def QuickOpenListing.entries (q : QuickOpenListing) : List ScanEntry :=
  q.cached.entries ++ q.service.entry :: q.trailing

/-- The cache that the main header at `headStart` names, if all its records are accepted and
there is one.  A refusal, and a payload that is left, send the walk on. -/
def quickOpenListing (file : List UInt8) (headStart currPos : Nat) (m : MainBlock) :
    Option QuickOpenListing := do
  let service ← quickOpenService file headStart currPos m
  match parseQuickOpen service.place service.payload with
  | .error _ => none
  | .ok cached =>
    if cached.entries.head?.map ScanEntry.headerOffset = some currPos then
      let (trailing, sawEnd) :=
        scanTrailing file file.length (service.dataOffset + service.payload.size)
      some { service := service, cached := cached, trailing := trailing, sawEnd := sawEnd }
    else none

/-- The cache named by a block, if that is a main header. -/
def quickOpenAt (file : List UInt8) (headStart headEnd : Nat) (block : RawBlock) :
    Option QuickOpenListing :=
  if block.type = headMain then
    (parseMainHeader block.body).bind fun m => quickOpenListing file headStart headEnd m
  else none

/-! ## The loop -/

/-- One turn of the walk, with or without the cache. -/
def scanTurn (quickOpen : Bool) (file : List UInt8) (w : ScanState) : ScanState :=
  match readBlockRaw (file.drop w.pos) with
  | .error _ => w.stop
  | .ok (block, rest) =>
    let headEnd := file.length - rest.length
    let next := scanBlock file.length w block headEnd
    if quickOpen then
      match quickOpenAt file w.pos headEnd block with
      | none => next
      | some q => { next with entries := q.entries, sawEnd := q.sawEnd, stopped := true }
    else next

/-- The walk has a block to read. -/
def ScanState.more (file : List UInt8) (w : ScanState) : Prop := ¬ w.stopped ∧ w.pos < file.length

instance (file : List UInt8) (w : ScanState) : Decidable (w.more file) :=
  inferInstanceAs (Decidable (_ ∧ _))

def scanLoop (quickOpen : Bool) (file : List UInt8) : Nat → ScanState → ScanState
  | 0, w => w
  | fuel + 1, w =>
    if w.more file then scanLoop quickOpen file fuel (scanTurn quickOpen file w) else w

/-- A part of an entry's data. -/
structure Extent where
  volume : Nat
  offset : Nat
  size : Nat
deriving DecidableEq

/-- `ArchiveEntry` with its extents. -/
structure ListedEntry where
  entry : ScanEntry
  extents : List Extent
deriving DecidableEq

def listed (volume : Nat) (e : ScanEntry) : ListedEntry where
  entry := e
  extents := [{ volume := volume, offset := e.dataOffset, size := e.dataSize }]

def ScanEntry.isQuickOpen (e : ScanEntry) : Bool :=
  e.header.isService && e.header.serviceType = qoName

variable {file : List UInt8} {w v : ScanState} {quickOpen : Bool} {list : List ScanEntry}

/-- The state `w` is `v` behind a list of entries; what the walk does next is the same. -/
structure Behind (list : List ScanEntry) (v w : ScanState) : Prop where
  pos : w.pos = v.pos
  stopped : w.stopped = v.stopped
  entries : w.entries = list ++ v.entries

theorem Behind.scanBlock (h : Behind list v w) (vsz : Nat) (block : RawBlock) (headEnd : Nat) :
    Behind list (scanBlock vsz v block headEnd) (Archive.scanBlock vsz w block headEnd) := by
  obtain ⟨hpos, hstopped, hentries⟩ := h
  have hstop : Behind list v.stop w.stop := ⟨hpos, rfl, hentries⟩
  unfold Archive.scanBlock
  rw [hpos]
  split
  · exact hstop
  split
  · split
    · exact hstop
    · exact ⟨rfl, hstopped, hentries⟩
  split
  · split
    · exact hstop
    · dsimp only
      rw [hentries, append_assoc]
      split
      · exact ⟨rfl, rfl, rfl⟩
      · exact ⟨rfl, hstopped, rfl⟩
  split
  · split
    · exact hstop
    · split
      · exact ⟨rfl, hstopped, hentries⟩
      · exact ⟨rfl, rfl, hentries⟩
  split
  · exact hstop
  · exact ⟨rfl, hstopped, hentries⟩

theorem Behind.scanTurn (h : Behind list v w) (file : List UInt8) :
    Behind list (Archive.scanTurn false file v) (Archive.scanTurn false file w) := by
  unfold Archive.scanTurn
  rw [h.pos]
  cases readBlockRaw (file.drop v.pos) with
  | error e => exact ⟨h.pos, rfl, h.entries⟩
  | ok r => exact h.scanBlock file.length r.1 _

end OpenRar.Archive
