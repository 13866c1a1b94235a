import OpenRar.Foundation.DirectoryStore
import OpenRar.Recovery.RecoveryRecord
import OpenRar.Recovery.ReedSolomon16
import OpenRar.Recovery.VolumeNames

/-!
# Repairing a volume set from recovery volumes

Embedding of `RecoveryWriter::repair_rev_volumes` on the directory of the archive.  The
recovery volumes give the table of the set; volumes are mapped to their slots by name and
checked against it; corrupt ones are moved aside, outputs are created, decoded from the
sources that are left, and verified.  A failure after the first move rolls back.

A stream refers to a file and not to its name: an output that is opened under the name of
a source empties what that source reads.  Which calls of the file system fail is a
parameter, except for the calls of the rollback, which succeed.
-/

namespace OpenRar.Recovery

open OpenRar.Core
open OpenRar.Crypto
open OpenRar.DirectoryStore

abbrev Directory := Store FileName UInt8

/-- The four places at which a file is opened for reading. -/
inductive ReadCall where
  | scan
  | validate
  | source
  | verify
deriving DecidableEq

/-- The order in which the directory is listed, the calls that succeed, the number of
bytes that a write gets through, and the fold kernel of the processor. -/
structure RepairEnv where
  listing : List FileName
  canRead : ReadCall → FileName → Bool
  canMove : FileName → Bool
  canCreate : FileName → Bool
  writeLimit : Nat → Nat → Nat
  kernel : FoldKernel

variable (env : RepairEnv)

/-- `FileStream::open` for reading. -/
def openRead (call : ReadCall) (dir : Directory) (name : FileName) : Option Nat :=
  match dir.entry name with
  | some (.file id) => if env.canRead call name then some id else none
  | _ => none

/-! ## The recovery volumes -/

structure RevInfo where
  path : FileName
  paritySlotId : Nat
  payloadCrc : Nat
  payloadOff : Nat
  valid : Bool

/-- What the scan has collected; the first header gives the counts and the table. -/
structure RevScan where
  revs : List RevInfo := []
  nd : Nat := 0
  nr : Nat := 0
  tableSize : List Nat := []
  tableCrc : List Nat := []

def revSign : List UInt8 := [0x52, 0x61, 0x72, 0x21, 0x1A, 0x52, 0x65, 0x76]

/-- The body of a recovery volume's header, if its checksum and version are right. -/
def readRevBody (file : List UInt8) : Option (List UInt8) :=
  if file.length < 16 ∨ file.take 8 ≠ revSign then none
  else
    let size := fieldAt 4 file 12
    let body := (file.drop 16).take size
    if size < 11 ∨ size > 0x100000 ∨ body.length ≠ size then none
    else if (crc32From (crc32From 0#32 ((file.drop 12).take 4)) body).toNat ≠ fieldAt 4 file 8 then
      none
    else if body.head? ≠ some 1 then none
    else some body

/-- One recovery volume.  A header that does not fit the first one is left out. -/
def scanRev (name : FileName) (file : List UInt8) (scan : RevScan) : RevScan :=
  match readRevBody file with
  | none => scan
  | some body =>
    let dc := fieldAt 2 body 1
    let rc := fieldAt 2 body 3
    let slot := fieldAt 2 body 5
    if dc = 0 ∨ rc = 0 ∨ slot < dc ∨ slot ≥ dc + rc ∨ dc + rc > 65535 then scan
    else if scan.revs ≠ [] ∧ (dc ≠ scan.nd ∨ rc ≠ scan.nr) then scan
    else
      let info : RevInfo :=
        { path := name
          paritySlotId := slot
          payloadCrc := fieldAt 4 body 7
          payloadOff := 16 + body.length
          valid := crc32 (file.drop (16 + body.length)) = fieldAt 4 body 7 }
      if scan.revs ≠ [] then { scan with revs := scan.revs ++ [info] }
      else if 11 + 12 * dc > body.length then { scan with nd := dc, nr := rc }
      else
        { revs := [info]
          nd := dc
          nr := rc
          tableSize := (List.range dc).map fun i => fieldAt 8 body (11 + 12 * i)
          tableCrc := (List.range dc).map fun i => fieldAt 4 body (11 + 12 * i + 8) }

def scanRevs (arcName : FileName) (dir : Directory) : RevScan :=
  env.listing.foldl
    (fun scan name =>
      if extensionOf name ≠ revExtension ∨ ¬ revBelongs arcName name then scan
      else
        match openRead env .scan dir name with
        | none => scan
        | some id => scanRev name (dir.data id) scan)
    {}

/-- Of several recovery volumes for one slot only the first counts. -/
def dropDuplicates : List RevInfo → List Nat → List RevInfo
  | [], _ => []
  | r :: revs, seen =>
    if ¬ r.valid then r :: dropDuplicates revs seen
    else if r.paritySlotId ∈ seen then { r with valid := false } :: dropDuplicates revs seen
    else r :: dropDuplicates revs (r.paritySlotId :: seen)

/-! ## The data volumes -/

structure DataVol where
  path : FileName := []
  present : Bool := false
  valid : Bool := false
  corrupt : Bool := false
deriving DecidableEq

/-- The slot that a directory entry has as a data volume. -/
def volumeSlot (arcName : FileName) (nd : Nat) (dir : Directory) (name : FileName) : Option Nat :=
  match dir.entry name with
  | some (.file _) =>
    if isVolumeExtension (extensionOf name) then
      match slotForName arcName name with
      | some slot => if 0 ≤ slot ∧ slot < nd then some slot.toNat else none
      | none => none
    else none
  | _ => none

/-- The volumes found so far, and the first of their names. -/
structure VolumeScan where
  vols : List DataVol
  sample : Option FileName := none

def scanVolume (arcName : FileName) (nd : Nat) (dir : Directory) (scan : VolumeScan)
    (name : FileName) : VolumeScan :=
  match volumeSlot arcName nd dir name with
  | none => scan
  | some slot =>
    { vols := scan.vols.set slot { path := name, present := true }
      sample := scan.sample <|> some name }

/-- Missing volumes get a name in the pattern of the sample. -/
def nameMissing (scan : VolumeScan) : List DataVol :=
  match scan.sample with
  | none => scan.vols
  | some sample =>
    scan.vols.mapIdx fun i vol =>
      if vol.present then vol else { vol with path := nameForSlot sample i }

/-- A present volume is checked against the table; one that cannot be opened counts as
missing. -/
def validateVolume (dir : Directory) (tableCrc : List Nat) (i : Nat) (vol : DataVol) : DataVol :=
  if vol.present then
    match openRead env .validate dir vol.path with
    | none => { vol with present := false }
    | some id =>
      if crc32 (dir.data id) = tableCrc.getD i 0 then { vol with valid := true }
      else { vol with corrupt := true }
  else vol

def collectVolumes (arcName : FileName) (dir : Directory) (scan : RevScan) : List DataVol :=
  (nameMissing
      (env.listing.foldl (scanVolume arcName scan.nd dir)
        { vols := List.replicate scan.nd {} })).mapIdx
    (validateVolume env dir scan.tableCrc)

/-! ## Sources and outputs -/

/-- An open stream: a file and a position. -/
structure Stream where
  id : Nat
  off : Nat
deriving DecidableEq

/-- The source of each slot: the volume itself, or the next valid recovery volume. -/
def openSources (dir : Directory) (revs : List RevInfo) (nd nr : Nat)
    (valid : List Bool) : List DataVol → Nat → Nat → Option (List Stream)
  | [], _, _ => some []
  | vol :: vols, i, j =>
    if valid.getD i false then do
      let id ← openRead env .source dir vol.path
      let sources ← openSources dir revs nd nr valid vols (i + 1) j
      some (⟨id, 0⟩ :: sources)
    else do
      let slot ← (List.range' j (nd + nr - j)).find? fun k => valid.getD k false
      let rev ← (revs.filter fun r => r.valid && r.paritySlotId = slot).getLast?
      let id ← openRead env .source dir rev.path
      let sources ← openSources dir revs nd nr valid vols (i + 1) (slot + 1)
      some (⟨id, rev.payloadOff⟩ :: sources)

/-- Move the corrupt volumes aside: the directory, the names that were moved, and whether
all of them were. -/
def moveAside : List FileName → Directory → List FileName → Directory × List FileName × Bool
  | [], dir, moved => (dir, moved, true)
  | name :: names, dir, moved =>
    let dir := dir.remove (badName name)
    match dir.entry name with
    | some _ =>
      if env.canMove name then
        moveAside names (dir.rename name (badName name)) (moved ++ [name])
      else (dir, moved, false)
    | none => (dir, moved, false)

/-- An output: its slot, its name and its stream. -/
structure Output where
  slot : Nat
  name : FileName
  stream : Stream

/-- Open the outputs under the names of their slots. -/
def createOutputs : List (Nat × FileName) → Directory → List Output → Directory × List Output × Bool
  | [], dir, outs => (dir, outs, true)
  | (slot, name) :: slots, dir, outs =>
    if name = [] ∨ dir.entry name = some .other ∨ ¬ env.canCreate name then (dir, outs, false)
    else
      let (dir, id) := dir.create name
      createOutputs slots dir (outs ++ [⟨slot, name, ⟨id, 0⟩⟩])

/-! ## Decoding -/

/-- `FileStream::read` of a round, padded with zeros. -/
def readRound (dir : Directory) (chunk : Nat) (src : Stream) : List UInt8 :=
  let got := ((dir.data src.id).drop src.off).take chunk
  got ++ List.replicate (chunk - got.length) 0

def advance (dir : Directory) (chunk : Nat) (src : Stream) : Stream :=
  { src with off := src.off + (((dir.data src.id).drop src.off).take chunk).length }

/-- Write the round's blocks to the outputs until one of the writes falls short. -/
def writeRound (tableSize : List Nat) (processed chunk : Nat)
    (recon : Nat → List UInt8) : Nat → List Output → Directory →
    Directory × List Output × Bool
  | _, [], dir => (dir, [], true)
  | e, out :: outs, dir =>
    let take := min chunk (tableSize.getD out.slot 0 - processed)
    let written := min take (env.writeLimit out.slot processed)
    let dir := dir.write out.stream.id out.stream.off ((recon e).take written)
    let out := { out with stream := { out.stream with off := out.stream.off + written } }
    if written < take then (dir, out :: outs, false)
    else
      let (dir, outs, ok) := writeRound tableSize processed chunk recon (e + 1) outs dir
      (dir, out :: outs, ok)

def chunkSize : Nat := 2 ^ 20

/-- The rounds of the decoder. -/
def decodeRounds (rs : ReedSolomon16) (tableSize : List Nat) (shard : Nat) :
    Nat → Nat → List Stream → List Output → Directory → Directory × Bool
  | 0, _, _, _, dir => (dir, true)
  | rounds + 1, processed, sources, outs, dir =>
    if processed ≥ shard then (dir, true)
    else
      let chunk := min chunkSize (shard - processed)
      let units := sources.map (readRound dir chunk)
      let recon := fun e => rs.foldUnits env.kernel e 0 units (List.replicate chunk 0)
      let sources := sources.map (advance dir chunk)
      let (dir, outs, ok) := writeRound env tableSize processed chunk recon 0 outs dir
      if ok then
        decodeRounds rs tableSize shard rounds (processed + chunk) sources outs dir
      else (dir, false)

/-- A reconstructed volume has the checksum of the table. -/
def verifyOutput (dir : Directory) (tableCrc : List Nat) (out : Output) : Bool :=
  match openRead env .verify dir out.name with
  | none => false
  | some id => crc32 (dir.data id) = tableCrc.getD out.slot 0

/-! ## The repair -/

/-- The result, and the directory afterwards. -/
structure RepairOutcome where
  ok : Bool
  dir : Directory

/-- A failure after the first move. -/
def failWithRollback (dir : Directory) (moved created : List FileName) : RepairOutcome where
  ok := false
  dir := dir.rollback badName moved created

/-- Everything that is known before a file is touched. -/
structure RepairPlan where
  vols : List DataVol
  rs : ReedSolomon16
  tableSize : List Nat
  tableCrc : List Nat
  sources : List Stream

/-- The volumes that have to be reconstructed, with their names. -/
def RepairPlan.erased (plan : RepairPlan) : List (Nat × FileName) :=
  (plan.vols.mapIdx fun i vol => (i, vol)).filterMap fun (i, vol) =>
    if vol.valid then none else some (i, vol.path)

def RepairPlan.corrupt (plan : RepairPlan) : List FileName :=
  (plan.vols.filter DataVol.corrupt).map DataVol.path

/-- The largest volume, rounded up to words. -/
def RepairPlan.shard (plan : RepairPlan) : Nat := (plan.tableSize.foldl max 0 + 1) % 2 ^ 64 / 2 * 2

/-- The part of the repair that only reads: refused, nothing to do, or a plan. -/
def planRepair (arcName : FileName) (dir : Directory) : Except Bool RepairPlan :=
  let scan := scanRevs env arcName dir
  if scan.revs = [] ∨ scan.nd = 0 then .error false
  else
    let vols := collectVolumes env arcName dir scan
    let missing := (vols.filter fun vol => !vol.valid).length
    if missing = 0 then .error true
    -- A table that no present volume matches belongs to another set.
    else if vols.any DataVol.corrupt ∧ ¬ vols.any DataVol.valid then .error false
    else
      let revs := dropDuplicates scan.revs []
      if missing > (revs.filter RevInfo.valid).length ∨ missing > 200 then .error false
      else
        let valid := vols.map DataVol.valid ++
          (List.range scan.nr).map fun k => revs.any fun r =>
            r.valid && r.paritySlotId = scan.nd + k
        match ReedSolomon16.init scan.nd scan.nr (some valid) with
        | none => .error false
        | some rs =>
          match openSources env dir revs scan.nd scan.nr valid vols 0 scan.nd with
          | none => .error false
          | some sources =>
            .ok
              { vols := vols
                rs := rs
                tableSize := scan.tableSize
                tableCrc := scan.tableCrc
                sources := sources }

/-- Decode the outputs and compare them with the table. -/
def finishRepair (plan : RepairPlan) (moved : List FileName)
    (outs : List Output) (dir : Directory) : RepairOutcome :=
  let created := outs.map Output.name
  let (dir, ok) :=
    decodeRounds env plan.rs plan.tableSize plan.shard (plan.shard / chunkSize + 1) 0
      plan.sources outs dir
  if ¬ ok then failWithRollback dir moved created
  else if ¬ outs.all (verifyOutput env dir plan.tableCrc) then failWithRollback dir moved created
  else { ok := true, dir := dir }

/-- The part of the repair that changes the directory. -/
def executeRepair (plan : RepairPlan) (dir : Directory) : RepairOutcome :=
  let (dir, moved, ok) := moveAside env plan.corrupt dir []
  if ¬ ok then failWithRollback dir moved []
  else
    let (dir, outs, ok) := createOutputs env plan.erased dir []
    if ¬ ok then failWithRollback dir moved (outs.map Output.name)
    else finishRepair env plan moved outs dir

/-- `repair_rev_volumes` -/
def repairRevVolumes (arcName : FileName) (dir : Directory) : RepairOutcome :=
  match planRepair env arcName dir with
  | .error ok => { ok := ok, dir := dir }
  | .ok plan => executeRepair env plan dir

end OpenRar.Recovery
