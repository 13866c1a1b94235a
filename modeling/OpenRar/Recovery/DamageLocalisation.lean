import OpenRar.Recovery.RecoveryRecord

/-!
# Localising damage by the entries of a record

Tier T0 of `RecoveryWriter::repair`.  The entries of a checked record are checksums of
byte ranges of the file, one for each slice of each chunk.  A chunk is intact if all of
its slices have their checksum.  The model keeps the ranges that are checksummed, in the
order in which the source reads them.

A range is clipped at the protected size by a subtraction without sign.  It stays in the
file exactly as long as it begins at or before the protected size
(`CheckedRecord.checkSlice_inside_iff`); the structural checks do not ensure that.
-/

namespace OpenRar.Recovery

open OpenRar.Core List
open OpenRar.Crypto

/-- A byte range `[off, off + len)` of the file that is checksummed for a chunk. -/
structure CheckedRange where
  chunk : Nat
  off : Nat
  len : Nat
deriving DecidableEq

/-- What T0 finds: the chunks that may be used, how many are missing, whether the entries
decided that, and whether `repair` goes on. -/
structure Localisation where
  dataValid : List Bool
  missing : Nat
  applied : Bool
  accepted : Bool
  ranges : List CheckedRange
deriving DecidableEq

namespace CheckedRecord

variable {file : FileContents} (r : CheckedRecord file)

/-! ## Valid shards and chunks -/

/-- The shard `j` passes its own checks and agrees with the first one. -/
def parityValid (j : Nat) : Bool :=
  let raw := r.rr.rawData
  let off := j * r.totalSize
  off + r.totalSize ≤ raw.length && hasMagic raw off && hasCrc64 raw off r.totalSize &&
    fieldAt 4 raw (off + shardTotalOff) = r.totalSize &&
    fieldAt 4 raw (off + shardHeaderOff) = r.headerSize &&
    fieldAt 2 raw (off + shardDField) = r.d &&
    fieldAt 2 raw (off + shardNrField) = r.nr

def validShards : List Nat := (List.range r.nr).filter r.parityValid

/-- The bytes in front of the record. -/
def available : Nat := min r.protSize r.rr.headerOffset

/-- No byte of the chunk `i` is cut off. -/
def chunkValid (i : Nat) : Bool :=
  min ((i + 1) * r.groupCount) r.protSize ≤ r.available

/-! ## The slices -/

/-- The entries of the valid shards as one slice over whole chunks, if all shards have the
same ones. -/
def wholeSlice : List RrSlice :=
  if r.headerSize ≥ shardStateArr + (r.d + 1) * 8 then
    match r.validShards with
    | [] => []
    | j :: shards =>
      let entries := fun j => (r.rr.rawData.drop (j * r.totalSize + shardStateArr)).take (r.d * 8)
      if shards.all fun k => entries k = entries j then
        [.cast 0 (min r.groupCount r.protSize) (entriesAt r.rr.rawData (j * r.totalSize) r.d)]
      else []
  else []

/-- `t0_slices` -/
def t0Slices : List RrSlice :=
  if r.slices = [] then r.wholeSlice else r.slices

/-- A slice all of whose entries are zero says nothing. -/
def usable : Bool :=
  r.t0Slices.all fun slice => (slice.entries.take r.d).any (· ≠ 0)

/-- The range of a slice in the chunk `i`, clipped at the protected size. -/
def sliceRange (i : Nat) (slice : RrSlice) : CheckedRange :=
  let off := (i * r.groupCount + slice.offset) % 2 ^ 64
  { chunk := i
    off := off
    len :=
      if (off + slice.len) % 2 ^ 64 > r.protSize then (2 ^ 64 + r.protSize - off) % 2 ^ 64
      else slice.len }

/-- The loop over the slices of the chunk `i`: whether it is intact, and the ranges that
were checksummed. -/
def checkChunk (i : Nat) : List RrSlice → Bool × List CheckedRange
  | [] => (true, [])
  | slice :: slices =>
    let range := r.sliceRange i slice
    if (range.off + range.len) % 2 ^ 64 > r.available then (false, [])
    else if rawCrc64 ((file.bytes.drop range.off).take range.len) ≠ slice.entries.getD i 0 then
      (false, [range])
    else
      let (intact, ranges) := checkChunk i slices
      (intact, range :: ranges)

/-- A chunk that is cut off is an erasure whatever its entries say. -/
def t0Chunk (i : Nat) : Bool × List CheckedRange :=
  if r.chunkValid i then r.checkChunk i r.t0Slices else (false, [])

/-! ## The tier -/

/-- Damage is localised by the entries if they are usable, and by truncation alone if they
are not. -/
def localise : Localisation :=
  if r.t0Slices ≠ [] ∧ r.usable then
    let chunks := (List.range r.d).map r.t0Chunk
    let dataValid := chunks.map Prod.fst
    let missing := dataValid.count false
    { dataValid := dataValid
      missing := missing
      applied := missing ≤ r.validShards.length
      accepted := missing ≤ r.validShards.length
      ranges := chunks.flatMap Prod.snd }
  else
    let dataValid := (List.range r.d).map r.chunkValid
    let missing := dataValid.count false
    { dataValid := dataValid
      missing := missing
      applied := false
      accepted := missing ≤ r.validShards.length
      ranges := [] }

end CheckedRecord

/-- `repair` of a file up to the end of T0; none if it was refused before. -/
def localiseDamage (file : FileContents) (sfxOffset : Nat) :
    Option (CheckedRecord file × Localisation) := do
  let r ← findRecord file sfxOffset
  if r.validShards = [] then none else some (r, r.localise)

namespace CheckedRecord

variable {file : FileContents} (r : CheckedRecord file)

/-! ## Where the checksummed ranges lie -/

theorem protSize_lt : r.protSize < 2 ^ 41 := by
  have hprot := r.prot_le
  have hgroup := r.group_lt
  have hd : r.d * r.groupCount ≤ 200 * r.groupCount := Nat.mul_le_mul_right _ r.d_le
  omega

theorem available_le : r.available ≤ file.bytes.length := by
  have hfits := r.header_fits
  have hmin : r.available ≤ r.rr.headerOffset := min_le_right _ _
  omega

/-- The clip leaves a slice in the file if the slice begins in the protected part, and
otherwise gives it a length of almost `2 ^ 64`. -/
theorem checkSlice_inside_iff (i : Nat) (slice : RrSlice)
    (hend : ((r.sliceRange i slice).off + (r.sliceRange i slice).len) % 2 ^ 64 ≤ r.available) :
    (r.sliceRange i slice).off + (r.sliceRange i slice).len ≤ file.bytes.length ↔
      (r.sliceRange i slice).off ≤ r.protSize := by
  have hprot := r.protSize_lt
  have havailable := r.available_le
  have hsize := file.size_lt
  have hlen := slice.len_lt
  generalize hrange : r.sliceRange i slice = range at *
  have hclip : range.len =
      if (range.off + slice.len) % 2 ^ 64 > r.protSize then
        (2 ^ 64 + r.protSize - range.off) % 2 ^ 64
      else slice.len := by
    rw [← hrange]
    rfl
  by_cases hpast : (range.off + slice.len) % 2 ^ 64 > r.protSize
  · -- Here the length is a difference, which is negative if the slice begins too late.
    rw [if_pos hpast] at hclip
    omega
  · -- An unclipped slice that begins too late has an end beyond `2 ^ 64`.
    rw [if_neg hpast] at hclip
    omega

variable {range : CheckedRange}

theorem mem_checkChunk (i : Nat) (slices : List RrSlice) (h : range ∈ (r.checkChunk i slices).2) :
    ∃ slice, range = r.sliceRange i slice ∧
      (range.off + range.len) % 2 ^ 64 ≤ r.available := by
  induction slices with
  | nil => simp [checkChunk] at h
  | cons slice slices ih =>
    by_cases hend : ((r.sliceRange i slice).off + (r.sliceRange i slice).len) % 2 ^ 64 >
        r.available
    · rw [checkChunk, if_pos hend] at h
      simp at h
    · have hhead : range = r.sliceRange i slice → ∃ s,
          range = r.sliceRange i s ∧ (range.off + range.len) % 2 ^ 64 ≤ r.available := by
        rintro rfl
        exact ⟨slice, rfl, Nat.le_of_not_lt hend⟩
      rw [checkChunk, if_neg hend] at h
      split at h
      · -- The first slice whose checksum differs is the last one that is read.
        exact hhead (mem_singleton.mp h)
      · rcases mem_cons.mp h with h | h
        · exact hhead h
        · exact ih h

theorem mem_localise_ranges (h : range ∈ r.localise.ranges) :
    ∃ i slice, range = r.sliceRange i slice ∧
      (range.off + range.len) % 2 ^ 64 ≤ r.available := by
  rw [localise] at h
  split at h
  · simp only [mem_flatMap, mem_map, mem_range] at h
    obtain ⟨_, ⟨i, -, rfl⟩, h⟩ := h
    rw [t0Chunk] at h
    split at h
    · exact ⟨i, r.mem_checkChunk i _ h⟩
    · simp at h
  · simp at h

end CheckedRecord

/-- **The checksummed ranges lie in the file exactly if none of them begins behind the
protected size.** -/
theorem localiseDamage_inside_iff (file : FileContents) (sfxOffset : Nat)
    {r : CheckedRecord file} {found : Localisation}
    (h : localiseDamage file sfxOffset = some (r, found)) :
    (∀ range ∈ found.ranges, range.off + range.len ≤ file.bytes.length) ↔
      ∀ range ∈ found.ranges, range.off ≤ r.protSize := by
  have hfound : found = r.localise := by
    simp only [localiseDamage, Option.bind_eq_bind, Option.bind_eq_some_iff] at h
    obtain ⟨r', -, h⟩ := h
    split at h
    · cases h
    · cases h
      rfl
  subst hfound
  refine forall₂_congr fun range hrange => ?_
  obtain ⟨i, slice, rfl, hend⟩ := r.mem_localise_ranges hrange
  exact r.checkSlice_inside_iff i slice hend

/-! ## Two small archives -/

/-- A block of fewer than 128 bytes. -/
def smallBlock (body : List UInt8) : List UInt8 :=
  let sized := UInt8.ofNat body.length :: body
  writeLe 4 (crc32 sized) ++ sized

/-- The signature and a main header, sixteen bytes. -/
def protectedPart : List UInt8 :=
  [0x52, 0x61, 0x72, 0x21, 0x1A, 0x07, 0x01, 0x00] ++ smallBlock [0x01, 0x00, 0x08]

/-- An archive of nothing but a recovery record over `protectedPart`: `d` chunks of `group`
bytes, one parity shard, and the checksum of the first chunk as its only entry. -/
def recordArchive (d group : Nat) : List UInt8 :=
  let header := shardStateArr + (d + 1) * 8
  let total := header + group
  let tail :=
    writeLe 4 total ++ writeLe 4 header ++ [0x01, 0x01] ++ writeLe 8 0 ++ writeLe 4 0 ++
      writeLe 8 protectedPart.length ++ writeLe 8 group ++ writeLe 8 total ++ writeLe 2 d ++
      writeLe 2 1 ++ writeLe 2 0 ++ writeLe 8 (rawCrc64 protectedPart) ++
      List.replicate (d * 8 + group) 0
  let size := UInt8.ofNat total
  protectedPart ++
    smallBlock ([0x03, 0x02, size, 0x00, size, 0x00, 0x00, 0x00, 0x02] ++ serviceRr) ++
      shardMagic ++ writeLe 8 (crc64Xz tail) ++ tail

/-- One chunk that holds the whole protected part. -/
def oneChunkArchive : FileContents := ⟨recordArchive 1 16, by decide +kernel⟩

/-- Two chunks, the second of which begins behind the protected part. -/
def emptyChunkArchive : FileContents := ⟨recordArchive 2 18, by decide +kernel⟩

/-- The ranges that are checksummed in a file. -/
def damageRanges (file : FileContents) : Option (List CheckedRange) :=
  (localiseDamage file 0).map fun result => result.2.ranges

theorem exists_of_damageRanges {file : FileContents} {ranges : List CheckedRange}
    (h : damageRanges file = some ranges) :
    ∃ r found, localiseDamage file 0 = some (r, found) ∧ found.ranges = ranges := by
  obtain ⟨⟨r, found⟩, hresult, hranges⟩ := Option.map_eq_some_iff.mp h
  exact ⟨r, found, hresult, hranges⟩

set_option maxRecDepth 20000 in
theorem damageRanges_oneChunk : damageRanges oneChunkArchive = some [⟨0, 0, 16⟩] := by
  decide +kernel

set_option maxRecDepth 20000 in
theorem damageRanges_emptyChunk :
    damageRanges emptyChunkArchive = some [⟨0, 0, 16⟩, ⟨1, 18, 2 ^ 64 - 2⟩] := by
  decide +kernel

/-- The record of `oneChunkArchive` is found, and its only range lies in the file. -/
theorem localiseDamage_oneChunk :
    ∃ r found, localiseDamage oneChunkArchive 0 = some (r, found) ∧ found.ranges ≠ [] ∧
      ((∀ range ∈ found.ranges, range.off + range.len ≤ oneChunkArchive.bytes.length) ↔
        ∀ range ∈ found.ranges, range.off ≤ r.protSize) := by
  obtain ⟨r, found, hresult, hranges⟩ := exists_of_damageRanges damageRanges_oneChunk
  refine ⟨r, found, hresult, ?_, localiseDamage_inside_iff oneChunkArchive 0 hresult⟩
  simp [hranges]

/-- The range of the second chunk of `emptyChunkArchive` has `2 ^ 64 - 2` bytes. -/
theorem localiseDamage_emptyChunk :
    ∃ r found, localiseDamage emptyChunkArchive 0 = some (r, found) ∧
      ∃ range ∈ found.ranges, ¬ range.off + range.len ≤ emptyChunkArchive.bytes.length := by
  obtain ⟨r, found, hresult, hranges⟩ := exists_of_damageRanges damageRanges_emptyChunk
  have hsize := emptyChunkArchive.size_lt
  refine ⟨r, found, hresult, ⟨1, 18, 2 ^ 64 - 2⟩, by simp [hranges], ?_⟩
  dsimp only
  omega

end OpenRar.Recovery
