import OpenRar.Format.HeaderRecords

/-!
# Round trip of a file header

A well-formed block is read back from the body that the writer produces, for every
combination of records, every head flag and both widths of the packed size.  Fields
that no record carries come back as those of an empty block.
-/

namespace OpenRar.Format

open OpenRar.Core HeaderWriter HeaderReader List

/-- The fields of a block that its header carries, the others cleared.  A stored file
without dictionary bits has no window. -/
def serialised (b : FileBlock) : FileBlock :=
  { b with
    serviceType := []
    dataCrc32 := if b.hasCrc32 then b.dataCrc32 else 0
    blake2sp := if b.hasBlake2sp then b.blake2sp else .zero 32
    owner := serialisedOwner b.owner
    fileVersion := if b.hasFileVersion then b.fileVersion else 0
    comp :=
      { b.comp with
        winSize := if b.comp.method = 0 ∧ b.comp.winSize < 0x40000 then 0 else b.comp.winSize }
    crypt := serialisedCrypt b.crypt
    redir := serialisedRedir b.redir
    subData := [] }

/-- The compression fields that a header can carry: no window for a stored file, or a
window on the grid. -/
structure CompWellFormed (c : Compression) : Prop where
  method : c.method ≤ 5
  version : c.unpVer ≤ 1
  flavour : c.extraDist = true → c.unpVer = 1
  window : (c.method = 0 ∧ c.winSize = 0) ∨ OnGrid c.unpVer c.winSize

/-- The blocks of files that a header can carry. -/
structure WellFormed (b : FileBlock) : Prop extends Bounded b where
  file : b.isService = false
  crc : b.hasCrc32 = hasFlag b.fileFlags fhflCrc32
  utime : b.utimeUnix ≠ 0 → hasFlag b.fileFlags fhflUtime = true
  unknown : b.unpUnknown = hasFlag b.fileFlags fhflUnpUnknown
  comp : CompWellFormed b.comp
  crypt : CryptBounded b.crypt
  check : CheckAnnounced b.crypt
  redir : RedirWellFormed b.redir
  times : TimesNormal b.times
  version : b.fileVersion < 2 ^ 64
  owner : OwnerWellFormed b.owner
  xattrs : XattrsWellFormed b.xattrs
  extras : Captured b.unknownExtras

variable {b : FileBlock}

theorem CompWellFormed.decode {c : Compression} (h : CompWellFormed c) :
    decodeCompInfo (encodeCompInfo c) =
      { c with winSize := if c.method = 0 ∧ c.winSize < 0x40000 then 0 else c.winSize } := by
  have hmethod := h.method
  have hversion := h.version
  rcases h.window with ⟨hstored, hnone⟩ | hgrid
  · obtain ⟨hdecVer, hdecSolid, hdecMethod⟩ := decodeCompInfo_encodeCompInfo c
    rw [Nat.mod_eq_of_lt (by omega)] at hdecVer hdecMethod
    have hextra := decodeCompInfo_extraDist (by omega) h.flavour
    have hfields : dictFields c = (0, 0) := by
      rw [dictFields, if_neg (by omega)]
    have hwindow : (decodeCompInfo (encodeCompInfo c)).winSize = 0 := by
      have hword := encodeCompInfo_eq c
      have hsolid : (if c.isSolid then 1 else 0) < 2 := by split <;> decide
      rw [hfields] at hword
      show decodeWinSize (encodeCompInfo c) _ (decodeCompInfo (encodeCompInfo c)).method = 0
      rw [hdecMethod, decodeWinSize, if_pos]
      refine Or.inr ⟨hstored, (and_0x7C00 _).mpr ?_⟩
      omega
    rw [if_pos ⟨hstored, by omega⟩]
    generalize decodeCompInfo (encodeCompInfo c) = dec at *
    obtain ⟨method, winSize, isSolid, unpVer, extraDist⟩ := dec
    dsimp only at *
    rw [hdecVer, hdecSolid, hdecMethod, hextra, hwindow]
  · exact decodeCompInfo_onGrid hgrid (by omega) h.flavour

theorem WellFormed.fixedPart (h : WellFormed b) :
    fixedPart b =
      { isService := b.isService
        fileFlags := b.fileFlags
        unpSize := b.unpSize
        unpUnknown := b.unpUnknown
        packSize := b.packSize
        attributes := b.attributes
        utimeUnix := b.utimeUnix
        hasCrc32 := b.hasCrc32
        dataCrc32 := if b.hasCrc32 then b.dataCrc32 else 0
        comp := (serialised b).comp
        hostOs := b.hostOs
        fileName := b.fileName } := by
  have hutime : (if hasFlag b.fileFlags fhflUtime then b.utimeUnix else 0) = b.utimeUnix := by
    split
    · rfl
    · next hflag =>
      by_contra hne
      exact hflag (h.utime (Ne.symm hne))
  unfold Format.fixedPart
  rw [effFileFlags_eq h.crc h.utime, hutime, ← h.crc, ← h.unknown, h.comp.decode,
    if_neg (by simp [h.file])]
  rfl

/-- **The extra area of a well-formed block is read back.** -/
theorem WellFormed.parseArea (h : WellFormed b) (hlen : (extraArea b).length < 2 ^ 64) :
    parseArea (extraArea b) (Format.fixedPart b) = some (serialised b) := by
  have hnone : subdataRecord b = [] := by
    rw [subdataRecord, if_neg (by simp [h.file])]
  unfold extraArea at hlen ⊢
  simp only [length_append] at hlen
  rw [h.fixedPart, hnone, nil_append,
    parseArea_cryptRecord rfl h.crypt h.check (by omega),
    parseArea_redirRecord rfl h.redir (by omega),
    parseArea_hashRecord rfl rfl,
    parseArea_htimeRecord rfl h.times (by omega),
    parseArea_versionRecord rfl rfl h.version (by omega),
    parseArea_ownerRecord rfl h.owner (by omega),
    parseArea_xattrRecord rfl h.xattrs (by omega),
    h.extras.parseArea]
  rfl

variable {extraHeadFlags : Nat} {fixedPackSizeVint : Bool}

theorem fileBody_parts_lt (hlen : (fileBody b extraHeadFlags fixedPackSizeVint).length < 2 ^ 64) :
    b.fileName.length < 2 ^ 64 ∧ (extraArea b).length < 2 ^ 64 := by
  unfold fileBody at hlen
  simp only [length_append] at hlen
  omega

/-- A written header is read as its fixed fields and then its extra area. -/
theorem parseFileHeader_fileBody (hb : Bounded b)
    (hlen : (fileBody b extraHeadFlags fixedPackSizeVint).length < 2 ^ 64) :
    parseFileHeader (fileBody b extraHeadFlags fixedPackSizeVint) =
      HeaderReader.parseArea (extraArea b) (fixedPart b) := by
  obtain ⟨hname, hextra⟩ := fileBody_parts_lt hlen
  unfold parseFileHeader
  rw [parseFixed_fileBody hb hname hextra]
  dsimp only [Option.bind_eq_bind, Option.bind_some]
  by_cases hnone : extraArea b = []
  · rw [hnone]
    rfl
  · rw [if_pos (length_pos_iff.mpr hnone), if_neg (Nat.lt_irrefl _), Nat.sub_self, drop_zero]
    rfl

/-- **Round trip of a file header.** -/
theorem file_header_round_trip (b : FileBlock) (h : WellFormed b) (extraHeadFlags : Nat)
    (fixedPackSizeVint : Bool)
    (hlen : (fileBody b extraHeadFlags fixedPackSizeVint).length < 2 ^ 64) :
    parseFileHeader (fileBody b extraHeadFlags fixedPackSizeVint) = some (serialised b) := by
  rw [parseFileHeader_fileBody h.toBounded hlen, h.parseArea (fileBody_parts_lt hlen).2]

/-- A block with an encryption record, nanosecond times, an owner, an attribute, an
unknown record and a window between two powers of two. -/
def sampleBlock : FileBlock where
  fileFlags := 0x06
  unpSize := 300
  packSize := 200
  hasCrc32 := true
  dataCrc32 := 0x12345678
  utimeUnix := 1700000000
  times := { mtime := { unix := 1700000000, ns := 5, hasNs := true }, isUnix := true }
  owner := { hasOwner := true, user := [117], hasUid := true, uid := 1000 }
  comp := { method := 3, winSize := 0x300000, unpVer := 1 }
  fileName := [97, 46, 116]
  crypt :=
    { isEncrypted := true
      flags := 1
      lg2Count := 15
      hasPswCheck := true
      pswCheck := ⟨[1, 2, 3, 4, 5, 6, 7, 8], rfl⟩ }
  xattrs := [⟨[117, 46, 120], [1]⟩]
  unknownExtras := [⟨0x20, [2, 0x20, 7]⟩]

theorem sampleBlock_wellFormed : WellFormed sampleBlock where
  toBounded := by constructor <;> decide
  file := rfl
  crc := by decide
  utime := by decide
  unknown := by decide
  comp :=
    { method := by decide
      version := by decide
      flavour := by decide
      window := Or.inr (.rar7 4 16 rfl (by decide) (by decide) (by decide) (by decide)) }
  crypt := ⟨by decide, by decide⟩
  check := ⟨by decide, by decide⟩
  redir := ⟨by decide, by decide⟩
  times :=
    { stamps :=
        ⟨true, by decide,
          by constructor <;> decide, by constructor <;> decide, by constructor <;> decide⟩
      unix := by decide }
  version := by decide
  owner := by constructor <;> decide
  xattrs := ⟨by decide, by decide⟩
  extras := by
    have hsize : SizeBytes [2] 2 := fun tail => readVint_pushVint (show 2 < 2 ^ 64 by decide) tail
    have hunknown : Unrecognised 2 0x20 [7] := by constructor <;> decide
    exact @Captured.cons [2] [7] 0x20 [] hsize hunknown .nil

theorem file_header_round_trip_sample :
    WellFormed sampleBlock ∧ (fileBody sampleBlock 0x08 true).length < 2 ^ 64 ∧
      parseFileHeader (fileBody sampleBlock 0x08 true) = some (serialised sampleBlock) := by
  have hlen : (fileBody sampleBlock 0x08 true).length < 2 ^ 64 := by decide
  exact ⟨sampleBlock_wellFormed, hlen,
    file_header_round_trip sampleBlock sampleBlock_wellFormed 0x08 true hlen⟩

/-- A stored file with the smallest window of the grid. -/
def storedBlock : FileBlock where
  packSize := 0
  comp := { method := 0, winSize := 0x20000 }
  fileName := [97]

theorem storedBlock_wellFormed : WellFormed storedBlock where
  toBounded := by constructor <;> decide
  file := rfl
  crc := by decide
  utime := by decide
  unknown := by decide
  comp :=
    { method := by decide
      version := by decide
      flavour := by decide
      window := Or.inr (.rar5 0 rfl (by decide) rfl) }
  crypt := ⟨by decide, by decide⟩
  check := ⟨by decide, by decide⟩
  redir := ⟨by decide, by decide⟩
  times :=
    { stamps :=
        ⟨false, by decide,
          by constructor <;> decide, by constructor <;> decide, by constructor <;> decide⟩
      unix := by decide }
  version := by decide
  owner := by constructor <;> decide
  xattrs := ⟨by decide, by decide⟩
  extras := .nil

/-- The reader reports no window for it, although the window is on the grid. -/
theorem stored_window_not_kept :
    WellFormed storedBlock ∧ OnGrid storedBlock.comp.unpVer storedBlock.comp.winSize ∧
      (parseFileHeader (fileBody storedBlock 0 false)).map (fun b => b.comp.winSize) = some 0 ∧
      storedBlock.comp.winSize = 0x20000 :=
  ⟨storedBlock_wellFormed, .rar5 0 rfl (by decide) rfl, by decide, rfl⟩

end OpenRar.Format
