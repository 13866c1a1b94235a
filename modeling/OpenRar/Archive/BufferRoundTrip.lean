import OpenRar.Archive.BlockReaders
import OpenRar.Compress.CodecRoundTrip
import OpenRar.Format.HeaderRoundTrip

/-!
# Round trip of an archive in memory

`create_archive` followed by `extract_all` gives back the list of paths and contents, for
every list that the writer accepts and the collision detector has no complaint about.

Headers are read back through the round trip of the other serialiser, with whose bytes
those of this one agree; compressed contents through the round trip of the codec.
-/

namespace OpenRar.Archive

open OpenRar.Core OpenRar.Crypto OpenRar.Format OpenRar.Compress HeaderWriter HeaderReader List
  Option

/-! ## Blocks -/

theorem readBlockRawMem_wrapBlock {body : List UInt8} {block : RawBlock}
    (hsize : body.length ≤ 2 * 1024 * 1024) (hblock : parseBlockFields body = some block)
    (rest : List UInt8) : readBlockRawMem (wrapBlock body ++ rest) = .ok (block, rest) := by
  set crc := crc32From (crc32From 0#32 (pushVint body.length)) body
  have hcrc : readLe (writeLe 4 crc.toNat) = crc.toNat := by
    rw [readLe_writeLe]
    exact Nat.mod_eq_of_lt crc.isLt
  have hread := (BlockBytes.mk (writeLe_length 4 crc.toNat) (readVint_pushVint (by omega)) hsize
    hcrc.symm hblock).read rest
  simpa [wrapBlock] using hread

/-- The block that the reader sees: without a data area its packed size is `-1`. -/
def announced (fb : FileBlock) (includeData : Bool) : FileBlock :=
  { fb with packSize := if includeData then fb.packSize else -1 }

/-- A block that only the fixed fields describe. -/
structure PlainBlock (fb : FileBlock) : Prop where
  file : fb.isService = false
  area : extraArea fb = []
  utime : hasFlag (effFileFlags fb) fhflUtime = false
  comp : buildCompInfo fb.comp = encodeCompInfo fb.comp
  packed : 0 ≤ fb.packSize

variable {b fb : FileBlock}

theorem headFlags_plain (harea : extraArea b = []) :
    headFlags b 0 = if b.packSize ≥ 0 then hflData else 0 := by
  unfold headFlags
  simp [harea]

theorem PlainBlock.buildFileBody_eq (h : PlainBlock fb) (unixToDosTime : Nat → Nat)
    (includeData : Bool) :
    buildFileBody unixToDosTime fb includeData = fileBody (announced fb includeData) 0 false := by
  have harea : extraArea (announced fb includeData) = [] := h.area
  have hfields : effFileFlags (announced fb includeData) = effFileFlags fb := rfl
  have hcomp : encodeCompInfo (announced fb includeData).comp = buildCompInfo fb.comp := h.comp.symm
  have hpacked := h.packed
  unfold buildFileBody fileBody
  dsimp only
  rw [headFlags_plain harea, harea, hfields, hcomp, h.utime]
  cases includeData with
  | false => simp [announced, packSizeField, hasFlag]
  | true => simp [announced, packSizeField, hasFlag, hflData, hpacked]

theorem parseBlockFields_fileBody (flags : Nat) (hextra : (extraArea b).length < 2 ^ 64)
    (hpack : b.packSize = -1 ∨ (0 ≤ b.packSize ∧ b.packSize < 2 ^ 63)) :
    parseBlockFields (fileBody b flags false) =
      some ⟨if b.isService then headService else headFile, headFlags b flags,
        fileBody b flags false, b.packSize.toNat⟩ := by
  have htype : (if b.isService then headService else headFile) < 2 ^ 64 := by split <;> decide
  have hdata : ∀ rest, readIf (hasFlag (headFlags b flags) hflData) 0 readVint
      (packSizeField b false ++ rest) = some (b.packSize.toNat, rest) := by
    intro rest
    rw [headFlags_data]
    unfold packSizeField readIf
    rcases hpack with hnone | ⟨hpos, hlt⟩
    · rw [hnone]
      rfl
    · rw [if_pos (by simpa using hpos), if_pos hpos, if_neg (by decide)]
      exact readVint_pushVint (by omega) rest
  unfold parseBlockFields
  rw [fileBody, readVint_pushVint htype]
  dsimp only [bind_eq_bind, bind_some]
  rw [readVint_pushVint (headFlags_lt b flags)]
  dsimp only [bind_some]
  rw [readIf_extraSize flags hextra]
  dsimp only [bind_some]
  rw [hdata]
  rfl

/-! ## What an item becomes -/

/-- The header that the reader gets from a block. -/
def readHeader (fb : FileBlock) (includeData : Bool) : FileBlock :=
  fixedPart (announced fb includeData)

/-- A header and its data as the writer puts them together. -/
structure WiredItem (fb : FileBlock) (includeData : Bool) (data : List UInt8) : Prop
    extends PlainBlock fb where
  bounded : Bounded (announced fb includeData)
  name : fb.fileName.length ≤ 2048
  solid : (readHeader fb includeData).comp.isSolid = false
  size : (announced fb includeData).packSize.toNat = data.length

section

variable {includeData : Bool} {data : List UInt8} (h : WiredItem fb includeData data)
include h

/-- A body is short when the name in it is. -/
theorem WiredItem.length_le (harea : extraArea b = []) (hname : b.fileName = fb.fileName) :
    (fileBody b 0 false).length ≤ 2 * 1024 * 1024 := by
  have hle := fileBody_length_le b 0
  have hshort := h.name
  rw [harea, hname, length_nil] at hle
  omega

/-- The block in front of the data is read as the header says. -/
theorem WiredItem.read (unixToDosTime : Nat → Nat) (rest : List UInt8) :
    ∃ block, readBlockRawMem (buildFileBlockBytes unixToDosTime fb includeData ++ rest) =
        .ok (block, rest) ∧
      block.type = headFile ∧ block.dataSize = data.length ∧
      parseFileHeader block.body = some (readHeader fb includeData) := by
  have harea : extraArea (announced fb includeData) = [] := h.area
  have hlength := h.length_le harea rfl
  have hfields := parseBlockFields_fileBody 0 (by rw [harea]; decide) h.bounded.packSize
  unfold buildFileBlockBytes
  rw [h.buildFileBody_eq]
  refine ⟨_, readBlockRawMem_wrapBlock hlength hfields rest, if_neg ?_, h.size, ?_⟩
  · exact ne_true_of_eq_false h.file
  show parseFileHeader (fileBody (announced fb includeData) 0 false) = _
  rw [parseFileHeader_fileBody h.bounded (by omega), harea]
  rfl

theorem WiredItem.walk (unixToDosTime : Nat → Nat) (size fuel : Nat)
    (rest : List UInt8) (w : WalkState) :
    walkHeaders size (fuel + 1)
        (buildFileBlockBytes unixToDosTime fb includeData ++ (data ++ rest)) w =
      walkHeaders size fuel rest
        { w with
          entries := w.entries ++
            [bufferEntry (readHeader fb includeData) (size - (data ++ rest).length)] } := by
  obtain ⟨block, hread, htype, hdata, hparse⟩ := h.read unixToDosTime (data ++ rest)
  have hne : buildFileBlockBytes unixToDosTime fb includeData ++ (data ++ rest) ≠ [] := by
    intro hnil
    rw [hnil] at hread
    cases hread
  have hskip : skipData block.dataSize (data ++ rest) = some rest := by
    unfold skipData
    rw [hdata, if_neg (by rw [length_append]; omega), drop_left]
  have hplain : (readHeader fb includeData).crypt.isEncrypted = false := rfl
  rw [walkHeaders, if_neg hne, hread]
  dsimp only
  rw [if_neg (by rw [htype]; decide), if_pos (.inl htype), hparse]
  rw [hskip]
  dsimp only
  rw [h.solid, hplain, if_neg (by decide), if_neg (by decide)]

end

section Items

variable {p : Platform} {method winSize : Nat} {item : Item}

/-- The four forms of an item. -/
inductive ItemForm (p : Platform) (method winSize : Nat) (item : Item) :
    FileBlock → Bool → List UInt8 → Prop
  | directory (h : endsWithSlash item.path = true) :
      ItemForm p method winSize item
        { itemBlock item.path with fileFlags := fhflDirectory, packSize := 0 } false []
  | empty (h : endsWithSlash item.path = false) (hempty : item.content = []) :
      ItemForm p method winSize item { itemBlock item.path with packSize := 0 } false []
  | packed (h : endsWithSlash item.path = false) (hne : item.content ≠ []) {packed : List UInt8}
      (hmethod : method ≠ 0)
      (hpacked : Compressor50.compressBuffer p.host item.content method winSize {} = some packed)
      (hpackedNe : packed ≠ []) (hshorter : packed.length < item.content.length) :
      ItemForm p method winSize item (dataBlock item method winSize packed.length) true packed
  | stored (h : endsWithSlash item.path = false) (hne : item.content ≠ []) :
      ItemForm p method winSize item (dataBlock item 0 0 item.content.length) true item.content

theorem itemParts_form (p : Platform) (method winSize : Nat) (item : Item) :
    ItemForm p method winSize item (itemParts p method winSize item).1
      (itemParts p method winSize item).2.1 (itemParts p method winSize item).2.2 := by
  unfold itemParts
  by_cases h : endsWithSlash item.path = true
  · rw [if_pos h]
    exact .directory h
  · rw [if_neg h]
    have hfile := Bool.eq_false_of_not_eq_true h
    by_cases hempty : item.content = []
    · rw [if_pos hempty]
      exact .empty hfile hempty
    · rw [if_neg hempty]
      cases hform : compressedForm p method winSize item.content with
      | none => exact .stored hfile hempty
      | some packed =>
        unfold compressedForm at hform
        split at hform
        · cases hform
        · next hmethod =>
          obtain ⟨hpacked, hkept⟩ := filter_eq_some_iff.mp hform
          obtain ⟨hpackedNe, hshorter⟩ := of_decide_eq_true hkept
          exact .packed hfile hempty hmethod hpacked hpackedNe hshorter

theorem itemBytes_eq (p : Platform) (method winSize : Nat) (item : Item) :
    itemBytes p method winSize item =
      buildFileBlockBytes p.unixToDosTime (itemParts p method winSize item).1
        (itemParts p method winSize item).2.1 ++ (itemParts p method winSize item).2.2 := rfl

/-- The methods and windows that the writer lets through. -/
structure Settings (method winSize : Nat) : Prop where
  method_le : method ≤ 5
  window : method = 0 ∨ OnGrid 0 winSize
  window_low : 0x20000 ≤ winSize
  window_high : winSize ≤ 0x100000
  info : method ≠ 0 → buildCompInfo { method := method, winSize := winSize } =
    encodeCompInfo { method := method, winSize := winSize }

/-- Compression fields that come back as they are. -/
theorem Settings.decode (h : Settings method winSize) (hmethod : method ≠ 0) :
    decodeCompInfo (encodeCompInfo { method := method, winSize := winSize }) =
      { method := method, winSize := winSize } := by
  have hcomp : CompWellFormed { method := method, winSize := winSize } :=
    ⟨h.method_le, Nat.zero_le _, by simp, .inr (h.window.resolve_left hmethod)⟩
  rw [hcomp.decode]
  simp [hmethod]

theorem decode_stored : decodeCompInfo (encodeCompInfo {}) = {} := by decide

/-- The header of an entry without data. -/
def emptyBlock (path : Name) (flags : Nat) : FileBlock :=
  { itemBlock path with fileFlags := flags, packSize := 0 }

theorem effFileFlags_emptyBlock (path : Name) (flags : Nat) :
    effFileFlags (emptyBlock path flags) = flags := by
  simp [effFileFlags, emptyBlock, itemBlock]

theorem effFileFlags_dataBlock (item : Item) (method winSize packSize : Nat) :
    effFileFlags (dataBlock item method winSize packSize) = fhflCrc32 := by
  simp [effFileFlags, dataBlock, itemBlock]

variable {flags offset : Nat} {data whole more : List UInt8}

theorem readHeader_emptyBlock (path : Name) (h : flags = 0 ∨ flags = fhflDirectory) :
    readHeader (emptyBlock path flags) false =
      { itemBlock path with fileFlags := flags, packSize := -1 } := by
  have hflags : effFileFlags (announced (emptyBlock path flags) false) = flags :=
    effFileFlags_emptyBlock path flags
  have hbits : hasFlag flags fhflUnpUnknown = false ∧ hasFlag flags fhflUtime = false ∧
      hasFlag flags fhflCrc32 = false := by
    rcases h with rfl | rfl <;> decide
  have hcomp :
      decodeCompInfo (encodeCompInfo (announced (emptyBlock path flags) false).comp) = {} :=
    decode_stored
  unfold readHeader fixedPart
  rw [hflags, hbits.1, hbits.2.1, hbits.2.2, hcomp]
  rfl

theorem readHeader_dataBlock (item : Item) (method winSize packSize : Nat) :
    readHeader (dataBlock item method winSize packSize) true =
      { dataBlock item method winSize packSize with
        fileFlags := fhflCrc32
        comp := decodeCompInfo (encodeCompInfo { method := method, winSize := winSize }) } := by
  have hflags :
      effFileFlags (announced (dataBlock item method winSize packSize) true) = fhflCrc32 :=
    effFileFlags_dataBlock item method winSize packSize
  have hbits : hasFlag fhflCrc32 fhflUnpUnknown = false ∧ hasFlag fhflCrc32 fhflUtime = false ∧
      hasFlag fhflCrc32 fhflCrc32 = true := by decide
  unfold readHeader fixedPart
  rw [hflags, hbits.1, hbits.2.1, hbits.2.2]
  rfl

theorem bounded_dataBlock (hcontent : item.content.length < 2 ^ 63) {packSize : Nat}
    (hpack : packSize < 2 ^ 63) (method winSize : Nat) :
    Bounded (announced (dataBlock item method winSize packSize) true) where
  fileFlags := show 0 < 2 ^ 64 by decide
  unpSize := by
    show item.content.length < 2 ^ 64
    omega
  attributes := show 0x20 < 2 ^ 64 by decide
  packSize := by
    right
    show 0 ≤ (packSize : Int) ∧ (packSize : Int) < 2 ^ 63
    omega
  utimeUnix := show 0 < 2 ^ 32 by decide
  dataCrc32 := BitVec.isLt _
  hostOs := show 1 < 2 ^ 32 by decide

theorem bounded_emptyBlock (path : Name) (hflags : flags < 2 ^ 64) :
    Bounded (announced (emptyBlock path flags) false) where
  fileFlags := hflags
  unpSize := show 0 < 2 ^ 64 by decide
  attributes := show 0x20 < 2 ^ 64 by decide
  packSize := .inl rfl
  utimeUnix := show 0 < 2 ^ 32 by decide
  dataCrc32 := show 0 < 2 ^ 32 by decide
  hostOs := show 1 < 2 ^ 32 by decide

theorem wired_emptyBlock (hname : item.path.length ≤ 2048) (h : flags = 0 ∨ flags = fhflDirectory) :
    WiredItem (emptyBlock item.path flags) false [] where
  file := rfl
  area := rfl
  utime := by
    rw [effFileFlags_emptyBlock]
    rcases h with rfl | rfl <;> decide
  comp := show buildCompInfo {} = encodeCompInfo {} by decide
  packed := le_rfl
  bounded := bounded_emptyBlock _ (by rcases h with rfl | rfl <;> decide)
  name := hname
  solid := by
    rw [readHeader_emptyBlock _ h]
    rfl
  size := rfl

theorem wired_dataBlock (hname : item.path.length ≤ 2048) (hcontent : item.content.length < 2 ^ 63)
    (hdata : data.length < 2 ^ 63) {method winSize : Nat}
    (hinfo : buildCompInfo { method := method, winSize := winSize } =
      encodeCompInfo { method := method, winSize := winSize })
    (hsolid : (decodeCompInfo (encodeCompInfo { method := method, winSize := winSize })).isSolid =
      false) : WiredItem (dataBlock item method winSize data.length) true data where
  file := rfl
  area := rfl
  utime := by
    rw [effFileFlags_dataBlock]
    decide
  comp := hinfo
  packed := Int.natCast_nonneg _
  bounded := bounded_dataBlock hcontent hdata _ _
  name := hname
  solid := by
    exact hsolid
  size := Int.toNat_natCast _

/-- Every form is laid out as the walk expects. -/
theorem ItemForm.wired (hset : Settings method winSize) (hname : item.path.length ≤ 2048)
    (hcontent : item.content.length < 2 ^ 63) {fb : FileBlock} {includeData : Bool}
    (h : ItemForm p method winSize item fb includeData data) :
    WiredItem fb includeData data := by
  cases h with
  | directory _ => exact wired_emptyBlock hname (.inr rfl)
  | empty _ _ => exact wired_emptyBlock hname (.inl rfl)
  | packed _ _ hmethod _ _ hshorter =>
    refine wired_dataBlock hname hcontent (by omega) (hset.info hmethod) ?_
    rw [hset.decode hmethod]
  | stored _ _ => exact wired_dataBlock hname hcontent hcontent (by decide) (by decide)

/-- An entry of the list stands for an item and extracts to its contents. -/
structure Listed (p : Platform) (whole : List UInt8) (item : Item) (e : BufferEntry) : Prop where
  path : e.path = item.path
  isDir : e.isDir = endsWithSlash item.path
  size : e.size = item.content.length
  extract : extractOne p whole e = (.ok, item.content)

/-- The payload of a listed entry with data. -/
theorem extractOne_payload (hoffset : offset ≤ whole.length)
    (hwhole : whole.drop offset = data ++ more) :
    ¬ (offset > whole.length ∨ data.length > whole.length - offset) ∧
      (whole.drop offset).take data.length = data := by
  have hlength := congrArg List.length hwhole
  rw [length_drop, length_append] at hlength
  refine ⟨by omega, ?_⟩
  rw [hwhole, take_left]

/-- The entry of an item with data, for the compression fields that come back. -/
def dataEntry (item : Item) (comp : Compression) (dataSize offset : Nat) : BufferEntry where
  path := item.path
  isDir := false
  size := item.content.length
  method := comp.method
  winSize := comp.winSize
  extraDist := comp.extraDist
  isEncrypted := false
  dataOffset := offset
  dataSize := dataSize
  hasCrc32 := true
  crc32 := crc32 item.content
  hasBlake2sp := false
  blake2sp := .zero 32

/-- The entry of a directory or an empty file. -/
def emptyEntry (item : Item) (isDir : Bool) (offset : Nat) : BufferEntry where
  path := item.path
  isDir := isDir
  size := 0
  method := 0
  winSize := 0
  extraDist := false
  isEncrypted := false
  dataOffset := offset
  dataSize := 0
  hasCrc32 := false
  crc32 := 0
  hasBlake2sp := false
  blake2sp := .zero 32

theorem bufferEntry_emptyBlock (h : flags = 0 ∨ flags = fhflDirectory) (offset : Nat) :
    bufferEntry (readHeader (emptyBlock item.path flags) false) offset =
      emptyEntry item (flags = fhflDirectory) offset := by
  have hdir : hasFlag flags fhflDirectory = decide (flags = fhflDirectory) := by
    rcases h with rfl | rfl <;> decide
  rw [readHeader_emptyBlock _ h]
  unfold bufferEntry emptyEntry
  rw [hdir]
  rfl

theorem bufferEntry_dataBlock (item : Item) (method winSize packSize offset : Nat) :
    bufferEntry (readHeader (dataBlock item method winSize packSize) true) offset =
      dataEntry item (decodeCompInfo (encodeCompInfo { method := method, winSize := winSize }))
        packSize offset := by
  have hdir : hasFlag fhflCrc32 fhflDirectory = false := by decide
  rw [readHeader_dataBlock]
  unfold bufferEntry dataEntry
  rw [hdir]
  rfl

theorem checkContent_dataEntry (item : Item) (comp : Compression) (dataSize offset : Nat) :
    checkContent p (dataEntry item comp dataSize offset) item.content = .ok := by
  unfold checkContent dataEntry
  simp

theorem extractOne_dataEntry {comp : Compression} (hne : data ≠ []) (hmethod : comp.method ≤ 5)
    (hoffset : offset ≤ whole.length)
    (hwhole : whole.drop offset = data ++ more)
    (hdecode : if comp.method = 0 then data = item.content
      else unpack (dataEntry item comp data.length offset) data = (.ok, item.content)) :
    extractOne p whole (dataEntry item comp data.length offset) = (.ok, item.content) := by
  obtain ⟨hinside, hpayload⟩ := extractOne_payload hoffset hwhole
  have hdata : ¬ (dataEntry item comp data.length offset).dataSize = 0 := by
    simpa [dataEntry] using hne
  have hin : ¬ ((dataEntry item comp data.length offset).dataOffset > whole.length ∨
      (dataEntry item comp data.length offset).dataSize >
        whole.length - (dataEntry item comp data.length offset).dataOffset) := hinside
  have htake : (whole.drop (dataEntry item comp data.length offset).dataOffset).take
      (dataEntry item comp data.length offset).dataSize = data := hpayload
  unfold extractOne
  rw [if_neg (show ¬ (dataEntry item comp data.length offset).isDir = true from Bool.noConfusion),
    if_neg (show ¬ (dataEntry item comp data.length offset).isEncrypted = true
      from Bool.noConfusion),
    if_neg hdata, if_neg hin, htake]
  by_cases hzero : comp.method = 0
  · rw [if_pos hzero] at hdecode
    subst hdecode
    rw [if_pos (show (dataEntry item comp item.content.length offset).method = 0 from hzero),
      if_neg (fun hne => hne rfl), checkContent_dataEntry]
  · rw [if_neg hzero] at hdecode
    rw [if_neg (show ¬ (dataEntry item comp data.length offset).method = 0 from hzero),
      if_pos (show (dataEntry item comp data.length offset).method ≤ 5 from hmethod), hdecode]
    dsimp only
    rw [checkContent_dataEntry]

/-- A compressed entry is decoded through the round trip of the codec. -/
theorem unpack_compressBuffer (hset : Settings method winSize) (hne : item.content ≠ [])
    (hsize : item.content.length ≤ outputCap) {packed : List UInt8}
    (hpacked : Compressor50.compressBuffer p.host item.content method winSize {} = some packed)
    (offset : Nat) :
    unpack (dataEntry item { method := method, winSize := winSize } packed.length offset) packed =
      (.ok, item.content) := by
  have hlow := hset.window_low
  have hhigh := hset.window_high
  have hcap : outputCap = 0x1000000000 := rfl
  have hlimit : Decompressor50.allocLimit = 0x1000000000 := rfl
  have hneeded : Compressor50.neededWindow winSize ≤ winSize := by
    unfold Compressor50.neededWindow
    omega
  obtain ⟨result, hresult, hcontent⟩ := decompress_compressBuffer hne (by omega)
    (by omega) (show ({} : FilterConfig).deltaChannels ≤ 32 by decide) hpacked hneeded (by omega)
  set e := dataEntry item { method := method, winSize := winSize } packed.length offset
  have hwin : (if e.winSize > 0 then e.winSize else 32 * 1024 * 1024) = winSize :=
    if_pos (show winSize > 0 by omega)
  have hdecode : (Decompressor50.new winSize e.extraDist).decompress packed e.size false =
      some result := hresult
  unfold unpack
  rw [if_neg (show ¬ e.size > outputCap from not_lt.mpr hsize),
    if_neg (show ¬ e.winSize > Decompressor50.allocLimit from not_lt.mpr (hhigh.trans (by decide)))]
  dsimp only
  rw [hwin, hdecode]
  dsimp only
  rw [hcontent, if_neg (show ¬ item.content.length ≠ e.size from fun hne => hne rfl)]

theorem ItemForm.listed (hset : Settings method winSize) (hsize : item.content.length ≤ outputCap)
    (hdir : endsWithSlash item.path = true → item.content = []) {fb : FileBlock}
    {includeData : Bool} (h : ItemForm p method winSize item fb includeData data)
    (hoffset : offset ≤ whole.length)
    (hwhole : whole.drop offset = data ++ more) :
    Listed p whole item (bufferEntry (readHeader fb includeData) offset) := by
  cases h with
  | directory h =>
    show Listed p whole item (bufferEntry (readHeader (emptyBlock item.path _) false) offset)
    rw [bufferEntry_emptyBlock (.inr rfl)]
    exact ⟨rfl, h.symm, by rw [hdir h]; rfl, by rw [hdir h]; rfl⟩
  | empty h hempty =>
    show Listed p whole item (bufferEntry (readHeader (emptyBlock item.path 0) false) offset)
    rw [bufferEntry_emptyBlock (.inl rfl)]
    exact ⟨rfl, h.symm, by rw [hempty]; rfl, by rw [hempty]; rfl⟩
  | stored h hne =>
    rw [bufferEntry_dataBlock, decode_stored]
    exact ⟨rfl, h.symm, rfl, extractOne_dataEntry hne (by decide) hoffset hwhole rfl⟩
  | packed h hne hmethod hpacked hpackedNe hshorter =>
    rw [bufferEntry_dataBlock, hset.decode hmethod]
    refine ⟨rfl, h.symm, rfl, extractOne_dataEntry hpackedNe hset.method_le hoffset hwhole ?_⟩
    rw [if_neg hmethod]
    exact unpack_compressBuffer hset hne hsize hpacked offset

end Items

/-! ## The walk over an archive -/

/-- An item that the writer accepts and the reader can hold. -/
structure Admitted (item : Item) : Prop where
  path : item.path.length ≤ 2048
  directory : endsWithSlash item.path = true → item.content = []
  content : item.content.length ≤ outputCap

theorem Admitted.of_itemAccepted {item : Item} (h : itemAccepted item = true)
    (hcontent : item.content.length ≤ outputCap) : Admitted item where
  path := by
    have hvalid := (Bool.and_eq_true_iff.mp h).1
    unfold validateArchivePath at hvalid
    by_contra hlong
    rw [if_pos (not_le.mp hlong)] at hvalid
    split at hvalid <;> cases hvalid
  directory hdir := by
    have hempty := (Bool.and_eq_true_iff.mp h).2
    rw [hdir] at hempty
    simpa using hempty
  content := hcontent

theorem parseMain : parseBlockFields mainBody = some ⟨headMain, 0, mainBody, 0⟩ := by decide

theorem parseEnd : parseBlockFields endBody = some ⟨headEndArc, 0, endBody, 0⟩ := by decide

theorem walkHeaders_main (size fuel : Nat) (rest : List UInt8) :
    walkHeaders size (fuel + 1) (buildMainBlockBytes ++ rest) {} =
      walkHeaders size fuel rest {} := by
  have hread := readBlockRawMem_wrapBlock (by decide) parseMain rest
  have hne : buildMainBlockBytes ++ rest ≠ [] := by
    intro hnil
    rw [show wrapBlock mainBody ++ rest = [] from hnil] at hread
    cases hread
  rw [walkHeaders, if_neg hne, show readBlockRawMem (buildMainBlockBytes ++ rest) = _ from hread]
  dsimp only
  rfl

theorem walkHeaders_end (size fuel : Nat) (w : WalkState) :
    walkHeaders size (fuel + 1) buildEndBlockBytes w = (.ok, w) := by
  have hread := readBlockRawMem_wrapBlock (by decide) parseEnd []
  have hne : buildEndBlockBytes ≠ [] := by
    intro hnil
    rw [show wrapBlock endBody = [] from hnil] at hread
    cases hread
  rw [walkHeaders, if_neg hne, show readBlockRawMem buildEndBlockBytes = _ from hread]
  dsimp only
  rfl

variable {items : List Item} {whole : List UInt8}

/-- The walk over the items lists them one by one.  `before` is what the archive holds in
front of them. -/
theorem walkHeaders_items {p : Platform} {method winSize : Nat} (hset : Settings method winSize)
    (hitems : ∀ item ∈ items, Admitted item) {before rest : List UInt8}
    (hwhole : whole = before ++ (items.flatMap (itemBytes p method winSize) ++ rest)) (fuel : Nat)
    (w : WalkState) :
    ∃ entries, List.Forall₂ (Listed p whole) items entries ∧
      walkHeaders whole.length (items.length + fuel)
          (items.flatMap (itemBytes p method winSize) ++ rest) w =
        walkHeaders whole.length fuel rest { w with entries := w.entries ++ entries } := by
  induction items generalizing before w with
  | nil => exact ⟨[], .nil, by simp⟩
  | cons item items ih =>
    obtain ⟨hitem, hitems⟩ := forall_mem_cons.mp hitems
    have hcap : outputCap < 2 ^ 63 := by decide
    have hcontent := lt_of_le_of_lt hitem.content hcap
    have hform := itemParts_form p method winSize item
    set parts := itemParts p method winSize item
    set more := items.flatMap (itemBytes p method winSize) ++ rest with hmore
    have hbytes : (item :: items).flatMap (itemBytes p method winSize) ++ rest =
        buildFileBlockBytes p.unixToDosTime parts.1 parts.2.1 ++ (parts.2.2 ++ more) := by
      rw [flatMap_cons, itemBytes_eq, hmore]
      simp only [append_assoc]
      rfl
    rw [hbytes] at hwhole
    set header := buildFileBlockBytes p.unixToDosTime parts.1 parts.2.1
    -- the data starts where the archive has only the data and what follows it left
    have hsplit : whole = (before ++ header) ++ (parts.2.2 ++ more) := by
      rw [hwhole, append_assoc]
    have hoffset : whole.length - (parts.2.2 ++ more).length = (before ++ header).length := by
      rw [hsplit, length_append]
      omega
    have hdrop : whole.drop (whole.length - (parts.2.2 ++ more).length) = parts.2.2 ++ more := by
      rw [hoffset, hsplit, drop_left]
    have hlisted := hform.listed hset hitem.content hitem.directory (Nat.sub_le _ _) hdrop
    obtain ⟨entries, hentries, hwalk⟩ :=
      @ih hitems (before ++ header ++ parts.2.2) (by rw [hsplit]; simp only [append_assoc])
        { w with
          entries := w.entries ++ [bufferEntry (readHeader parts.1 parts.2.1)
            (whole.length - (parts.2.2 ++ more).length)] }
    refine ⟨_ :: entries, .cons hlisted hentries, ?_⟩
    rw [hbytes, length_cons, Nat.add_right_comm,
      (hform.wired hset hitem.path hcontent).walk, hwalk]
    simp

/-! ## Round trip -/

theorem length_le_flatMap (p : Platform) (method winSize : Nat) (items : List Item) :
    items.length ≤ (items.flatMap (itemBytes p method winSize)).length := by
  induction items with
  | nil => exact Nat.zero_le _
  | cons item items ih =>
    have hitem : 4 ≤ (itemBytes p method winSize item).length := by
      rw [itemBytes_eq, buildFileBlockBytes, wrapBlock]
      simp only [length_append, writeLe_length]
      omega
    rw [flatMap_cons, length_append, length_cons]
    omega

theorem listArchive_written {p : Platform} {method winSize : Nat} (hset : Settings method winSize)
    (hitems : ∀ item ∈ items, Admitted item)
    (hwhole : whole = rar5Signature ++ (buildMainBlockBytes ++
      (items.flatMap (itemBytes p method winSize) ++ buildEndBlockBytes))) :
    ∃ entries, List.Forall₂ (Listed p whole) items entries ∧
      listArchive whole = (.ok, entries) := by
  have hsignature : whole.drop 8 = buildMainBlockBytes ++
      (items.flatMap (itemBytes p method winSize) ++ buildEndBlockBytes) := by
    rw [hwhole]
    exact @drop_left _ rar5Signature _
  have hlength := length_le_flatMap p method winSize items
  have hbytes : whole.length = 8 + (buildMainBlockBytes.length +
      ((items.flatMap (itemBytes p method winSize)).length + buildEndBlockBytes.length)) := by
    rw [hwhole]
    simp only [length_append]
    rfl
  obtain ⟨fuel, hfuel⟩ : ∃ fuel, whole.length = items.length + (fuel + 1) + 1 :=
    ⟨whole.length - items.length - 2, by omega⟩
  obtain ⟨entries, hentries, hwalk⟩ :=
    @walkHeaders_items items whole p method winSize hset hitems
      (rar5Signature ++ buildMainBlockBytes)
      buildEndBlockBytes (by rw [hwhole, append_assoc]) (fuel + 1) {}
  refine ⟨entries, hentries, ?_⟩
  have hfind : findRar5Signature whole = some 0 := by
    unfold findRar5Signature
    rw [if_neg (by omega), if_pos]
    rw [ isPrefixOf_iff_prefix, hwhole]
    exact prefix_append _ _
  have hne : whole ≠ [] := by
    rintro rfl
    simp at hfuel
  have hrun : walkHeaders whole.length whole.length (whole.drop (0 + 8)) {} =
      (.ok, { entries := entries }) := by
    rw [Nat.zero_add, hsignature]
    nth_rewrite 2 [hfuel]
    rw [walkHeaders_main, hwalk, walkHeaders_end]
    rfl
  unfold listArchive
  rw [if_neg hne, hfind]
  dsimp only
  rw [hrun]
  rfl

section

variable {p : Platform} {entries : List BufferEntry}
    (h : List.Forall₂ (Listed p whole) items entries)
include h

theorem extractEntries_listed
    (hdirs : ∀ item ∈ items, endsWithSlash item.path = true → item.content = []) {cumulative : Nat}
    (hcap : cumulative + (items.map (·.content.length)).sum ≤ outputCap) (files : List Item) :
    extractEntries p whole entries cumulative files = (.ok, files ++ items) := by
  induction h generalizing cumulative files with
  | nil => simp [extractEntries]
  | @cons item e items entries hitem _ ih =>
    obtain ⟨hdir, hdirs⟩ := forall_mem_cons.mp hdirs
    rw [map_cons, sum_cons] at hcap
    have hone : (⟨e.path, item.content⟩ : Item) = item := by rw [hitem.path]
    unfold extractEntries
    split
    · next hisDir =>
      rw [hitem.isDir] at hisDir
      rw [ih hdirs (by omega), ← hdir hisDir, hone, append_assoc]
      rfl
    · rw [hitem.size, if_neg (by omega), hitem.extract]
      dsimp only
      rw [if_neg (by omega), ih hdirs (by omega), hone, append_assoc]
      rfl

/-- The detector sees the names of the items. -/
theorem names_listed : (entries.map fun e => (⟨e.path, e.isDir⟩ : CollisionEntry)) =
      items.map fun item => ⟨item.path, endsWithSlash item.path⟩ := by
  induction h with
  | nil => rfl
  | cons hitem _ ih => rw [map_cons, map_cons, ih, hitem.path, hitem.isDir]

end

theorem settings_of_log2 {method log2 : Nat} (hmethod : method = 0 ∨ method = 3 ∨ method = 5)
    (hlog2 : 1 ≤ log2 ∧ log2 ≤ 4) : Settings method (windowSizeFromLog2 log2) := by
  have hgrid : OnGrid 0 (windowSizeFromLog2 log2) := by
    obtain ⟨hlow, hhigh⟩ := hlog2
    interval_cases log2
    · exact .rar5 0 rfl (by decide) rfl
    · exact .rar5 1 rfl (by decide) rfl
    · exact .rar5 2 rfl (by decide) rfl
    · exact .rar5 3 rfl (by decide) rfl
  obtain ⟨hlow, hhigh⟩ := hlog2
  refine ⟨by omega, .inr hgrid, ?_, ?_, ?_⟩
  · interval_cases log2 <;> decide
  · interval_cases log2 <;> decide
  · intro hne
    rcases hmethod with rfl | rfl | rfl
    · exact absurd rfl hne
    · interval_cases log2 <;> decide
    · interval_cases log2 <;> decide

/-- **Round trip of an archive in memory.** -/
theorem createArchive_round_trip (p : Platform) (items : List Item) (method log2 : Nat)
    (hmethod : method = 0 ∨ method = 3 ∨ method = 5) (hlog2 : 1 ≤ log2 ∧ log2 ≤ 4)
    (hpaths : ∀ item ∈ items, validateArchivePath item.path (endsWithSlash item.path) = none)
    (hdirs : ∀ item ∈ items, endsWithSlash item.path = true → item.content = [])
    (hcollisions : CollisionDetector.detect p.tables
      (items.map fun item => ⟨item.path, endsWithSlash item.path⟩) = [])
    (hcap : (items.map (·.content.length)).sum ≤ outputCap) :
    ∃ bytes, createArchive p items method log2 = (.ok, bytes) ∧
      extractAllItems p bytes = (.ok, items) := by
  have hset := settings_of_log2 hmethod hlog2
  have haccepted : ∀ item ∈ items, itemAccepted item = true := by
    intro item hmem
    unfold itemAccepted
    rw [hpaths item hmem]
    cases hslash : endsWithSlash item.path with
    | false => rfl
    | true =>
      rw [hdirs item hmem hslash]
      rfl
  have hadmitted : ∀ item ∈ items, Admitted item := by
    intro item hmem
    refine .of_itemAccepted (haccepted item hmem) (le_trans ?_ hcap)
    exact single_le_sum (fun _ _ => Nat.zero_le _) _ (mem_map_of_mem hmem)
  refine ⟨rar5Signature ++ (buildMainBlockBytes ++
    (items.flatMap (itemBytes p method (windowSizeFromLog2 log2)) ++ buildEndBlockBytes)), ?_, ?_⟩
  · unfold createArchive
    rw [if_neg (by omega), if_neg (by omega), if_neg (by simpa using haccepted)]
  · obtain ⟨entries, hentries, hlist⟩ := listArchive_written hset hadmitted rfl
    unfold extractAllItems
    rw [hlist]
    dsimp only
    rw [names_listed hentries, if_neg (fun hne => hne hcollisions),
      extractEntries_listed hentries hdirs (by omega)]
    rfl

/-- A platform whose names have one spelling. -/
def plainPlatform : Platform where
  host := ⟨false, false, fun _ => 0⟩
  tables := ⟨id, id⟩
  unixToDosTime := id
  blake2sp _ := default

/-- A directory, an empty file in it and a file that gets shorter. -/
def threeItems : List Item :=
  [⟨[97, 47], []⟩, ⟨[97, 47, 98], []⟩, ⟨[97, 47, 99], List.replicate 200 7⟩]

theorem createArchive_round_trip_three : ∃ bytes,
    createArchive plainPlatform threeItems 3 1 = (.ok, bytes) ∧
      extractAllItems plainPlatform bytes = (.ok, threeItems) :=
  createArchive_round_trip plainPlatform threeItems 3 1 (by decide) (by decide) (by decide)
    (by decide) (by decide) (by decide +kernel)

end OpenRar.Archive
