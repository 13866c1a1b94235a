import OpenRar.Archive.BufferRoundTrip
import OpenRar.Foundation.Calendar

/-!
# Modification times

The writer of archives in memory packs the time of an entry as a DOS time into the field that
the format reserves for Unix time.  `BufferArchive::list` unpacks it again;
`entry_mtime_unix`, from which the file reader takes the time of an extracted file, returns
the field as it is.  `createArchive_mtime` follows one time through all three functions.

`gmtime` and `timegm` are those of the calendar; the failures of `gmtime_r` on times that it
cannot represent are left out.
-/

namespace OpenRar.Archive

open Calendar OpenRar.Core OpenRar.Format HeaderWriter HeaderReader List

/-! ## DOS time -/

/-- The fields of a DOS time in their places. -/
def packDos (year month day hour minute second : Nat) : Nat :=
  year <<< 25 ||| month <<< 21 ||| day <<< 16 ||| hour <<< 11 ||| minute <<< 5 ||| second

/-- `unix_to_dos_time` -/
def unixToDosTime (t : Nat) : Nat :=
  if t = 0 then 0
  else
    let c := gmtime t
    let year := min (max (1970 + c.year) 1980) 2107
    packDos (year - 1980) (c.month + 1) c.day c.hour c.minute (c.second / 2)

/-- `dos_time_to_unix` -/
def dosTimeToUnix (dos : Nat) : Nat :=
  if dos = 0 then 0
  else
    let month := (dos >>> 21) &&& 0x0F
    let day := (dos >>> 16) &&& 0x1F
    timegm
      { year := ((dos >>> 25) &&& 0x7F) + 10
        month := (if month = 0 ∨ month > 12 then 1 else month) - 1
        day := if day = 0 ∨ day > 31 then 1 else day
        hour := (dos >>> 11) &&& 0x1F
        minute := (dos >>> 5) &&& 0x3F
        second := (dos &&& 0x1F) * 2 }

theorem or_eq_add {k x y : Nat} (hx : 2 ^ k ∣ x) (hy : y < 2 ^ k) : x ||| y = x + y := by
  obtain ⟨a, rfl⟩ := hx
  exact (Nat.two_pow_add_eq_or_of_lt hy a).symm

/-- Fields that fit into their places. -/
structure DosFields (year month day hour minute second : Nat) : Prop where
  year : year < 128
  month : 1 ≤ month ∧ month ≤ 12
  day : 1 ≤ day ∧ day ≤ 31
  hour : hour < 24
  minute : minute < 60
  second : second < 30

section Fields

variable {year month day hour minute second : Nat}

theorem DosFields.packDos_eq (h : DosFields year month day hour minute second) :
    packDos year month day hour minute second = year * 33554432 + month * 2097152 + day * 65536
      + hour * 2048 + minute * 32 + second := by
  obtain ⟨hyear, hmonth, hday, hhour, hminute, hsecond⟩ := h
  unfold packDos
  simp only [Nat.shiftLeft_eq]
  rw [or_eq_add (k := 25) (y := month * 2097152) (by omega) (by omega),
    or_eq_add (k := 21) (y := day * 65536) (by omega) (by omega),
    or_eq_add (k := 16) (y := hour * 2048) (by omega) (by omega),
    or_eq_add (k := 11) (y := minute * 32) (by omega) (by omega),
    or_eq_add (k := 5) (by omega) (by omega)]

theorem DosFields.dosTimeToUnix_packDos (h : DosFields year month day hour minute second) :
    dosTimeToUnix (packDos year month day hour minute second) =
      timegm ⟨year + 10, month - 1, day, hour, minute, second * 2⟩ := by
  have hpack := h.packDos_eq
  obtain ⟨hyear, hmonth, hday, hhour, hminute, hsecond⟩ := h
  have h4 := fun x => Nat.and_two_pow_sub_one_eq_mod x 4
  have h5 := fun x => Nat.and_two_pow_sub_one_eq_mod x 5
  have h6 := fun x => Nat.and_two_pow_sub_one_eq_mod x 6
  have h7 := fun x => Nat.and_two_pow_sub_one_eq_mod x 7
  generalize packDos year month day hour minute second = dos at hpack
  unfold dosTimeToUnix
  simp only [h4, h5, h6, h7, Nat.shiftRight_eq_div_pow]
  have hfields : dos / 33554432 % 128 = year ∧ dos / 2097152 % 16 = month ∧
      dos / 65536 % 32 = day ∧ dos / 2048 % 32 = hour ∧ dos / 32 % 64 = minute ∧
      dos % 32 = second := by omega
  obtain ⟨h1, h2, h3, h4, h5, h6⟩ := hfields
  rw [h1, h2, h3, h4, h5, h6, if_neg (by omega), if_neg (by omega), if_neg (by omega)]

end Fields

/-! ## Times from 1980 to 2105 -/

section Range

variable {t : Nat} (hlow : 315532800 ≤ t) (hhigh : t < 4291747200)

include hlow hhigh

theorem gmtime_year_range : 10 ≤ (gmtime t).year ∧ (gmtime t).year < 136 := by
  have h10 : before yearLength 10 = 3652 := by decide +kernel
  have h136 : before yearLength 136 = 49673 := by decide +kernel
  apply gmtime_year
  · rw [h10]
    exact hlow
  · rw [h136]
    exact hhigh

theorem unixToDosTime_eq : unixToDosTime t = packDos ((gmtime t).year - 10) ((gmtime t).month + 1)
    (gmtime t).day (gmtime t).hour (gmtime t).minute ((gmtime t).second / 2) := by
  have hyear := gmtime_year_range hlow hhigh
  have hclamp : min (max (1970 + (gmtime t).year) 1980) 2107 - 1980 =
      (gmtime t).year - 10 := by omega
  unfold unixToDosTime
  rw [if_neg (by omega)]
  simp [hclamp]

theorem dosFields_gmtime : DosFields ((gmtime t).year - 10) ((gmtime t).month + 1)
    (gmtime t).day (gmtime t).hour (gmtime t).minute ((gmtime t).second / 2) := by
  have hyear := gmtime_year_range hlow hhigh
  obtain ⟨hmonth, hday, hhour, hminute, hsecond⟩ := gmtime_valid t
  constructor
  all_goals omega

/-- Unpacking undoes packing up to the odd second. -/
theorem dosTimeToUnix_unixToDosTime : dosTimeToUnix (unixToDosTime t) = t - t % 2 := by
  have hyear := gmtime_year_range hlow hhigh
  have hwhole := timegm_gmtime t
  rw [unixToDosTime_eq hlow hhigh, (dosFields_gmtime hlow hhigh).dosTimeToUnix_packDos]
  have hback : (gmtime t).year - 10 + 10 = (gmtime t).year := by omega
  rw [hback]
  simp only [timegm, Nat.add_sub_cancel] at hwhole ⊢
  omega

theorem unixToDosTime_lt : unixToDosTime t < t - t % 2 ∧ 0 < unixToDosTime t := by
  obtain ⟨hfirst, hlast⟩ := gmtime_year_range hlow hhigh
  have hfields := dosFields_gmtime hlow hhigh
  have hdays := gmtime_days t
  have h10 : before yearLength 10 = 3652 := by decide +kernel
  have hyears := before_yearLength_ge 10 ((gmtime t).year - 10)
  rw [h10, Nat.add_sub_cancel' hfirst] at hyears
  rw [unixToDosTime_eq hlow hhigh, hfields.packDos_eq]
  obtain ⟨hyear, hmonth, hday, hhour, hminute, hsecond⟩ := hfields
  omega

end Range

/-! ## The entry in an archive -/

/-- The header of an entry with a time, of which the field keeps 32 bits. -/
def timed (fb : FileBlock) (mtime : Nat) : FileBlock := { fb with utimeUnix := mtime % 2 ^ 32 }

/-- The bytes of one item with its time. -/
def timedItemBytes (p : Platform) (method winSize : Nat) (item : Item × Nat) : List UInt8 :=
  let (fb, includeData, data) := itemParts p method winSize item.1
  buildFileBlockBytes unixToDosTime (timed fb item.2) includeData ++ data

/-- `create_archive` on items with times; a time of zero stands for the present. -/
def createTimedArchive (p : Platform) (now : Nat) (items : List (Item × Nat))
    (method windowLog2 : Nat) : RarCode × List UInt8 :=
  let items := items.map fun (item, mtime) => (item, if mtime ≠ 0 then mtime else now)
  if method ≠ 0 ∧ method ≠ 3 ∧ method ≠ 5 then (.invalidArg, [])
  else if windowLog2 < 1 ∨ windowLog2 > 4 then (.invalidArg, [])
  else if !items.all fun item => itemAccepted item.1 then (.invalidArg, [])
  else
    (.ok, rar5Signature ++ (buildMainBlockBytes ++
      (items.flatMap (timedItemBytes p method (windowSizeFromLog2 windowLog2)) ++
        buildEndBlockBytes)))

/-- What such an archive has in front of the item that follows. -/
def timedHead (p : Platform) (now : Nat) (items : List (Item × Nat)) (method windowLog2 : Nat) :
    List UInt8 :=
  rar5Signature ++ (buildMainBlockBytes ++
    (items.map fun (item, mtime) => (item, if mtime ≠ 0 then mtime else now)).flatMap
      (timedItemBytes p method (windowSizeFromLog2 windowLog2)))

/-- The time that `BufferArchive::list` reports for a header. -/
def listedMtime (h : FileBlock) : Nat := dosTimeToUnix h.utimeUnix

/-- `entry_mtime_unix` -/
def entryMtimeUnix (h : FileBlock) : Option Int :=
  if h.times.isUnix ∧ h.times.mtime.unix ≠ 0 then some h.times.mtime.unix
  else if h.utimeUnix ≠ 0 then some h.utimeUnix
  else if h.times.mtime.win ≠ 0 then some ((h.times.mtime.win / 10000000 : Nat) - 11644473600)
  else none

variable {time mtime method : Nat} {fb : FileBlock} {includeData : Bool} {data : List UInt8}
    {p : Platform} {item : Item}

theorem effFileFlags_timed (fb : FileBlock) (h : time ≠ 0) :
    effFileFlags { fb with utimeUnix := time } =
      fb.fileFlags ||| (if fb.hasCrc32 then fhflCrc32 else 0) ||| fhflUtime := by
  simp [effFileFlags, h]

theorem hasUtime_timed (fb : FileBlock) (h : time ≠ 0) :
    hasFlag (effFileFlags { fb with utimeUnix := time }) fhflUtime = true := by
  rw [effFileFlags_timed fb h, hasFlag_or, show hasFlag fhflUtime fhflUtime = true by decide,
    Bool.or_true]

/-- The block of an item with a time is that of the other serialiser, with the packed time
in the place of a Unix time. -/
theorem buildFileBody_timed (h : PlainBlock fb) (convert : Nat → Nat)
    (hmtime : mtime ≠ 0) (hpacked : convert mtime ≠ 0) (includeData : Bool) :
    buildFileBody convert { fb with utimeUnix := mtime } includeData =
      fileBody (announced { fb with utimeUnix := convert mtime } includeData) 0 false := by
  have harea : extraArea (announced { fb with utimeUnix := convert mtime } includeData) = [] :=
    h.area
  have hfields : effFileFlags (announced { fb with utimeUnix := convert mtime } includeData) =
      effFileFlags { fb with utimeUnix := mtime } := by
    rw [effFileFlags_timed fb hmtime]
    exact effFileFlags_timed fb hpacked
  have hpack := h.packed
  unfold buildFileBody fileBody
  dsimp only
  rw [headFlags_plain harea, harea, hfields, hasUtime_timed fb hmtime]
  cases includeData with
  | false => simp [announced, packSizeField, hasFlag, h.comp]
  | true => simp [announced, packSizeField, hasFlag, hflData, hpack, h.comp]

/-- The header that stands in front of the data of an item with a time. -/
theorem readBlockRawMem_timed
    (h : WiredItem fb includeData data) (convert : Nat → Nat) (hmtime : mtime ≠ 0)
    (hpacked : convert mtime ≠ 0) (hfits : convert mtime < 2 ^ 32) (rest : List UInt8) :
    ∃ block header,
      readBlockRawMem (buildFileBlockBytes convert { fb with utimeUnix := mtime }
        includeData ++ rest) =
        .ok (block, rest) ∧
      parseFileHeader block.body = some header ∧ header.fileName = fb.fileName ∧
      header.utimeUnix = convert mtime ∧ header.times = {} := by
  have harea : extraArea (announced { fb with utimeUnix := convert mtime } includeData) = [] :=
    h.area
  have hbounded : Bounded (announced { fb with utimeUnix := convert mtime } includeData) :=
    { h.bounded with utimeUnix := hfits }
  have hlength := h.length_le harea rfl
  have hfields := parseBlockFields_fileBody 0 (by rw [harea]; decide) hbounded.packSize
  have hparse := parseFileHeader_fileBody hbounded
    (show (fileBody (announced { fb with utimeUnix := convert mtime } includeData) 0 false).length <
      2 ^ 64 by
      omega)
  rw [harea] at hparse
  unfold buildFileBlockBytes
  rw [buildFileBody_timed h.toPlainBlock convert hmtime hpacked]
  refine ⟨_, _, readBlockRawMem_wrapBlock hlength hfields rest, hparse, rfl, ?_, rfl⟩
  exact if_pos (hasUtime_timed fb hpacked)

theorem ItemForm.fileName {winSize : Nat} (h : ItemForm p method winSize item fb includeData data) :
    fb.fileName = item.path := by
  cases h <;> rfl

theorem path_length_of_accepted (h : itemAccepted item = true) : item.path.length ≤ 2048 := by
  unfold itemAccepted validateArchivePath at h
  by_contra hlong
  have hne : item.path ≠ [] := by
    intro hnil
    simp [hnil] at hlong
  simp [hne, Nat.lt_of_not_le hlong] at h

theorem createTimedArchive_split {now : Nat} {front back : List (Item × Nat)} {t log2 : Nat}
    (ht : t ≠ 0) {bytes : List UInt8}
    (h : createTimedArchive p now (front ++ (item, t) :: back) method log2 = (.ok, bytes)) :
    Settings method (windowSizeFromLog2 log2) ∧ itemAccepted item = true ∧ ∃ tail,
      bytes = timedHead p now front method log2 ++
        (timedItemBytes p method (windowSizeFromLog2 log2)
        (item, t) ++ tail) := by
  unfold createTimedArchive at h
  dsimp only at h
  split at h
  · cases h
  split at h
  · cases h
  split at h
  · cases h
  next hmethod hlog2 haccepted =>
  refine ⟨settings_of_log2 (by omega) (by omega), ?_, ?_⟩
  · simp only [Bool.not_eq_true, Bool.not_eq_false', all_eq_true] at haccepted
    exact haccepted (item, t) (by simp [ht])
  · have hbytes := (Prod.mk.inj h).2
    simp only [map_append, map_cons, flatMap_append, flatMap_cons, if_pos ht,
      append_assoc] at hbytes
    rw [← hbytes, ← append_assoc buildMainBlockBytes, ← append_assoc rar5Signature]
    exact ⟨_, rfl⟩

/-- **Times of archives in memory.**  The entry of an item with a time from 1980 to 2105, whose
header stands behind the items before it, is listed with that time, up to the odd second.  The
file reader sees the packed time, and would restore the time only if the packed time were the
time itself; it is always smaller. -/
theorem createArchive_mtime (p : Platform) (now : Nat) (front back : List (Item × Nat))
    (item : Item)
    (t method log2 : Nat) (hlow : 315532800 ≤ t) (hhigh : t < 4291747200)
    (hcontent : item.content.length < 2 ^ 63) {bytes : List UInt8}
    (hcreate : createTimedArchive p now (front ++ (item, t) :: back) method log2 = (.ok, bytes)) :
    ∃ pos block rest header, pos = (timedHead p now front method log2).length ∧
      readBlockRawMem (bytes.drop pos) = .ok (block, rest) ∧
      readBlockRaw (bytes.drop pos) = .ok (block, rest) ∧
      parseFileHeader block.body = some header ∧ header.fileName = item.path ∧
      listedMtime header = t - t % 2 ∧ entryMtimeUnix header = some (unixToDosTime t : Int) ∧
      (entryMtimeUnix header = some ((t - t % 2 : Nat) : Int) ↔ unixToDosTime t = t - t % 2) ∧
      unixToDosTime t < t - t % 2 := by
  obtain ⟨hlt, hpos⟩ := unixToDosTime_lt hlow hhigh
  obtain ⟨hset, haccepted, tail, rfl⟩ := createTimedArchive_split (by omega) hcreate
  have hform := itemParts_form p method (windowSizeFromLog2 log2) item
  rcases hparts : itemParts p method (windowSizeFromLog2 log2) item with ⟨fb, includeData, data⟩
  rw [hparts] at hform
  have hwired := hform.wired hset (path_length_of_accepted haccepted) hcontent
  obtain ⟨block, header, hread, hparse, hname, hutime, htimes⟩ := readBlockRawMem_timed hwired
    unixToDosTime (show t ≠ 0 by omega) (by omega) (by omega) (data ++ tail)
  have hfield : t % 2 ^ 32 = t := Nat.mod_eq_of_lt (by omega)
  have hbytes : timedItemBytes p method (windowSizeFromLog2 log2) (item, t) ++ tail =
      buildFileBlockBytes unixToDosTime { fb with utimeUnix := t } includeData ++
        (data ++ tail) := by
    simp only [timedItemBytes, hparts, timed, hfield, append_assoc]
  have hmtime : entryMtimeUnix header = some (unixToDosTime t : Int) := by
    unfold entryMtimeUnix
    rw [htimes, hutime, if_neg (by simp), if_pos (by omega)]
  refine ⟨_, block, data ++ tail, header, rfl, ?_, ?_, hparse, hname.trans hform.fileName, ?_,
    hmtime, ?_, hlt⟩
  · rw [drop_left, hbytes]
    exact hread
  · rw [drop_left, hbytes]
    exact readBlockRaw_ok_iff.mpr hread
  · rw [listedMtime, hutime, dosTimeToUnix_unixToDosTime hlow hhigh]
  · rw [hmtime, Option.some_inj, Int.natCast_inj]

/-- An archive of one empty file of the ninth of September 2001. -/
def datedArchive : List UInt8 :=
  (createTimedArchive plainPlatform 0 [(⟨[97], []⟩, 1000000000)] 0 1).2

theorem createArchive_mtime_dated : ∃ pos block rest header,
    pos = (timedHead plainPlatform 0 [] 0 1).length ∧
    readBlockRawMem (datedArchive.drop pos) = .ok (block, rest) ∧
      readBlockRaw (datedArchive.drop pos) = .ok (block, rest) ∧
      parseFileHeader block.body = some header ∧ header.fileName = [97] ∧
      listedMtime header = 1000000000 - 1000000000 % 2 ∧
      entryMtimeUnix header = some (unixToDosTime 1000000000 : Int) ∧
      (entryMtimeUnix header = some ((1000000000 - 1000000000 % 2 : Nat) : Int) ↔
        unixToDosTime 1000000000 = 1000000000 - 1000000000 % 2) ∧
      unixToDosTime 1000000000 < 1000000000 - 1000000000 % 2 :=
  createArchive_mtime plainPlatform 0 [] [] ⟨[97], []⟩ 1000000000 0 1 (by decide) (by decide)
    (by decide) rfl

/-- The file reader takes the time of that file for a day in December 1992. -/
theorem datedArchive_mtime_lost :
    (readBlockRaw (datedArchive.drop (8 + buildMainBlockBytes.length))).toOption.bind
        (fun r => (parseFileHeader r.1.body).bind entryMtimeUnix) = some 724110804 ∧
      (724110804 : Int) ≠ 1000000000 := by
  decide +kernel

end OpenRar.Archive
