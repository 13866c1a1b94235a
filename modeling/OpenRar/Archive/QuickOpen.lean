import OpenRar.Archive.BlockReaders

/-!
# The cache of headers

The QuickOpen service block at the end of an archive holds copies of the headers before it.
`ArchiveReader::open_ex` reads the whole block into memory and takes record after record
from it.  A record has a checksum, its length, flags, the distance of the header from the
service block, the length of the header and the header itself.

All numbers of a record are chosen by whoever wrote the archive.  Its own length is
compared with what is left of the payload by subtraction.  The length of the header is not:
it is added to the cursor first, and a length just below `2 ^ 64` wraps round to a small
sum.  `read_block_raw_mem` then works with that length, and its own bounds let through what
the header says of itself.
-/

namespace OpenRar.Archive

open CheckedReads OpenRar.Core OpenRar.Crypto OpenRar.Format HeaderReader List Option

/-! ## The parser -/

/-- `ArchiveEntry` of one volume; its only extent is the data area. -/
structure ScanEntry where
  headerOffset : Nat
  headerSize : Nat
  dataOffset : Nat
  dataSize : Nat
  header : FileBlock
  splitBefore : Bool := false
  splitAfter : Bool := false
deriving DecidableEq

/-- Where the service block stands, where the walk over the headers stands, and the size of
the volume. -/
structure QuickOpenPlace where
  qoAbsPos : Nat
  currPos : Nat
  vsz : Nat
deriving DecidableEq

/-- The fields of a record: where the copied header begins and how long it is said to be. -/
structure QuickOpenRecord where
  cur : Nat
  structEnd : Nat
  dist : Nat
  dataSz : Nat
deriving DecidableEq

structure QuickOpenState where
  qp : Nat := 0
  lastOrigPos : Nat := 0
  /-- where the next header has to stand -/
  expectPos : Nat
  entries : List ScanEntry := []
deriving DecidableEq

/-- The fields of the record at `qp`, behind the tests of its length and its checksum. -/
def quickOpenFields (buf : Buffer) (qp : Nat) : Except Failure QuickOpenRecord := do
  demand (wadd qp 4 ≤ buf.size)
  let structCrc ← readLeAt buf 4 qp
  let structSizeStart := wadd qp 4
  let (structSize, bodyStart) ← vintAt buf structSizeStart buf.size
  demand (structSize ≤ 2 * 1024 * 1024 ∧ bodyStart ≤ buf.size ∧
    structSize ≤ wsub buf.size bodyStart)
  let structEnd := wadd bodyStart structSize
  let checked ← buf.loadBytes structSizeStart (wsub structEnd structSizeStart)
  demand ((crc32From 0#32 checked).toNat = structCrc)
  let (_, cur) ← vintAt buf bodyStart structEnd
  let (dist, cur) ← vintAt buf cur structEnd
  let (dataSz, cur) ← vintAt buf cur structEnd
  .ok { cur := cur, structEnd := structEnd, dist := dist, dataSz := dataSz }

/-- `qo_abs_pos - dist` -/
def QuickOpenPlace.origPos (place : QuickOpenPlace) (r : QuickOpenRecord) : Nat :=
  wsub place.qoAbsPos r.dist

/-- The record whose header is going to be read. -/
def quickOpenRecord (place : QuickOpenPlace) (buf : Buffer) (s : QuickOpenState) :
    Except Failure QuickOpenRecord := do
  let r ← quickOpenFields buf s.qp
  demand (wadd r.cur r.dataSz ≤ r.structEnd ∧ r.dist ≤ place.qoAbsPos)
  demand (s.lastOrigPos ≤ place.origPos r)
  .ok r

/-- The entry of a cached header; of its data only what the volume has is admitted. -/
def cachedEntry (place : QuickOpenPlace) (r : QuickOpenRecord) (block : RawBlock)
    (header : FileBlock) : ScanEntry :=
  let dataOffset := wadd (place.origPos r) r.dataSz
  let avail := if dataOffset < place.vsz then place.vsz - dataOffset else 0
  { headerOffset := place.origPos r
    headerSize := r.dataSz
    dataOffset := dataOffset
    dataSize := if block.dataSize < avail then block.dataSize else avail
    header := header
    splitBefore := hasFlag block.flags hflSplitBefore
    splitAfter := hasFlag block.flags hflSplitAfter }

/-- What is done with the header of a record; the payload is no longer read. -/
def quickOpenEntry (place : QuickOpenPlace) (s : QuickOpenState) (r : QuickOpenRecord)
    (result : Except HeaderFailure (RawBlock × Nat)) : Except Failure QuickOpenState :=
  match result with
  | .error _ => .error .refused
  | .ok (block, _) => do
      demand (block.type = headFile ∨ block.type = headService)
      let header ← verdict (parseFileHeader block.body)
      let e := cachedEntry place r block header
      -- The header has to stand where the data of the one before it ends.
      demand (e.headerOffset = s.expectPos)
      .ok
        { qp := r.structEnd
          lastOrigPos := place.origPos r
          expectPos := wadd (wadd e.headerOffset e.headerSize) e.dataSize
          entries := s.entries ++ [e] }

/-- One turn of the loop over the payload. -/
def quickOpenTurn (place : QuickOpenPlace) (buf : Buffer) (s : QuickOpenState) :
    Except Failure QuickOpenState := do
  let r ← quickOpenRecord place buf s
  let result ← readBlockRawMemAt buf r.cur r.dataSz 0
  quickOpenEntry place s r result

/-- The loop over the payload; a refusal is `qo_ok = false`. -/
def parseQuickOpen (place : QuickOpenPlace) (buf : Buffer) : Except Failure QuickOpenState :=
  whileDo (fun s : QuickOpenState => s.qp < buf.size) (quickOpenTurn place buf) buf.size
    { expectPos := place.currPos }

/-! ## The fields of a record -/

variable {buf : Buffer} {s next : QuickOpenState} {place : QuickOpenPlace} {r : QuickOpenRecord}

/-- The fields are found inside the payload, and the record ends inside it. -/
theorem quickOpenFields_safe {qp : Nat} (h : qp < buf.size) :
    Safe (fun r => qp < r.cur ∧ r.cur ≤ r.structEnd ∧ r.structEnd ≤ buf.size ∧ r.dataSz < 2 ^ 64)
      (quickOpenFields buf qp) := by
  have hbuf : buf.size < 2 ^ 63 := buf.bounded
  have hqp : wadd qp 4 = qp + 4 := wadd_eq (by omega)
  refine Safe.demand fun hfour => ?_
  rw [(Window.between (Nat.le_of_lt h) (Nat.le_refl buf.size)).readLeAt (by
    rw [(Window.between (Nat.le_of_lt h) (Nat.le_refl buf.size)).length]; omega), ok_bind]
  refine (Window.between hfour (Nat.le_refl _)).safe_vintAt.bind ?_
  rintro ⟨structSize, bodyStart⟩ ⟨hstart, -, -⟩
  refine Safe.demand fun ⟨_, hbody, hsize⟩ => ?_
  dsimp only at hstart hbody hsize ⊢
  rw [CheckedReads.wsub_eq (by omega) hbody] at hsize
  have hend : wadd bodyStart structSize = bodyStart + structSize := wadd_eq (by omega)
  rw [hend, CheckedReads.wsub_eq (by omega) (by omega), buf.loadBytes_eq (by omega), ok_bind]
  refine Safe.demand fun _ => ?_
  -- the three integers up to the end of the record
  refine (Window.between (Nat.le_add_right _ _) (by omega)).safe_vintAt.bind ?_
  rintro ⟨_, cur⟩ ⟨hcur, hcurEnd, -⟩
  refine (Window.between hcurEnd (by omega)).safe_vintAt.bind ?_
  rintro ⟨dist, cur'⟩ ⟨hcur', hcurEnd', -⟩
  refine (Window.between hcurEnd' (by omega)).safe_vintAt.bind ?_
  rintro ⟨dataSz, cur''⟩ ⟨hcur'', hcurEnd'', hlt⟩
  exact ⟨by dsimp only; omega, hcurEnd'', by dsimp only; omega, hlt⟩

/-- What holds of a record that passes the tests before its header is read. -/
structure RecordInside (place : QuickOpenPlace) (buf : Buffer) (s : QuickOpenState)
    (r : QuickOpenRecord) : Prop where
  qp_lt : s.qp < r.cur
  cur_le : r.cur ≤ r.structEnd
  structEnd_le : r.structEnd ≤ buf.size
  dataSz_lt : r.dataSz < 2 ^ 64
  sum_le : wadd r.cur r.dataSz ≤ r.structEnd
  dist_le : r.dist ≤ place.qoAbsPos
  last_le : s.lastOrigPos ≤ place.origPos r

theorem quickOpenRecord_safe (place : QuickOpenPlace) (h : s.qp < buf.size) :
    Safe (RecordInside place buf s) (quickOpenRecord place buf s) := by
  refine (quickOpenFields_safe h).bind fun r ⟨hqp, hcur, hend, hlt⟩ => ?_
  refine Safe.demand fun ⟨hsum, hdist⟩ => ?_
  refine Safe.demand fun hlast => ?_
  exact ⟨hqp, hcur, hend, hlt, hsum, hdist, hlast⟩

/-- A header that is longer than its record wraps, and its length is huge. -/
theorem RecordInside.wrapped (h : RecordInside place buf s r)
    (hlong : ¬ r.dataSz ≤ r.structEnd - r.cur) :
    2 ^ 63 ≤ r.dataSz := by
  have hbuf : buf.size < 2 ^ 63 := buf.bounded
  have hcur := h.cur_le
  have hend := h.structEnd_le
  have hsum := h.sum_le
  by_contra hsmall
  rw [wadd_eq (by omega)] at hsum
  omega

/-! ## The header of a record -/

/-- What the reader looks at of the block at the front of `data` is there: the checksum, the
size field up to its end or its tenth byte, and a body that is not too long. -/
def BlockInside (data : List UInt8) : Prop :=
  4 ≤ data.length ∧ (14 ≤ data.length ∨ vintBytes (data.drop 4) ≠ none) ∧
    match readVint (data.drop 4) with
    | none => True
    | some (bodySize, rest) => bodySize ≤ 2 * 1024 * 1024 → bodySize ≤ rest.length

theorem drop_eq_cons {l : List UInt8} {i : Nat} {b : UInt8} (hb : l[i]? = some b) :
    l.drop i = b :: l.drop (i + 1) := by
  obtain ⟨hlt, rfl⟩ := List.getElem?_eq_some_iff.mp hb
  exact drop_eq_getElem_cons hlt

/-- A size that covers the integer, or its ten bytes, is as good as another. -/
theorem readVintAtLoop_size (fuel : Nat) {off m n : Nat} (shift value count : Nat)
    (hm : fuel ≤ m ∨ ∃ field, vintBytes (buf.bytes.drop off) = some field ∧ field.length ≤ m)
    (hn : fuel ≤ n ∨ ∃ field, vintBytes (buf.bytes.drop off) = some field ∧ field.length ≤ n) :
    readVintAtLoop buf fuel off m shift value count =
      readVintAtLoop buf fuel off n shift value count := by
  induction fuel generalizing off m n shift value count with
  | zero => rw [readVintAtLoop, readVintAtLoop]
  | succ fuel ih =>
    have hpos : ∀ {k : Nat}, (fuel + 1 ≤ k ∨
        ∃ field, vintBytes (buf.bytes.drop off) = some field ∧ field.length ≤ k) → 0 < k := by
      intro k hk
      rcases hk with hk | ⟨field, hfield, hk⟩
      · omega
      · have := length_pos_of_ne_nil (vintBytes_ne_nil hfield)
        omega
    obtain ⟨m, rfl⟩ := Nat.exists_eq_succ_of_ne_zero (hpos hm).ne'
    obtain ⟨n, rfl⟩ := Nat.exists_eq_succ_of_ne_zero (hpos hn).ne'
    rw [readVintAtLoop, readVintAtLoop, Buffer.load]
    cases hb : buf.bytes[off]? with
    | none => rfl
    | some b =>
      rw [drop_eq_cons hb, vintBytes] at hm hn
      simp only [ok_bind]
      by_cases hlast : b.toNat &&& 0x80 = 0
      · rw [if_pos hlast, if_pos hlast]
      · rw [if_neg hlast] at hm hn
        -- behind a byte with a continuation bit one byte less is needed
        have hless : ∀ {k : Nat}, (fuel + 1 ≤ k + 1 ∨ ∃ field,
            (vintBytes (buf.bytes.drop (off + 1))).map (b :: ·) = some field ∧
              field.length ≤ k + 1) →
            fuel ≤ k ∨ ∃ field, vintBytes (buf.bytes.drop (off + 1)) = some field ∧
              field.length ≤ k := by
          intro k hk
          rcases hk with hk | ⟨field, hfield, hk⟩
          · exact Or.inl (by omega)
          · obtain ⟨tail, htail, rfl⟩ := map_eq_some_iff.mp hfield
            exact Or.inr ⟨tail, htail, by simpa using hk⟩
        rw [if_neg hlast, if_neg hlast, ih _ _ _ (hless hm) (hless hn)]

/-- An integer that runs to the end of the buffer is read beyond it. -/
theorem readVintAtLoop_fault (fuel : Nat) {off size : Nat} (shift value count : Nat)
    (hsize : fuel ≤ size) (hshift : shift + 7 * fuel = 70)
    (hnone : vintBytes (buf.bytes.drop off) = none)
    (hlen : (buf.bytes.drop off).length < fuel) :
    readVintAtLoop buf fuel off size shift value count = .error .fault := by
  induction fuel generalizing off size shift value count with
  | zero => exact absurd hlen (Nat.not_lt_zero _)
  | succ fuel ih =>
    obtain ⟨size, rfl⟩ := Nat.exists_eq_succ_of_ne_zero (show size ≠ 0 by omega)
    rw [readVintAtLoop, Buffer.load]
    cases hb : buf.bytes[off]? with
    | none => rfl
    | some b =>
      rw [drop_eq_cons hb, vintBytes] at hnone
      rw [drop_eq_cons hb, length_cons] at hlen
      by_cases hlast : b.toNat &&& 0x80 = 0
      · rw [if_pos hlast] at hnone
        cases hnone
      · rw [if_neg hlast, map_eq_none_iff] at hnone
        simp only [ok_bind]
        -- the tenth byte is not reached
        rw [if_neg (by omega), if_neg hlast]
        exact ih _ _ _ (by omega) (by omega) hnone (by omega)

/-- With a huge size the reader leaves the buffer exactly when the block does. -/
theorem readBlockRawMemAt_fault_iff {base size : Nat} (hbase : base ≤ buf.size)
    (hsize : 2 ^ 63 ≤ size) (hlt : size < 2 ^ 64) :
    readBlockRawMemAt buf base size 0 = .error .fault ↔ ¬ BlockInside (buf.bytes.drop base) := by
  have hdata : (buf.bytes.drop base).length = buf.size - base := length_drop
  have hfour : wadd 0 4 = 4 := rfl
  rw [readBlockRawMemAt, hfour, if_neg (by omega), BlockInside, readLeAt, Nat.add_zero]
  by_cases hcrc : 4 ≤ (buf.bytes.drop base).length
  swap
  · -- the checksum is cut off
    rw [Buffer.loadBytes_fault (by decide) (by omega)]
    exact iff_of_true rfl fun h => hcrc h.1
  rw [buf.loadBytes_eq (by omega), ok_bind, ok_bind]
  have hdrop : (buf.bytes.drop base).drop 4 = buf.bytes.drop (base + 4) := drop_drop
  have hfield : (buf.bytes.drop (base + 4)).length = buf.size - (base + 4) := length_drop
  dsimp only
  rw [hdrop, readVintAt]
  by_cases hvint : 14 ≤ (buf.bytes.drop base).length ∨ vintBytes (buf.bytes.drop (base + 4)) ≠ none
  swap
  · -- the size field is cut off
    rw [not_or, not_not] at hvint
    rw [readVintAtLoop_fault _ _ _ _ (by rw [wsub_eq hlt (by omega), maxVintSize]; omega) rfl
      hvint.2
      (by rw [maxVintSize]; omega)]
    exact iff_of_true rfl fun h => h.2.1.elim hvint.1 fun hne => hne hvint.2
  -- the size field ends in the buffer, so the size makes no difference
  have hwindow : Window buf (base + 4) buf.size (buf.bytes.drop (base + 4)) :=
    ⟨by omega, Nat.le_refl _, by rw [take_of_length_le (by omega)]⟩
  have henough : maxVintSize ≤ (buf.bytes.drop (base + 4)).length ∨
      ∃ field, vintBytes (buf.bytes.drop (base + 4)) = some field ∧
        field.length ≤ (buf.bytes.drop (base + 4)).length := by
    rcases hvint with hlong | hsome
    · exact Or.inl (by rw [maxVintSize]; omega)
    · obtain ⟨field, hsome⟩ := ne_none_iff_exists'.mp hsome
      exact Or.inr ⟨field, hsome, vintBytes_length hsome⟩
  rw [readVintAtLoop_size _ _ _ _ (Or.inl (by rw [wsub_eq hlt (by omega), maxVintSize]; omega))
    henough,
    ← readVintAt]
  rcases hwindow.readVintAt with ⟨hnone, n, hread⟩ | ⟨bodySize, rest, n, hsome, hread, hrest⟩
  · rw [hread, hnone]
    exact iff_of_false (by rintro ⟨⟩) fun h => h ⟨hcrc, hvint, trivial⟩
  rw [hread, hsome, ok_bind]
  dsimp only
  have hcount := hrest.length
  have hend := hrest.off_le
  have hten := readVint_count hsome
  have hstart : wadd 4 n = 4 + n := wadd_eq (by omega)
  by_cases hcap : bodySize > 2 * 1024 * 1024
  · rw [if_pos hcap]
    exact iff_of_false (by simp) fun h =>
      h ⟨hcrc, hvint, fun hle => absurd hle (Nat.not_le.mpr hcap)⟩
  have hsum : wadd (4 + n) bodySize = 4 + n + bodySize := wadd_eq (by omega)
  have hnot : ¬ wadd (4 + n) bodySize > size := by omega
  rw [if_neg hcap, hstart, if_neg hnot]
  by_cases hbody : bodySize ≤ rest.length
  · rw [buf.loadBytes_eq (by omega), buf.loadBytes_eq (by omega), ok_bind, ok_bind]
    refine iff_of_false ?_ fun h => h ⟨hcrc, hvint, fun _ => hbody⟩
    split
    · simp
    · split <;> simp
  · -- the body is cut off
    rw [Buffer.loadBytes_fault (by omega) (by omega)]
    exact iff_of_true rfl fun h => hbody (h.2.2 (Nat.not_lt.mp hcap))

/-! ## The payload -/

theorem quickOpenEntry_safe (place : QuickOpenPlace) (s : QuickOpenState) (r : QuickOpenRecord)
    (result : Except HeaderFailure (RawBlock × Nat)) :
    Safe (fun next => next.qp = r.structEnd) (quickOpenEntry place s r result) := by
  cases result with
  | error _ => rfl
  | ok r =>
    obtain ⟨block, off⟩ := r
    unfold quickOpenEntry
    refine Safe.demand fun _ => ?_
    cases parseFileHeader block.body with
    | none => rfl
    | some header =>
      rw [verdict, ok_bind]
      exact Safe.demand fun _ => rfl

/-- A record reads its header inside the payload: it fits into the record, or its length has
wrapped and the block at that place happens to end in the payload. -/
def HeaderInside (buf : Buffer) (r : QuickOpenRecord) : Prop :=
  r.dataSz ≤ r.structEnd - r.cur ∨ BlockInside (buf.bytes.drop r.cur)

theorem readBlockRawMemAt_record (h : RecordInside place buf s r) :
    readBlockRawMemAt buf r.cur r.dataSz 0 = .error .fault ↔ ¬ HeaderInside buf r := by
  have hcur := h.cur_le
  have hend := h.structEnd_le
  by_cases hfits : r.dataSz ≤ r.structEnd - r.cur
  · rw [readBlockRawMemAt_eq (Window.between (by omega) (by omega))]
    exact iff_of_false (fun h => nomatch h) fun hnot => hnot (Or.inl hfits)
  · rw [readBlockRawMemAt_fault_iff (by omega) (h.wrapped hfits) h.dataSz_lt, HeaderInside,
      or_iff_right hfits]

/-- A turn leaves the payload exactly when it comes to a header that does. -/
theorem quickOpenTurn_fault_iff (place : QuickOpenPlace) (h : s.qp < buf.size) :
    quickOpenTurn place buf s = .error .fault ↔
      ∃ r, quickOpenRecord place buf s = .ok r ∧ ¬ HeaderInside buf r := by
  have hsafe := quickOpenRecord_safe place h
  rw [quickOpenTurn]
  cases hrecord : quickOpenRecord place buf s with
  | error e =>
    rw [hrecord] at hsafe
    obtain rfl : e = .refused := hsafe
    exact iff_of_false (fun h => nomatch h) fun ⟨_, hr, _⟩ => nomatch hr
  | ok r =>
    rw [hrecord] at hsafe
    have hiff : (∃ r', Except.ok (ε := Failure) r = .ok r' ∧ ¬ HeaderInside buf r') ↔
        ¬ HeaderInside buf r :=
      ⟨fun ⟨_, hr, hnot⟩ => by cases hr; exact hnot, fun hnot => ⟨r, rfl, hnot⟩⟩
    rw [hiff, ← readBlockRawMemAt_record hsafe, ok_bind]
    cases readBlockRawMemAt buf r.cur r.dataSz 0 with
    | error e => exact ⟨fun h => by cases h; rfl, fun h => by cases h; rfl⟩
    | ok result =>
      exact iff_of_false (quickOpenEntry_safe place s r result).ne_fault fun h => nomatch h

/-- What an accepted record says. -/
structure Accepted (place : QuickOpenPlace) (buf : Buffer) (s next : QuickOpenState)
    (r : QuickOpenRecord) (block : RawBlock) (header : FileBlock) : Prop where
  fields : quickOpenFields buf s.qp = .ok r
  block_read : ∃ off, readBlockRawMemAt buf r.cur r.dataSz 0 = .ok (.ok (block, off))
  block_type : block.type = headFile ∨ block.type = headService
  header_read : parseFileHeader block.body = some header
  origPos_eq : place.origPos r = s.expectPos
  next_eq : next =
    { qp := r.structEnd
      lastOrigPos := place.origPos r
      expectPos := wadd (wadd (place.origPos r) r.dataSz)
        (cachedEntry place r block header).dataSize
      entries := s.entries ++ [cachedEntry place r block header] }

theorem quickOpenEntry_ok {result : Except HeaderFailure (RawBlock × Nat)}
    (h : quickOpenEntry place s r result = .ok next) :
    ∃ block off header, result = .ok (block, off) ∧
      (block.type = headFile ∨ block.type = headService) ∧
      parseFileHeader block.body = some header ∧ place.origPos r = s.expectPos ∧
      next =
        { qp := r.structEnd
          lastOrigPos := place.origPos r
          expectPos := wadd (wadd (place.origPos r) r.dataSz)
            (cachedEntry place r block header).dataSize
          entries := s.entries ++ [cachedEntry place r block header] } := by
  unfold quickOpenEntry at h
  split at h
  · exact nomatch h
  next block off =>
  obtain ⟨htype, h⟩ := demand_ok h
  cases hheader : parseFileHeader block.body with
  | none =>
    rw [hheader] at h
    exact nomatch h
  | some header =>
    rw [hheader, verdict, ok_bind] at h
    obtain ⟨hpos, h⟩ := demand_ok h
    exact ⟨block, off, header, rfl, htype, hheader, hpos, (Except.ok.inj h).symm⟩

/-- A record is accepted with the header that was read. -/
theorem quickOpenTurn_ok (h : quickOpenTurn place buf s = .ok next) :
    ∃ r block header, Accepted place buf s next r block header := by
  obtain ⟨r, hrecord, h⟩ := bind_ok h
  obtain ⟨result, hresult, h⟩ := bind_ok h
  obtain ⟨block, off, header, rfl, htype, hheader, hpos, hnext⟩ := quickOpenEntry_ok h
  obtain ⟨r', hfields, hrecord⟩ := bind_ok hrecord
  obtain ⟨_, hrecord⟩ := demand_ok hrecord
  obtain ⟨_, hrecord⟩ := demand_ok hrecord
  cases hrecord
  exact ⟨r, block, header, hfields, ⟨off, hresult⟩, htype, hheader, hpos, hnext⟩

theorem quickOpenTurn_progress (h : s.qp < buf.size)
    (hturn : quickOpenTurn place buf s = .ok next) : s.qp < next.qp := by
  obtain ⟨r, block, header, haccepted⟩ := quickOpenTurn_ok hturn
  have hsafe := quickOpenFields_safe h
  rw [haccepted.fields] at hsafe
  rw [haccepted.next_eq]
  exact Nat.lt_of_lt_of_le hsafe.1 hsafe.2.1

/-- The states at which the loop over the payload begins a turn. -/
def Visits (place : QuickOpenPlace) (buf : Buffer) (s : QuickOpenState) : Prop :=
  Turns (fun s : QuickOpenState => s.qp < buf.size) (quickOpenTurn place buf)
    { expectPos := place.currPos } s ∧ s.qp < buf.size

/-- The loop fails where one of its turns does; its bound is never the reason. -/
theorem parseQuickOpen_error_iff (place : QuickOpenPlace) (buf : Buffer) (e : Failure) :
    parseQuickOpen place buf = .error e ↔
      ∃ s, Visits place buf s ∧ quickOpenTurn place buf s = .error e := by
  have hpos : ∀ s : QuickOpenState, s.qp < buf.size → 0 < buf.size - s.qp :=
    fun s hs => Nat.sub_pos_of_lt hs
  have hprogress : ∀ s next : QuickOpenState, s.qp < buf.size →
      quickOpenTurn place buf s = .ok next → buf.size - next.qp < buf.size - s.qp := by
    intro s next hs hturn
    have := quickOpenTurn_progress hs hturn
    omega
  have hfuel : buf.size - (0 : Nat) ≤ buf.size := Nat.sub_le _ _
  refine (whileDo_error_iff _ _ hpos hprogress hfuel e).trans ?_
  exact exists_congr fun s => and_assoc.symm

/-- The parser reads inside the payload exactly when every header that it comes to lies
inside: a header either fits into its record, or its length wraps round and the block that
stands there happens to end in the payload. -/
theorem parseQuickOpen_inside_iff (place : QuickOpenPlace) (buf : Buffer) :
    parseQuickOpen place buf ≠ .error .fault ↔
      ∀ s r, Visits place buf s → quickOpenRecord place buf s = .ok r → HeaderInside buf r := by
  rw [Ne, parseQuickOpen_error_iff]
  constructor
  · intro h s r hs hr
    by_contra hnot
    exact h ⟨s, hs, (quickOpenTurn_fault_iff place hs.2).mpr ⟨r, hr, hnot⟩⟩
  · rintro h ⟨s, hs, hfault⟩
    obtain ⟨r, hr, hnot⟩ := (quickOpenTurn_fault_iff place hs.2).mp hfault
    exact hnot (h s r hs hr)

/-- One record of seventeen bytes whose header is said to have `2 ^ 64 - 1`. -/
def wrappedPayload : Buffer :=
  ⟨[0x48, 0xFB, 0xA5, 0x23, 0x0C, 0x00, 0x00, 0xFF, 0xFF, 0xFF, 0xFF, 0xFF, 0xFF, 0xFF, 0xFF, 0xFF,
    0x01],
    by decide⟩

/-- The sum of the cursor and that length is sixteen; the checksum of the header is then read
behind the end of the payload. -/
theorem parseQuickOpen_wrapped :
    parseQuickOpen { qoAbsPos := 100, currPos := 20, vsz := 150 } wrappedPayload =
      .error .fault := by
  decide +kernel

end OpenRar.Archive
