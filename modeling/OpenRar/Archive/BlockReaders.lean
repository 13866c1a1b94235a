import OpenRar.Archive.BufferArchive
import OpenRar.Core.CheckedVint

/-!
# The two readers of blocks

`HeaderReader::read_block_raw` takes a block from a stream: it reads ten bytes for the size
field and moves the stream back over what it did not need.  `read_block_raw_mem` takes a
block from a buffer through an offset, with every sum and difference in 64 bits.  Here both
are written with their positions; the functions on lists that the rest of the development
uses are what they compute.

The readers look for the end of the size field in different ways.  One splits off the bytes
up to the first without a continuation bit and decodes those; the other lets `read_vint`
find the end.  `readVint_vintBytes` says that this is the same.
-/

namespace OpenRar.Archive

open CheckedReads OpenRar.Core OpenRar.Crypto OpenRar.Format HeaderReader List Option

/-! ## Reading from a stream -/

/-- A stream over a file: reads are short at its end only. -/
structure ByteStream where
  bytes : List UInt8
  pos : Nat

variable (src : ByteStream)

namespace ByteStream

/-- The bytes from the position on. -/
def rest : List UInt8 := src.bytes.drop src.pos

def read (n : Nat) : List UInt8 × ByteStream :=
  let got := src.rest.take n
  (got, { src with pos := src.pos + got.length })

/-- `seek(delta, SeekOrigin::Current)` -/
def seek (delta : Int) : Option ByteStream :=
  if src.pos + delta < 0 then none else some { src with pos := (src.pos + delta).toNat }

end ByteStream

/-- The size field of a block, and the stream behind it. -/
def readSizeField : Option (List UInt8 × ByteStream) :=
  let (ahead, src) := src.read 10
  match vintBytes ahead with
  | none => none
  | some size =>
    if ahead.length > size.length then
      (src.seek (size.length - ahead.length)).map fun src => (size, src)
    else some (size, src)

/-- `read_block_raw` on a stream without header encryption, and the stream behind the block. -/
def readBlockRawStream : Except HeaderFailure (RawBlock × ByteStream) :=
  let (crc, src) := src.read 4
  if crc.length = 0 then .error .eof
  else if crc.length ≠ 4 then .error .error
  else
    match readSizeField src with
    | none => .error .error
    | some (size, src) =>
      match readVint size with
      | none => .error .error
      | some (bodySize, _) =>
        if bodySize > 2 * 1024 * 1024 then .error .error
        else
          let (body, src) := src.read bodySize
          if body.length ≠ bodySize then .error .error
          else if (crc32From (crc32From 0#32 size) body).toNat ≠ readLe crc then
            .error .headerCrcMismatch
          else
            match parseBlockFields body with
            | none => .error .error
            | some block => .ok (block, src)

/-! ## Reading from a buffer -/

/-- `read_block_raw_mem(buf + base, size, cur, …)`: the block and the offset behind it, if
no read leaves the buffer. -/
def readBlockRawMemAt (buf : Buffer) (base size cur : Nat) :
    Except Failure (Except HeaderFailure (RawBlock × Nat)) :=
  if wadd cur 4 > size then .ok (.error .error)
  else do
    let expectedCrc ← readLeAt buf 4 (base + cur)
    let cur := wadd cur 4
    let (bodySize, count) ← readVintAt buf (base + cur) (wsub size cur)
    match bodySize with
    | none => .ok (.error .error)
    | some bodySize =>
      if bodySize > 2 * 1024 * 1024 then .ok (.error .error)
      else
        let start := wadd cur count
        if wadd start bodySize > size then .ok (.error .error)
        else do
          let body ← buf.loadBytes (base + start) bodySize
          let field ← buf.loadBytes (base + cur) count
          if (crc32From (crc32From 0#32 field) body).toNat ≠ expectedCrc then
            .ok (.error .headerCrcMismatch)
          else
            match parseBlockFields body with
            | none => .ok (.error .error)
            | some block => .ok (.ok (block, wadd start bodySize))

/-! ## The size field -/

/-- The size field stands at the front, and `read_vint` reads it to its end. -/
theorem readVintLoop_vintBytes (fuel shift value : Nat) (data : List UInt8) :
    match vintBytes (data.take fuel) with
    | none => readVintLoop fuel shift value data = none
    | some size =>
      data = size ++ data.drop size.length ∧
        readVintLoop fuel shift value data =
          (readVintLoop fuel shift value size).map fun r => (r.1, data.drop size.length) := by
  induction fuel generalizing shift value data with
  | zero => rfl
  | succ fuel ih =>
    cases data with
    | nil => rfl
    | cons b rest =>
      rw [take_succ_cons, vintBytes]
      by_cases hlast : b.toNat &&& 0x80 = 0
      · -- the last byte of the field
        rw [if_pos hlast]
        simp only [readVintLoop]
        split <;> simp
      · rw [if_neg hlast]
        have hrest := ih (shift + 7)
          (value ||| (if shift = 63 then b.toNat &&& 0x01 else b.toNat &&& 0x7F) <<< shift) rest
        cases hsize : vintBytes (rest.take fuel) with
        | none =>
          rw [hsize] at hrest
          simp only [map_none, readVintLoop]
          split
          · rfl
          · exact hrest
        | some size =>
          rw [hsize] at hrest
          simp only [map_some, readVintLoop]
          refine ⟨congrArg (b :: ·) hrest.1, ?_⟩
          split
          · rfl
          · exact hrest.2

variable {data size rest : List UInt8} {block : RawBlock}

theorem readVint_vintBytes_none (h : vintBytes (data.take 10) = none) :
    readVint data = none := by
  have hloop := readVintLoop_vintBytes maxVintSize 0 0 data
  rwa [maxVintSize, h] at hloop

theorem readVint_vintBytes (h : vintBytes (data.take 10) = some size) :
    data = size ++ data.drop size.length ∧
      readVint data = (readVint size).map fun r => (r.1, data.drop size.length) := by
  have hloop := readVintLoop_vintBytes maxVintSize 0 0 data
  rwa [maxVintSize, h] at hloop

theorem vintBytes_length (h : vintBytes data = some size) :
    size.length ≤ data.length := by
  induction data generalizing size with
  | nil => exact nomatch h
  | cons b rest ih =>
    rw [vintBytes] at h
    split at h
    · cases h
      simp
    · obtain ⟨tail, htail, rfl⟩ := map_eq_some_iff.mp h
      simpa using ih htail

/-- An integer takes ten bytes at most. -/
theorem readVint_count {v : Nat} (h : readVint data = some (v, rest)) :
    data.length ≤ rest.length + 10 := by
  cases hfield : vintBytes (data.take 10) with
  | none =>
    rw [readVint_vintBytes_none hfield] at h
    exact nomatch h
  | some size =>
    have hlength := vintBytes_length hfield
    rw [(readVint_vintBytes hfield).2] at h
    obtain ⟨_, _, hrest⟩ := map_eq_some_iff.mp h
    obtain rfl : data.drop size.length = rest := (Prod.mk.inj hrest).2
    rw [length_take] at hlength
    rw [length_drop]
    omega

/-! ## The functions on lists -/

/-- The reader on a list ends at the end of the list with the failure of the stream. -/
theorem readBlockRaw_eof_iff (data : List UInt8) : readBlockRaw data = .error .eof ↔ data = [] := by
  constructor
  · intro h
    by_contra hne
    have hpos : data.length ≠ 0 := fun hzero => hne (length_eq_zero_iff.mp hzero)
    rw [readBlockRaw, if_neg hpos] at h
    -- no later branch ends with that failure
    unfold readBody at h
    grind
  · rintro rfl
    rfl

/-- What the reader of a buffer makes of a failure of the stream's. -/
def memFailure : HeaderFailure → HeaderFailure
  | .eof => .error
  | e => e

/-- Both readers on lists agree up to the verdict at the end of the input. -/
theorem readBlockRawMem_eq (data : List UInt8) :
    readBlockRawMem data = (readBlockRaw data).mapError memFailure := by
  rw [readBlockRawMem, readBlockRaw]
  by_cases hzero : data.length = 0
  · rw [if_pos (by omega), if_pos hzero]
    rfl
  rw [if_neg hzero]
  by_cases hshort : data.length < 4
  · rw [if_pos hshort, if_pos hshort]
    rfl
  rw [if_neg hshort, if_neg hshort]
  dsimp only
  cases hfield : vintBytes ((data.drop 4).take 10) with
  | none =>
    rw [readVint_vintBytes_none hfield]
    rfl
  | some size =>
    obtain ⟨hsplit, hread⟩ := readVint_vintBytes hfield
    dsimp only
    rw [hread, readBody]
    cases readVint size with
    | none => rfl
    | some r =>
      obtain ⟨bodySize, _⟩ := r
      -- the buffer's reader measures the field by what is left behind it
      have hlength : data.length - 4 - ((data.drop 4).drop size.length).length = size.length := by
        have := congrArg List.length hsplit
        simp only [length_append, length_drop] at this ⊢
        omega
      have htake : (data.drop 4).take size.length = size := by
        conv_lhs => rw [hsplit]
        exact take_left
      simp only [map_some]
      rw [hlength, htake]
      split
      · rfl
      · split
        · rfl
        · split
          · rfl
          · cases parseBlockFields (((data.drop 4).drop size.length).take bodySize) <;> rfl

theorem readBlockRaw_ok_iff {r : RawBlock × List UInt8} :
    readBlockRaw data = .ok r ↔ readBlockRawMem data = .ok r := by
  rw [readBlockRawMem_eq]
  cases readBlockRaw data with
  | error e => exact iff_of_false (fun h => nomatch h) fun h => nomatch h
  | ok s => exact Iff.rfl

/-- The checksum, the size field and the body of a block. -/
structure BlockBytes (crc field body : List UInt8) (block : RawBlock) : Prop where
  crc_length : crc.length = 4
  size : ∀ tail, readVint (field ++ tail) = some (body.length, tail)
  body_le : body.length ≤ 2 * 1024 * 1024
  crc_eq : (crc32From (crc32From 0#32 field) body).toNat = readLe crc
  fields : parseBlockFields body = some block

theorem BlockBytes.read {crc field body : List UInt8} (h : BlockBytes crc field body block)
    (rest : List UInt8) :
    readBlockRawMem (crc ++ (field ++ (body ++ rest))) = .ok (block, rest) := by
  have hcrc := h.crc_length
  have htake : (field ++ (body ++ rest)).take
      ((crc ++ (field ++ (body ++ rest))).length - 4 - (body ++ rest).length) = field := by
    rw [show (crc ++ (field ++ (body ++ rest))).length - 4 - (body ++ rest).length = field.length by
      simp only [length_append]; omega, take_left]
  rw [readBlockRawMem, if_neg (by rw [length_append]; omega), drop_left' hcrc, h.size]
  dsimp only
  rw [htake, if_neg (Nat.not_lt.mpr h.body_le), if_neg (by rw [length_append]; omega),
    take_left, take_left' hcrc, if_neg (not_not.mpr h.crc_eq), h.fields, drop_left]

theorem readBlockRawMem_blockBytes (h : readBlockRawMem data = .ok (block, rest)) :
    ∃ crc field body, BlockBytes crc field body block ∧
      data = crc ++ (field ++ (body ++ rest)) := by
  rw [readBlockRawMem] at h
  split at h
  · exact nomatch h
  next hfour =>
  split at h
  · exact nomatch h
  next bodySize rest' hread =>
  obtain ⟨field, hfield, _, hsize⟩ := readVint_split hread
  have hlength : data.length - 4 - rest'.length = field.length := by
    have := congrArg List.length hfield
    rw [length_drop, length_append] at this
    omega
  dsimp only at h
  rw [hlength, hfield, take_left] at h
  split at h
  · exact nomatch h
  next hcap =>
  split at h
  · exact nomatch h
  next hshort =>
  split at h
  · exact nomatch h
  next hcrc =>
  have hbody : (rest'.take bodySize).length = bodySize := by
    rw [length_take]
    omega
  split at h
  · exact nomatch h
  next b hfields =>
  cases h
  refine ⟨data.take 4, field, rest'.take bodySize,
    ⟨by rw [length_take]; omega, by rw [hbody]; exact hsize, by omega, not_not.mp hcrc, hfields⟩,
      ?_⟩
  rw [take_append_drop, ← hfield, take_append_drop]

/-- The bytes of a block determine it, whatever follows. -/
theorem readBlockRaw_split (h : readBlockRaw data = .ok (block, rest)) :
    ∃ bytes, data = bytes ++ rest ∧ bytes ≠ [] ∧
      ∀ tail, readBlockRaw (bytes ++ tail) = .ok (block, tail) := by
  obtain ⟨crc, field, body, hblock, rfl⟩ := readBlockRawMem_blockBytes (readBlockRaw_ok_iff.mp h)
  refine ⟨crc ++ (field ++ body), by simp, ?_, fun tail => ?_⟩
  · intro hnil
    have := hblock.crc_length
    simp_all
  · rw [readBlockRaw_ok_iff]
    simpa using hblock.read tail

theorem readBlockRaw_length
    (h : readBlockRaw data = .ok (block, rest)) : rest.length < data.length := by
  obtain ⟨bytes, rfl, hne, _⟩ := readBlockRaw_split h
  have := length_pos_of_ne_nil hne
  rw [length_append]
  omega

/-! ## The stream -/

/-- The stream `n` bytes further on. -/
def ByteStream.advance (n : Nat) : ByteStream := { src with pos := src.pos + n }

theorem ByteStream.rest_advance (n : Nat) : (src.advance n).rest = src.rest.drop n := by
  simp [advance, rest]

theorem ByteStream.read_eq {src : ByteStream} {n : Nat} (h : n ≤ src.rest.length) :
    src.read n = (src.rest.take n, src.advance n) := by
  simp [read, advance, Nat.min_eq_left h]

theorem vintBytes_ne_nil (h : vintBytes data = some size) : size ≠ [] := by
  cases data with
  | nil => exact nomatch h
  | cons b rest =>
    rw [vintBytes] at h
    split at h
    · cases h
      simp
    · obtain ⟨tail, -, rfl⟩ := map_eq_some_iff.mp h
      simp

theorem readSizeField_eq :
    readSizeField src = (vintBytes (src.rest.take 10)).map fun size =>
      (size, src.advance size.length) := by
  rw [readSizeField, show src.read 10 = (src.rest.take 10, src.advance (src.rest.take 10).length)
    from rfl]
  dsimp only
  cases hfield : vintBytes (src.rest.take 10) with
  | none => rfl
  | some size =>
    have hle := vintBytes_length hfield
    dsimp only [map_some]
    by_cases hover : (src.rest.take 10).length > size.length
    · -- what was read too much is given back
      rw [if_pos hover, ByteStream.seek, if_neg (by dsimp only [ByteStream.advance]; omega)]
      simp only [map_some, ByteStream.advance, Option.some.injEq, Prod.mk.injEq,
        ByteStream.mk.injEq,
        true_and]
      omega
    · have heq : (src.rest.take 10).length = size.length := by omega
      rw [if_neg hover, heq]

theorem readBlockRawStream_eq : readBlockRawStream src =
      (readBlockRaw src.rest).map fun r => (r.1, src.advance (src.rest.length - r.2.length)) := by
  rw [readBlockRaw]
  by_cases hshort : src.rest.length < 4
  · -- the checksum is cut off
    have hcrc : (src.rest.take 4).length = src.rest.length := by simp; omega
    simp only [readBlockRawStream, ByteStream.read, hcrc]
    split
    · rfl
    · rw [if_pos (by omega)]
      rfl
  have hcrc : (src.rest.take 4).length = 4 := by simp; omega
  rw [if_neg (by omega), if_neg hshort, readBlockRawStream, ByteStream.read_eq (by omega)]
  dsimp only
  rw [if_neg (by omega), if_neg (by omega), readSizeField_eq, ByteStream.rest_advance]
  cases hfield : vintBytes ((src.rest.drop 4).take 10) with
  | none => rfl
  | some size =>
    have hle : size.length ≤ (src.rest.drop 4).length :=
      (vintBytes_length hfield).trans (length_take_le' _ _)
    have hdata : ((src.advance 4).advance size.length).rest =
        (src.rest.drop 4).drop size.length := by
      rw [ByteStream.rest_advance, ByteStream.rest_advance]
    dsimp only [map_some]
    rw [readBody]
    cases readVint size with
    | none => rfl
    | some r =>
      obtain ⟨bodySize, _⟩ := r
      dsimp only
      split
      · rfl
      by_cases hbody : ((src.rest.drop 4).drop size.length).length < bodySize
      · rw [if_pos hbody, if_pos]
        · rfl
        · simp only [ByteStream.read, hdata, length_take]
          omega
      · have hread : bodySize ≤ (((src.advance 4).advance size.length).rest).length := by
          rw [hdata]
          omega
        rw [if_neg hbody, ByteStream.read_eq hread, hdata]
        rw [if_neg (by rw [length_take]; omega)]
        split
        · rfl
        cases parseBlockFields (((src.rest.drop 4).drop size.length).take bodySize) with
        | none => rfl
        | some block =>
          simp only [Except.map, ByteStream.advance, length_drop, Except.ok.injEq,
            Prod.mk.injEq, ByteStream.mk.injEq, true_and]
          simp only [length_drop] at hbody hle
          omega

/-! ## The buffer -/

/-- Between offsets that lie in the buffer the reader computes its function on lists. -/
theorem readBlockRawMemAt_eq {buf : Buffer} {base size cur : Nat}
    (h : Window buf (base + cur) (base + size) data) :
    readBlockRawMemAt buf base size cur =
      .ok ((readBlockRawMem data).map fun r => (r.1, size - r.2.length)) := by
  have hlen := h.length
  have hlt := h.lt
  rw [readBlockRawMemAt, readBlockRawMem, wadd_eq (by omega)]
  by_cases hshort : data.length < 4
  · rw [if_pos hshort, if_pos (by omega)]
    rfl
  have hfield := h.drop (n := 4) (by omega)
  rw [if_neg hshort, if_neg (by omega), h.readLeAt (by omega), ok_bind]
  rw [Nat.add_assoc] at hfield
  have hleft : wsub size (cur + 4) = (data.drop 4).length := by
    rw [CheckedReads.wsub_eq (by omega) (by omega), length_drop]
    omega
  dsimp only
  rw [hleft]
  rcases hfield.readVintAt with ⟨hnone, n, hread⟩ | ⟨bodySize, rest, n, hsome, hread, hrest⟩
  · rw [hread, hnone]
    rfl
  have hcount := hrest.length
  have hoff := hrest.off_le
  have hdrop := length_drop (l := data) (i := 4)
  have hstart : wadd (cur + 4) n = cur + 4 + n := wadd_eq (by omega)
  rw [hread, hsome, ok_bind]
  dsimp only
  rw [hstart]
  by_cases hcap : bodySize > 2 * 1024 * 1024
  · rw [if_pos hcap, if_pos hcap]
    rfl
  rw [if_neg hcap, if_neg hcap, wadd_eq (by omega)]
  by_cases hbody : rest.length < bodySize
  · rw [if_pos hbody, if_pos (by omega)]
    rfl
  rw [if_neg hbody, if_neg (by omega), show base + (cur + 4 + n) = base + (cur + 4) + n by omega,
    hrest.loadBytes (by omega), hfield.loadBytes (by omega), ok_bind, ok_bind,
    show data.length - 4 - rest.length = n by omega]
  split
  · rfl
  · cases parseBlockFields (rest.take bodySize) with
    | none => rfl
    | some block =>
      simp only [Except.map, length_drop, Except.ok.injEq, Prod.mk.injEq, true_and]
      omega

/-! ## Agreement -/

/-- On the bytes of one file both readers accept the same blocks, with the same contents and
the same position behind them, and turn down the rest alike; at the exact end of the input the
stream has a failure of its own. -/
theorem readBlockRawMemAt_stream (buf : Buffer) (base cur : Nat) (h : base + cur ≤ buf.size) :
    readBlockRawMemAt buf base (buf.size - base) cur =
        .ok (((readBlockRawStream ⟨buf.bytes, base + cur⟩).map fun r =>
          (r.1, r.2.pos - base)).mapError
          memFailure) ∧
      (readBlockRawStream ⟨buf.bytes, base + cur⟩ = .error .eof ↔ base + cur = buf.size) := by
  have hwindow : Window buf (base + cur) (base + (buf.size - base)) (buf.bytes.drop (base + cur)) :=
    ⟨by omega, by omega, by rw [take_of_length_le]; rw [length_drop, ← Buffer.size]; omega⟩
  have hstream := readBlockRawStream_eq ⟨buf.bytes, base + cur⟩
  have hrest : ByteStream.rest ⟨buf.bytes, base + cur⟩ = buf.bytes.drop (base + cur) := rfl
  rw [hrest] at hstream
  constructor
  · rw [readBlockRawMemAt_eq hwindow, readBlockRawMem_eq, hstream]
    cases hraw : readBlockRaw (buf.bytes.drop (base + cur)) with
    | error e => rfl
    | ok r =>
      have hless := readBlockRaw_length hraw
      rw [length_drop] at hless
      simp only [Except.map, Except.mapError, ByteStream.advance, length_drop, Buffer.size,
        Except.ok.injEq, Prod.mk.injEq, true_and]
      omega
  · rw [hstream]
    have hend : buf.bytes.drop (base + cur) = [] ↔ base + cur = buf.size := by
      rw [drop_eq_nil_iff, ← Buffer.size]
      omega
    rw [← hend, ← readBlockRaw_eof_iff]
    cases readBlockRaw (buf.bytes.drop (base + cur)) with
    | error e => simp [Except.map]
    | ok r => simp [Except.map]

/-- An end header of eight bytes. -/
def endBlockBytes : Buffer := ⟨[0x1D, 0x77, 0x56, 0x51, 3, 5, 4, 0], by decide⟩

/-- The stream and the buffer both read the end header, and the stream then reports the end. -/
theorem readBlockRawMemAt_stream_endBlock :
    (readBlockRawMemAt endBlockBytes 0 8 0 =
        .ok (((readBlockRawStream ⟨endBlockBytes.bytes, 0⟩).map fun r =>
          (r.1, r.2.pos - 0)).mapError
          memFailure) ∧
      readBlockRawMemAt endBlockBytes 0 8 0 = .ok (.ok (⟨5, 4, [5, 4, 0], 0⟩, 8))) ∧
    readBlockRawStream ⟨endBlockBytes.bytes, 8⟩ = .error .eof :=
  ⟨⟨(readBlockRawMemAt_stream endBlockBytes 0 0 (by decide)).1, by decide +kernel⟩,
    (readBlockRawMemAt_stream endBlockBytes 0 8 (by decide)).2.mpr rfl⟩

end OpenRar.Archive
