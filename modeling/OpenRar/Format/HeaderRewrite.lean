import OpenRar.Format.HeaderRoundTrip

/-!
# Rewriting a header that was read

A header that was read, possibly written by another program, is written again when an
archive is changed.  The rewritten header keeps the name, the sizes, the checksums, the
method and the encryption record, under one condition: the flag of the encryption record
must agree with the password check that the reader kept.  The reader drops a check that
is all zero and leaves the flag; the writer then announces bytes that it does not write,
and the header is refused.
-/

namespace OpenRar.Format

open OpenRar.Core HeaderWriter List Option

namespace HeaderReader

variable {b b' : FileBlock}

/-! ## What records leave alone -/

/-- The fixed fields, the digest and the encryption. -/
def core (b : FileBlock) : FileBlock :=
  { b with
    times := {}
    owner := {}
    hasFileVersion := false
    fileVersion := 0
    redir := {}
    subData := []
    xattrs := []
    unknownExtras := [] }

/-- The fixed fields. -/
def fixedFields (b : FileBlock) : FileBlock :=
  { core b with
    hasBlake2sp := false
    blake2sp := .zero 32
    crypt := {} }

theorem core_parseVersionOrRedir (payload : List UInt8) (b : FileBlock) :
    core (parseVersionOrRedir payload b) = core b := by
  unfold parseVersionOrRedir
  split
  · rfl
  · split
    · rfl
    · rfl

variable {type : UInt8} {c : FileCrypt} {payload rest data : List UInt8}

/-- The records behind the encryption and the digest leave these alone, and are never
refused. -/
theorem parseRecord_core (hhash : type ≠ fhextraHash) (hcrypt : type ≠ fhextraCrypt)
    (hsubdata : type ≠ fhextraSubdata) (recSize : Nat) (payload raw rest : List UInt8)
    (b : FileBlock) :
    ∃ b', parseRecord recSize type payload raw rest b = some (b', rest) ∧ core b' = core b := by
  unfold parseRecord
  rw [if_neg fun h => hhash h.1, if_neg hcrypt]
  split
  · exact ⟨_, rfl, core_parseVersionOrRedir payload b⟩
  · split
    · exact ⟨_, rfl, rfl⟩
    · split
      · exact ⟨_, rfl, rfl⟩
      · split
        · split
          · exact ⟨_, rfl, rfl⟩
          · exact ⟨_, rfl, rfl⟩
        · exact ⟨_, rfl, rfl⟩

/-- Nothing, or one record of this kind. -/
inductive Plain : List UInt8 → Prop
  | none : Plain []
  | record {type : UInt8} (hhash : type ≠ fhextraHash) (hcrypt : type ≠ fhextraCrypt)
      (hsubdata : type ≠ fhextraSubdata) (content : List UInt8) : Plain (extraRecord type content)

theorem plain_ite {p : Prop} [Decidable p]
    (htype : type ≠ fhextraHash ∧ type ≠ fhextraCrypt ∧ type ≠ fhextraSubdata)
    (content : List UInt8) :
    Plain (if p then extraRecord type content else []) := by
  split
  · exact .record htype.1 htype.2.1 htype.2.2 content
  · exact .none

theorem plain_redirRecord (r : Redirection) : Plain (redirRecord r) := plain_ite (by decide) _

theorem plain_htimeRecord (t : FileTimes) : Plain (htimeRecord t) := plain_ite (by decide) _

theorem plain_versionRecord (b : FileBlock) : Plain (versionRecord b) := plain_ite (by decide) _

theorem plain_ownerRecord (o : Owner) : Plain (ownerRecord o) := plain_ite (by decide) _

theorem plain_xattrRecord (xattrs : List FileXattr) : Plain (xattrRecord xattrs) :=
  plain_ite (by decide) _

theorem Plain.parseArea {written : List UInt8} (h : Plain written) (hlen : written.length < 2 ^ 64)
    (rest : List UInt8) (b : FileBlock) :
    ∃ b', parseArea (written ++ rest) b = parseArea rest b' ∧ core b' = core b := by
  cases h with
  | none => exact ⟨b, rfl, rfl⟩
  | @record type hhash hcrypt hsubdata content =>
    rw [extraRecord, length_append, length_cons] at hlen
    obtain ⟨b', hrecord, hcore⟩ := parseRecord_core hhash hcrypt hsubdata (content.length + 1)
      content (extraRecord type content) rest b
    refine ⟨b', ?_, hcore⟩
    rw [parseArea_extraRecord (by omega), hrecord]
    rfl

/-! ## Reading the rewritten header -/

/-- The encryption that the reader finds in a rewritten header. -/
def reparsedCrypt (c : FileCrypt) : Option FileCrypt :=
  if c.isEncrypted then parseCrypt (cryptContent c) {} else some {}

/-- What the reader makes of a rewritten header, apart from the records of no concern. -/
def reparsed (b : FileBlock) (c : FileCrypt) : FileBlock :=
  { fixedPart b with
    crypt := c
    hasBlake2sp := b.hasBlake2sp
    blake2sp := if b.hasBlake2sp then b.blake2sp else .zero 32 }

theorem parseArea_cryptRecord_eq (hlen : (cryptRecord c).length < 2 ^ 64) (rest : List UInt8)
    {b0 : FileBlock} (hb0 : b0.crypt = {}) :
    parseArea (cryptRecord c ++ rest) b0 =
      (reparsedCrypt c).bind fun c' => parseArea rest { b0 with crypt := c' } := by
  unfold cryptRecord reparsedCrypt at *
  cases hencrypted : c.isEncrypted with
  | false =>
    rw [if_neg Bool.false_ne_true, if_neg Bool.false_ne_true, nil_append, bind_some,
      ← hb0]
  | true =>
    rw [if_pos hencrypted, extraRecord, length_append, length_cons] at hlen
    rw [if_pos rfl, if_pos rfl, parseArea_extraRecord (by omega)]
    show ((parseCrypt (cryptContent c) b0.crypt).bind _).bind _ = _
    rw [hb0, bind_assoc]
    rfl

/-- The records behind the encryption are read without a failure. -/
theorem parseArea_tail (hfile : b.isService = false) (hcaptured : Captured b.unknownExtras)
    (hlen : (extraArea b).length < 2 ^ 64) (c : FileCrypt) :
    ∃ b', parseArea (redirRecord b.redir ++ (hashRecord b ++ (htimeRecord b.times ++
        (versionRecord b ++ (ownerRecord b.owner ++ (subdataRecord b ++ (xattrRecord b.xattrs ++
          b.unknownExtras.flatMap UnknownExtra.raw))))))) { fixedPart b with crypt := c } = some b' ∧
      core b' = core (reparsed b c) := by
  have hnone : subdataRecord b = [] := by
    rw [subdataRecord, if_neg (by simp [hfile])]
  unfold extraArea at hlen
  simp only [length_append] at hlen
  obtain ⟨b1, hredir, hcore1⟩ := (plain_redirRecord b.redir).parseArea (by omega)
    (hashRecord b ++ (htimeRecord b.times ++ (versionRecord b ++ (ownerRecord b.owner ++
      (xattrRecord b.xattrs ++ b.unknownExtras.flatMap UnknownExtra.raw)))))
    { fixedPart b with crypt := c }
  have hhas1 : b1.hasBlake2sp = false := (congrArg FileBlock.hasBlake2sp hcore1 :)
  have hdigest1 : b1.blake2sp = .zero 32 := (congrArg FileBlock.blake2sp hcore1 :)
  have hhash : parseArea (hashRecord b ++ (htimeRecord b.times ++ (versionRecord b ++
      (ownerRecord b.owner ++ (xattrRecord b.xattrs ++
        b.unknownExtras.flatMap UnknownExtra.raw))))) b1 = _ :=
    parseArea_hashRecord hhas1 hdigest1 _
  set b2 : FileBlock :=
    { b1 with
      hasBlake2sp := b.hasBlake2sp
      blake2sp := if b.hasBlake2sp then b.blake2sp else .zero 32 } with hb2
  have hcore2 : core b2 = core (reparsed b c) :=
    congrArg (fun x : FileBlock =>
      { x with
        hasBlake2sp := b.hasBlake2sp
        blake2sp := if b.hasBlake2sp then b.blake2sp else .zero 32 }) hcore1
  obtain ⟨b3, hhtime, hcore3⟩ := (plain_htimeRecord b.times).parseArea (by omega)
    (versionRecord b ++ (ownerRecord b.owner ++ (xattrRecord b.xattrs ++
      b.unknownExtras.flatMap UnknownExtra.raw))) b2
  obtain ⟨b4, hversion, hcore4⟩ := (plain_versionRecord b).parseArea (by omega)
    (ownerRecord b.owner ++ (xattrRecord b.xattrs ++ b.unknownExtras.flatMap UnknownExtra.raw)) b3
  obtain ⟨b5, howner, hcore5⟩ := (plain_ownerRecord b.owner).parseArea (by omega)
    (xattrRecord b.xattrs ++ b.unknownExtras.flatMap UnknownExtra.raw) b4
  obtain ⟨b6, hxattr, hcore6⟩ := (plain_xattrRecord b.xattrs).parseArea (by omega)
    (b.unknownExtras.flatMap UnknownExtra.raw) b5
  refine ⟨{ b6 with unknownExtras := b6.unknownExtras ++ b.unknownExtras }, ?_, ?_⟩
  · rw [hnone, nil_append, hredir, hhash, hhtime, hversion, howner, hxattr]
    exact hcaptured.parseArea b6
  · calc core { b6 with unknownExtras := b6.unknownExtras ++ b.unknownExtras } = core b6 := rfl
      _ = core (reparsed b c) := by rw [hcore6, hcore5, hcore4, hcore3, hcore2]

/-- **The rewritten header is refused exactly when its encryption record is.** -/
theorem parseFileHeader_rewritten (hb : Bounded b) (hfile : b.isService = false)
    (hcaptured : Captured b.unknownExtras) {extraHeadFlags : Nat} {fixedPackSizeVint : Bool}
    (hlen : (fileBody b extraHeadFlags fixedPackSizeVint).length < 2 ^ 64) :
    (reparsedCrypt b.crypt = none ∧
      parseFileHeader (fileBody b extraHeadFlags fixedPackSizeVint) = none) ∨
    ∃ c b', reparsedCrypt b.crypt = some c ∧
      parseFileHeader (fileBody b extraHeadFlags fixedPackSizeVint) = some b' ∧
      core b' = core (reparsed b c) := by
  have harea := (fileBody_parts_lt hlen).2
  have hcryptLen : (cryptRecord b.crypt).length < 2 ^ 64 := by
    unfold extraArea at harea
    simp only [length_append] at harea
    omega
  rw [parseFileHeader_fileBody hb hlen, extraArea, parseArea_cryptRecord_eq hcryptLen _ rfl]
  cases hcrypt : reparsedCrypt b.crypt with
  | none => exact Or.inl ⟨rfl, rfl⟩
  | some c =>
    obtain ⟨b', hparse, hcore⟩ := parseArea_tail hfile hcaptured harea c
    exact Or.inr ⟨c, b', rfl, hparse, hcore⟩

/-! ## What reading establishes -/

/-- What holds of every encryption that was read. -/
structure CryptRead (c : FileCrypt) : Prop extends CryptBounded c where
  nonzero : c.hasPswCheck = true → ¬ c.pswCheck.bytes.all (· = 0)

variable {c' : FileCrypt} {recSize value : Nat} {area body : List UInt8}

theorem parseCrypt_read (hc : CryptRead c) (h : parseCrypt payload c = some c') : CryptRead c' := by
  unfold parseCrypt at h
  simp only [bind_eq_bind, bind_eq_some_iff, Prod.exists] at h
  obtain ⟨version, data, _, flags, data', _, h⟩ := h
  by_cases hshort : data'.length < 1 + 16 + 16 + if hasFlag flags 0x01 then 8 + 4 else 0
  · rw [if_pos hshort] at h
    cases h
  · rw [if_neg hshort] at h
    split at h
    · cases h
    · simp only [bind_eq_some_iff, Prod.exists] at h
      obtain ⟨salt, data1, _, initV, data2, _, h⟩ := h
      have hversion : version % 2 ^ 32 < 2 ^ 32 := Nat.mod_lt _ (by decide)
      have hflags : flags % 2 ^ 32 < 2 ^ 32 := Nat.mod_lt _ (by decide)
      split at h
      · unfold parsePswCheck at h
        simp only [bind_eq_bind, bind_eq_some_iff] at h
        obtain ⟨check, data3, _, csum, data4, _, rfl⟩ := h
        refine ⟨⟨hversion, hflags⟩, fun hhas => ?_⟩
        simpa using hhas
      · cases h
        exact ⟨⟨hversion, hflags⟩, hc.nonzero⟩

/-- What one record does: the fixed fields stay, and an unknown record is captured. -/
structure RecordRead (recSize : Nat) (type : UInt8) (payload raw rest : List UInt8)
    (b b' : FileBlock) (rest' : List UInt8) : Prop where
  fixed : fixedFields b' = fixedFields b
  crypt : CryptRead b.crypt → CryptRead b'.crypt
  extras : b'.unknownExtras = b.unknownExtras ∨
    (Unrecognised recSize type payload ∧ rest' = rest ∧
      b'.unknownExtras = b.unknownExtras ++ [⟨type, raw⟩])

theorem parseRecord_read {raw rest' : List UInt8}
    (h : parseRecord recSize type payload raw rest b = some (b', rest')) :
    RecordRead recSize type payload raw rest b b' rest' := by
  unfold parseRecord at h
  split at h
  · cases h
    have hsame : fixedFields (parseHash payload b) = fixedFields b ∧
        (parseHash payload b).crypt = b.crypt ∧
        (parseHash payload b).unknownExtras = b.unknownExtras := by
      unfold parseHash
      split
      · exact ⟨rfl, rfl, rfl⟩
      · split
        · exact ⟨rfl, rfl, rfl⟩
        · split
          · exact ⟨rfl, rfl, rfl⟩
          · exact ⟨rfl, rfl, rfl⟩
    exact ⟨hsame.1, fun hc => hsame.2.1 ▸ hc, Or.inl hsame.2.2⟩
  · next hhash =>
    split at h
    · simp only [bind_eq_bind, bind_eq_some_iff] at h
      obtain ⟨crypt, hcrypt, rfl, rfl⟩ := h
      exact ⟨rfl, fun hc => parseCrypt_read hc hcrypt, Or.inl rfl⟩
    · next hcrypt =>
      split at h
      · cases h
        have hsame : fixedFields (parseVersionOrRedir payload b) = fixedFields b ∧
            (parseVersionOrRedir payload b).crypt = b.crypt ∧
            (parseVersionOrRedir payload b).unknownExtras = b.unknownExtras := by
          unfold parseVersionOrRedir
          split
          · exact ⟨rfl, rfl, rfl⟩
          · split
            · exact ⟨rfl, rfl, rfl⟩
            · exact ⟨rfl, rfl, rfl⟩
        exact ⟨hsame.1, fun hc => hsame.2.1 ▸ hc, Or.inl hsame.2.2⟩
      · next hredir =>
        split at h
        · cases h
          exact ⟨rfl, id, Or.inl rfl⟩
        · next hhtime =>
          split at h
          · split at h
            · cases h
              exact ⟨rfl, id, Or.inl rfl⟩
            · cases h
              exact ⟨rfl, id, Or.inl rfl⟩
          · next hsubdata =>
            split at h
            · cases h
              exact ⟨rfl, id, Or.inl rfl⟩
            · next howner =>
              split at h
              · split at h
                · cases h
                  exact ⟨rfl, id, Or.inl rfl⟩
                · next hxattr =>
                  cases h
                  exact ⟨rfl, id, Or.inr ⟨⟨hhash, hcrypt, hredir, hhtime, hsubdata, howner,
                    fun _ => hxattr⟩, rfl, rfl⟩⟩
              · next hxattr =>
                cases h
                exact ⟨rfl, id, Or.inr ⟨⟨hhash, hcrypt, hredir, hhtime, hsubdata, howner,
                  fun hx => absurd hx hxattr⟩, rfl, rfl⟩⟩

/-- What the loop over the records establishes. -/
structure AreaRead (b b' : FileBlock) : Prop where
  fixed : fixedFields b' = fixedFields b
  crypt : CryptRead b.crypt → CryptRead b'.crypt
  extras : ∃ extras, b'.unknownExtras = b.unknownExtras ++ extras ∧ Captured extras

theorem AreaRead.refl (b : FileBlock) : AreaRead b b :=
  ⟨rfl, id, [], (append_nil _).symm, .nil⟩

/-- The bytes of a record that was captured. -/
theorem raw_eq {size : List UInt8} (harea : area = size ++ data)
    (htake : data.take recSize = type :: payload) :
    area.take (area.length - (data.drop recSize).length) = size ++ type :: payload := by
  have hsplit : area = (size ++ type :: payload) ++ data.drop recSize := by
    rw [harea, append_assoc, ← htake, take_append_drop]
  have hlen := congrArg List.length hsplit
  rw [length_append] at hlen
  rw [hlen, Nat.add_sub_cancel]
  conv_lhs => rw [hsplit]
  exact take_left

theorem parseExtras_nil (fuel : Nat) (b : FileBlock) : parseExtras fuel [] b = some b := by
  cases fuel with
  | zero => rfl
  | succ fuel => rfl

theorem parseExtras_read {fuel : Nat} (h : parseExtras fuel area b = some b') : AreaRead b b' := by
  induction fuel generalizing area b with
  | zero =>
    cases h
    exact .refl _
  | succ fuel ih =>
    unfold parseExtras at h
    cases hread : readVint area with
    | none =>
      rw [hread] at h
      cases h
      exact .refl _
    | some found =>
      obtain ⟨recSize, data⟩ := found
      obtain ⟨size, harea, _, hsize⟩ := readVint_split hread
      rw [hread] at h
      dsimp only at h
      split at h
      · cases h
        exact .refl _
      · next hpos =>
        cases htake : data.take recSize with
        | nil =>
          rw [htake] at h
          cases h
          exact .refl _
        | cons type payload =>
          rw [htake] at h
          simp only [bind_eq_bind, bind_eq_some_iff, Prod.exists] at h
          obtain ⟨b1, rest, hrecord, hrest⟩ := h
          have hone := parseRecord_read hrecord
          have hall := ih hrest
          refine ⟨hall.fixed.trans hone.fixed, fun hc => hall.crypt (hone.crypt hc), ?_⟩
          obtain ⟨extras, hextras, hcaptured⟩ := hall.extras
          rcases hone.extras with hsame | ⟨hunknown, hrestEq, hnew⟩
          · exact ⟨extras, by rw [hextras, hsame], hcaptured⟩
          · refine ⟨⟨type, size ++ type :: payload⟩ :: extras, ?_, ?_⟩
            · rw [hextras, hnew, raw_eq harea htake, append_assoc,
                singleton_append]
            · -- Either the size fits the area, or the record is the last one.
              have htakeLen := congrArg List.length htake
              rw [length_take, length_cons] at htakeLen
              by_cases hfits : recSize ≤ data.length
              · have hexact : recSize = payload.length + 1 := by omega
                subst hexact
                exact .cons hsize hunknown hcaptured
              · have hnil : rest = [] := by
                  rw [hrestEq, drop_of_length_le (by omega)]
                rw [hnil, parseExtras_nil] at hrest
                cases hrest
                have hextrasNil : extras = [] := self_eq_append_right.mp hextras
                rw [hextrasNil]
                exact .clamped hsize (by omega) hunknown

/-- What holds of the fixed fields that were read. -/
structure FixedRead (b : FileBlock) : Prop extends Bounded b where
  crc : b.hasCrc32 = hasFlag b.fileFlags fhflCrc32
  utime : b.utimeUnix ≠ 0 → hasFlag b.fileFlags fhflUtime = true
  method : b.comp.method < 8

theorem FixedRead.of_fixedFields (h : FixedRead b) (heq : fixedFields b' = fixedFields b) :
    FixedRead b' := by
  have hread : FixedRead (fixedFields b) := { h with }
  rw [← heq] at hread
  exact { hread with }

theorem readField_lt {width : Nat}
    (h : readField width data = some (value, rest)) : value < 256 ^ width := by
  unfold readField at h
  split at h
  · next hlen =>
    cases h
    have hlt := readLe_lt (data.take width)
    rwa [length_take_of_le hlen] at hlt
  · cases h

theorem readIf_cases {present : Bool} {read : List UInt8 → Option (Nat × List UInt8)}
    (h : readIf present 0 read data = some (value, rest)) :
    (present = true ∧ read data = some (value, rest)) ∨ (present = false ∧ value = 0) := by
  cases present with
  | false =>
    cases h
    exact Or.inr ⟨rfl, rfl⟩
  | true => exact Or.inl ⟨rfl, h⟩

theorem readPackSize_bounds {flags : Nat} {size : Int}
    (h : readPackSize flags data = some (size, rest)) :
    size = -1 ∨ (0 ≤ size ∧ size < 2 ^ 63) := by
  unfold readPackSize at h
  split at h
  · simp only [bind_eq_bind, bind_eq_some_iff, Prod.exists] at h
    obtain ⟨value, data', _, h⟩ := h
    split at h
    · cases h
    · cases h
      omega
  · cases h
    exact Or.inl rfl

theorem parseFixed_read {n : Nat} (h : parseFixed body = some (b, n, data)) :
    FixedRead b ∧ b.crypt = {} ∧ b.unknownExtras = [] := by
  obtain ⟨⟨type, data1⟩, _, h⟩ := bind_eq_some_iff.mp h
  dsimp only at h
  split at h
  · cases h
  · obtain ⟨⟨flags, _⟩, _, h⟩ := bind_eq_some_iff.mp h
    obtain ⟨⟨extraSize, _⟩, _, h⟩ := bind_eq_some_iff.mp h
    obtain ⟨⟨packSize, _⟩, hpack, h⟩ := bind_eq_some_iff.mp h
    obtain ⟨⟨fileFlags, _⟩, hfileFlags, h⟩ := bind_eq_some_iff.mp h
    obtain ⟨⟨unpSize, _⟩, hunpSize, h⟩ := bind_eq_some_iff.mp h
    obtain ⟨⟨attributes, _⟩, hattributes, h⟩ := bind_eq_some_iff.mp h
    obtain ⟨⟨utimeUnix, _⟩, hutime, h⟩ := bind_eq_some_iff.mp h
    obtain ⟨⟨dataCrc32, _⟩, hcrc, h⟩ := bind_eq_some_iff.mp h
    obtain ⟨⟨compInfo, _⟩, _, h⟩ := bind_eq_some_iff.mp h
    obtain ⟨⟨hostOs, _⟩, _, h⟩ := bind_eq_some_iff.mp h
    obtain ⟨⟨nameLen, _⟩, _, h⟩ := bind_eq_some_iff.mp h
    obtain ⟨⟨fileName, _⟩, _, h⟩ := bind_eq_some_iff.mp h
    cases h
    have hutimeLt : utimeUnix < 2 ^ 32 := by
      rcases readIf_cases hutime with ⟨_, hread⟩ | ⟨_, hzero⟩
      · exact readField_lt hread
      · rw [hzero]
        decide
    have hcrcLt : dataCrc32 < 2 ^ 32 := by
      rcases readIf_cases hcrc with ⟨_, hread⟩ | ⟨_, hzero⟩
      · exact readField_lt hread
      · rw [hzero]
        decide
    refine ⟨⟨⟨readVint_lt hfileFlags, readVint_lt hunpSize, readVint_lt hattributes,
      readPackSize_bounds hpack, hutimeLt, hcrcLt, Nat.mod_lt _ (by decide)⟩,
      rfl, ?_, ?_⟩, rfl, rfl⟩
    · intro hne
      rcases readIf_cases hutime with ⟨hflag, _⟩ | ⟨_, hzero⟩
      · exact hflag
      · exact absurd hzero hne
    · show (compInfo >>> 7) &&& 7 < 8
      exact lt_of_le_of_lt Nat.and_le_right (by decide)

/-- **What reading a header establishes.** -/
theorem parseFileHeader_read (h : parseFileHeader body = some b) :
    FixedRead b ∧ CryptRead b.crypt ∧ Captured b.unknownExtras := by
  unfold parseFileHeader at h
  simp only [bind_eq_bind, bind_eq_some_iff, Prod.exists] at h
  obtain ⟨b0, n, data, hfixed, h⟩ := h
  obtain ⟨hread, hcrypt, hextras⟩ := parseFixed_read hfixed
  have hempty : CryptRead b0.crypt := by
    rw [hcrypt]
    exact ⟨⟨by decide, by decide⟩, by decide⟩
  have harea : AreaRead b0 b := by
    split at h
    · split at h
      · cases h
      · exact parseExtras_read h
    · cases h
      exact .refl _
  obtain ⟨extras, heq, hcaptured⟩ := harea.extras
  rw [hextras, nil_append] at heq
  exact ⟨hread.of_fixedFields harea.fixed, harea.crypt hempty, heq ▸ hcaptured⟩

/-! ## The encryption record -/

/-- The encryption record of a header. -/
structure EncryptionRecord where
  version : Nat
  flags : Nat
  lg2Count : UInt8
  salt : ByteArrayOf 16
  initV : ByteArrayOf 16
  check : Option (ByteArrayOf 8 × ByteArrayOf 4)
deriving DecidableEq

def encryptionRecord (c : FileCrypt) : Option EncryptionRecord :=
  if c.isEncrypted then
    some
      { version := c.version
        flags := c.flags
        lg2Count := c.lg2Count
        salt := c.salt
        initV := c.initV
        check := if c.hasPswCheck then some (c.pswCheck, c.pswCheckCsum) else none }
  else none

theorem encryptionRecord_serialisedCrypt (c : FileCrypt) :
    encryptionRecord (serialisedCrypt c) = encryptionRecord c := by
  unfold serialisedCrypt
  split
  · split
    · rfl
    · next hcheck => simp [encryptionRecord, hcheck]
  · next hplain => simp [encryptionRecord, hplain]

/-- A record whose flag announces a check that is not written is refused. -/
theorem parseCrypt_announced (hc : CryptBounded c) (hflag : hasFlag c.flags 0x01 = true)
    (hcheck : c.hasPswCheck = false) :
    parseCrypt (cryptContent c) {} = none := by
  have hsalt := c.salt.size
  have hinit := c.initV.size
  unfold parseCrypt cryptContent
  rw [readVint_pushVint (lt_trans hc.version (by decide))]
  dsimp only [bind_eq_bind, bind_some]
  rw [readVint_pushVint (lt_trans hc.flags (by decide))]
  dsimp only [bind_some]
  rw [hflag, hcheck, if_pos]
  simp
  omega

/-- A check that is written without its flag is not read. -/
theorem parseCrypt_unannounced (hc : CryptBounded c)
    (hflag : hasFlag c.flags 0x01 = false) (h : parseCrypt (cryptContent c) {} = some c') :
    c'.hasPswCheck = false := by
  unfold parseCrypt cryptContent at h
  rw [readVint_pushVint (lt_trans hc.version (by decide))] at h
  dsimp only [bind_eq_bind, bind_some] at h
  rw [readVint_pushVint (lt_trans hc.flags (by decide))] at h
  dsimp only [bind_some] at h
  rw [hflag] at h
  generalize c.salt.bytes ++ (c.initV.bytes ++
    if c.hasPswCheck then c.pswCheck.bytes ++ c.pswCheckCsum.bytes else []) = data at h
  by_cases hshort : (c.lg2Count :: data).length < 1 + 16 + 16 + if false = true then 8 + 4 else 0
  · rw [if_pos hshort] at h
    cases h
  · rw [if_neg hshort] at h
    obtain ⟨⟨salt, _⟩, _, h⟩ := bind_eq_some_iff.mp h
    obtain ⟨⟨initV, _⟩, _, h⟩ := bind_eq_some_iff.mp h
    cases h
    rfl

/-- The fields that rewriting a header must keep. -/
structure SameHeader (b b' : FileBlock) : Prop where
  fileName : b'.fileName = b.fileName
  unpSize : b'.unpSize = b.unpSize
  packSize : b'.packSize = b.packSize
  attributes : b'.attributes = b.attributes
  crc : b'.hasCrc32 = b.hasCrc32 ∧ (b.hasCrc32 = true → b'.dataCrc32 = b.dataCrc32)
  hash : b'.hasBlake2sp = b.hasBlake2sp ∧ (b.hasBlake2sp = true → b'.blake2sp = b.blake2sp)
  method : b'.comp.method = b.comp.method
  solid : b'.comp.isSolid = b.comp.isSolid
  encryption : encryptionRecord b'.crypt = encryptionRecord b.crypt

/-- The encryption survives exactly when the flag agrees with the check. -/
theorem reparsedCrypt_same (hc : CryptRead c) :
    (∃ c', reparsedCrypt c = some c' ∧ encryptionRecord c' = encryptionRecord c) ↔
      (c.isEncrypted = true → c.hasPswCheck = hasFlag c.flags 0x01) := by
  constructor
  · rintro ⟨c', hcrypt, hsame⟩ hencrypted
    rw [reparsedCrypt, if_pos hencrypted] at hcrypt
    cases hflag : hasFlag c.flags 0x01 with
    | true =>
      cases hcheck : c.hasPswCheck with
      | true => rfl
      | false =>
        rw [parseCrypt_announced hc.toCryptBounded hflag hcheck] at hcrypt
        cases hcrypt
    | false =>
      have hdropped := parseCrypt_unannounced hc.toCryptBounded hflag hcrypt
      unfold encryptionRecord at hsame
      split at hsame
      · have hcheck := congrArg EncryptionRecord.check (Option.some.inj hsame)
        rw [hdropped, if_neg Bool.false_ne_true] at hcheck
        cases hhas : c.hasPswCheck with
        | false => rfl
        | true =>
          rw [hhas] at hcheck
          cases hcheck
      · cases hsame
  · intro hagree
    cases hencrypted : c.isEncrypted with
    | false =>
      refine ⟨{}, if_neg (by simp [hencrypted]), ?_⟩
      simp [encryptionRecord, hencrypted]
    | true =>
      refine ⟨serialisedCrypt c, ?_, encryptionRecord_serialisedCrypt c⟩
      rw [reparsedCrypt, if_pos hencrypted]
      exact parseCrypt_cryptContent hc.toCryptBounded ⟨hagree hencrypted, hc.nonzero⟩ hencrypted

/-- What the reader makes of the rewritten header keeps everything but, possibly, the
encryption. -/
theorem sameHeader_reparsed (hread : FixedRead b) (hcore : core b' = core (reparsed b c)) :
    SameHeader b b' ↔ encryptionRecord c = encryptionRecord b.crypt := by
  have hflags : effFileFlags b = b.fileFlags := effFileFlags_eq hread.crc hread.utime
  obtain ⟨_, hsolid, hmethod⟩ := decodeCompInfo_encodeCompInfo b.comp
  have hcrypt : b'.crypt = c := (congrArg FileBlock.crypt hcore :)
  have hcrc : b'.hasCrc32 = hasFlag (effFileFlags b) fhflCrc32 :=
    (congrArg FileBlock.hasCrc32 hcore :)
  have hdata : b'.dataCrc32 = if hasFlag (effFileFlags b) fhflCrc32 then b.dataCrc32 else 0 :=
    (congrArg FileBlock.dataCrc32 hcore :)
  have hhash : b'.blake2sp = if b.hasBlake2sp then b.blake2sp else .zero 32 :=
    (congrArg FileBlock.blake2sp hcore :)
  have hcomp : b'.comp = decodeCompInfo (encodeCompInfo b.comp) := (congrArg FileBlock.comp hcore :)
  rw [hflags, ← hread.crc] at hcrc hdata
  constructor
  · intro hsame
    rw [← hcrypt]
    exact hsame.encryption
  · intro hsame
    constructor
    · exact (congrArg FileBlock.fileName hcore :)
    · exact (congrArg FileBlock.unpSize hcore :)
    · exact (congrArg FileBlock.packSize hcore :)
    · exact (congrArg FileBlock.attributes hcore :)
    · refine ⟨hcrc, fun hhas => ?_⟩
      rw [hdata, if_pos hhas]
    · refine ⟨(congrArg FileBlock.hasBlake2sp hcore :), fun hhas => ?_⟩
      rw [hhash, if_pos hhas]
    · rw [hcomp, hmethod, Nat.mod_eq_of_lt hread.method]
    · rw [hcomp, hsolid]
    · rw [hcrypt]
      exact hsame

end HeaderReader

open HeaderReader

/-- **Rewriting a header that was read** keeps it readable, with its name, sizes,
checksums, method and encryption record, exactly when the encryption flag agrees with
the password check that the reader kept. -/
theorem header_rewrite_iff (body : List UInt8) (b : FileBlock)
    (hparse : parseFileHeader body = some b)
    (hfile : b.isService = false) (extraHeadFlags : Nat) (fixedPackSizeVint : Bool)
    (hlen : (fileBody b extraHeadFlags fixedPackSizeVint).length < 2 ^ 64) :
    (∃ b', parseFileHeader (fileBody b extraHeadFlags fixedPackSizeVint) = some b' ∧
        SameHeader b b') ↔
      (b.crypt.isEncrypted = true → b.crypt.hasPswCheck = hasFlag b.crypt.flags 0x01) := by
  obtain ⟨hread, hcrypt, hcaptured⟩ := parseFileHeader_read hparse
  rw [← reparsedCrypt_same hcrypt]
  rcases parseFileHeader_rewritten hread.toBounded hfile hcaptured hlen with
    ⟨hnone, hrefused⟩ | ⟨c, b', hsome, haccepted, hcore⟩
  · rw [hnone, hrefused]
    simp
  · rw [hsome, haccepted]
    constructor
    · rintro ⟨b'', heq, hsame⟩
      cases heq
      exact ⟨c, rfl, (sameHeader_reparsed hread hcore).mp hsame⟩
    · rintro ⟨c', heq, hsame⟩
      cases heq
      exact ⟨b', rfl, (sameHeader_reparsed hread hcore).mpr hsame⟩

/-- The header of an encrypted file with the given password check. -/
def checkedHeader (check : ByteArrayOf 8) : FileBlock where
  packSize := 0
  fileName := [97]
  crypt :=
    { isEncrypted := true, flags := 1, lg2Count := 15, hasPswCheck := true, pswCheck := check }

/-- A header with a check is kept. -/
theorem header_rewrite_iff_checked :
    ∃ b', parseFileHeader (fileBody (checkedHeader ⟨List.replicate 8 1, rfl⟩) 0 false) = some b' ∧
      SameHeader (checkedHeader ⟨List.replicate 8 1, rfl⟩) b' := by
  have hparse : parseFileHeader (fileBody (checkedHeader ⟨List.replicate 8 1, rfl⟩) 0 false) =
      some (checkedHeader ⟨List.replicate 8 1, rfl⟩) := by decide
  exact (header_rewrite_iff _ _ hparse rfl 0 false (by decide)).mpr fun _ => by decide

/-- A header whose encryption record announces a password check that is all zero. -/
def zeroCheckHeader : List UInt8 := fileBody (checkedHeader (.zero 8)) 0 false

/-- The reader accepts it, and refuses it after it was rewritten. -/
theorem zero_check_header_refused :
    ∃ b, parseFileHeader zeroCheckHeader = some b ∧ b.isService = false ∧
      b.crypt.isEncrypted = true ∧ b.crypt.flags = 1 ∧ b.crypt.hasPswCheck = false ∧
      parseFileHeader (fileBody b 0 false) = none := by
  decide

end OpenRar.Format
