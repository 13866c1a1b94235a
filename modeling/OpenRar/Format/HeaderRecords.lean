import OpenRar.Format.HeaderFields

/-!
# The records of the extra area

The loop of the reader takes the area apart record by record.  Every record that the
writer emits is read back, whatever stands in front of it and behind it.  A record of
an unknown type is captured with its bytes, and these bytes are captured again.
-/

namespace OpenRar.Format

open OpenRar.Core HeaderWriter List Option

namespace HeaderReader

/-! ## The loop -/

/-- The loop with as many turns as the area has bytes, which is always enough. -/
def parseArea (area : List UInt8) (b : FileBlock) : Option FileBlock :=
  parseExtras area.length area b

variable {recSize : Nat} {type : UInt8} {payload : List UInt8} {b : FileBlock} {r : Redirection}
    {isUnix hasNs : Bool} {s : Stamp} {t : FileTimes} {xattrs : List FileXattr}

variable {rest name : List UInt8} {c : FileCrypt} {b0 : FileBlock} {o : Owner}

theorem parseRecord_rest {raw rest' : List UInt8} {b' : FileBlock}
    (h : parseRecord recSize type payload raw rest b = some (b', rest')) :
    rest' = rest ∨ rest' = [] := by
  have hsame : ∀ {x : FileBlock}, some (x, rest) = some (b', rest') → rest' = rest := by
    intro x hx
    cases hx
    rfl
  unfold parseRecord at h
  split at h
  · exact Or.inl (hsame h)
  · split at h
    · cases hcrypt : parseCrypt payload b.crypt with
      | none =>
        rw [hcrypt] at h
        cases h
      | some crypt =>
        rw [hcrypt] at h
        exact Or.inl (hsame h)
    · split at h
      · exact Or.inl (hsame h)
      · split at h
        · exact Or.inl (hsame h)
        · split at h
          · split at h
            · cases h
              exact Or.inr rfl
            · exact Or.inl (hsame h)
          · split at h
            · exact Or.inl (hsame h)
            · split at h
              · split at h
                · exact Or.inl (hsame h)
                · exact Or.inl (hsame h)
              · exact Or.inl (hsame h)

theorem parseExtras_fuel {fuel fuel' : Nat} {area : List UInt8} (h : area.length ≤ fuel)
    (h' : area.length ≤ fuel') (b : FileBlock) :
    parseExtras fuel area b = parseExtras fuel' area b := by
  -- Induction on the fuel: a turn uses at least the byte of the type.
  induction fuel generalizing fuel' area b with
  | zero =>
    obtain rfl : area = [] := length_eq_zero_iff.mp (Nat.le_zero.mp h)
    cases fuel' with
    | zero => rfl
    | succ fuel' => rfl
  | succ fuel ih =>
    cases fuel' with
    | zero =>
      obtain rfl : area = [] := length_eq_zero_iff.mp (Nat.le_zero.mp h')
      rfl
    | succ fuel' =>
      unfold parseExtras
      cases hread : readVint area with
      | none => rfl
      | some found =>
        obtain ⟨recSize, data⟩ := found
        have hless := readVint_length hread
        dsimp only
        split
        · rfl
        · cases htake : data.take recSize with
          | nil => rfl
          | cons type payload =>
            dsimp only
            cases hrecord : parseRecord recSize type payload
                (area.take (area.length - (data.drop recSize).length)) (data.drop recSize) b with
            | none => rfl
            | some next =>
              obtain ⟨b', rest⟩ := next
              have hrest : rest.length ≤ data.length := by
                rcases parseRecord_rest hrecord with rfl | rfl
                · rw [length_drop]
                  exact Nat.sub_le _ _
                · exact Nat.zero_le _
              have hfuel : rest.length ≤ fuel := by omega
              have hfuel' : rest.length ≤ fuel' := by omega
              exact ih hfuel hfuel' b'

/-- The bytes of a size in front of a record. -/
def SizeBytes (size : List UInt8) (recSize : Nat) : Prop :=
  ∀ tail, readVint (size ++ tail) = some (recSize, tail)

/-- One turn of the loop over a record that is delimited by its size, or by the end of
the area. -/
theorem parseArea_record {size : List UInt8} (hsize : SizeBytes size recSize)
    (hfits : payload.length + 1 ≤ recSize)
    (hexact : recSize = payload.length + 1 ∨ rest = []) (b : FileBlock) :
    parseArea (size ++ type :: (payload ++ rest)) b =
      (parseRecord recSize type payload (size ++ type :: payload) rest b).bind fun next =>
        parseArea next.2 next.1 := by
  have htake : (type :: (payload ++ rest)).take recSize = type :: payload := by
    rcases hexact with rfl | rfl
    · rw [take_succ_cons, take_left]
    · rw [append_nil, take_of_length_le (by rw [length_cons]; omega)]
  have hdrop : (type :: (payload ++ rest)).drop recSize = rest := by
    rcases hexact with rfl | rfl
    · rw [drop_succ_cons, drop_left]
    · rw [append_nil, drop_of_length_le (by rw [length_cons]; omega)]
  have hraw : (size ++ type :: (payload ++ rest)).take
      ((size ++ type :: (payload ++ rest)).length - rest.length) = size ++ type :: payload := by
    rw [show size ++ type :: (payload ++ rest) = (size ++ type :: payload) ++ rest by simp,
      length_append, Nat.add_sub_cancel, take_left]
  have hlen : (size ++ type :: (payload ++ rest)).length =
      size.length + (payload ++ rest).length + 1 := by
    rw [length_append, length_cons]
    omega
  rw [parseArea, hlen, parseExtras, hsize]
  dsimp only
  rw [if_neg (by omega), htake]
  dsimp only
  rw [hdrop, hraw]
  cases hrecord : parseRecord recSize type payload (size ++ type :: payload) rest b with
  | none => rfl
  | some next =>
    obtain ⟨b', rest'⟩ := next
    have hrest : rest'.length ≤ rest.length := by
      rcases parseRecord_rest hrecord with rfl | rfl
      · exact Nat.le_refl _
      · exact Nat.zero_le _
    have hle : rest'.length ≤ size.length + (payload ++ rest).length := by
      rw [length_append]
      omega
    exact parseExtras_fuel hle (Nat.le_refl _) b'

theorem parseArea_nil (b : FileBlock) : parseArea [] b = some b := rfl

/-- One turn of the loop over a record that the writer emits. -/
theorem parseArea_extraRecord {content : List UInt8} (hlen : content.length + 1 < 2 ^ 64)
    (rest : List UInt8) (b : FileBlock) :
    parseArea (extraRecord type content ++ rest) b =
      (parseRecord (content.length + 1) type content (extraRecord type content) rest b).bind
        fun next => parseArea next.2 next.1 := by
  have hsize : SizeBytes (pushVint (content.length + 1)) (content.length + 1) :=
    fun tail => readVint_pushVint hlen tail
  rw [show extraRecord type content ++ rest =
    pushVint (content.length + 1) ++ type :: (content ++ rest) by simp [extraRecord]]
  exact parseArea_record hsize (Nat.le_refl _) (Or.inl rfl) b

/-! ## Unknown records -/

/-- A record that the reader keeps with its bytes. -/
structure Unrecognised (recSize : Nat) (type : UInt8) (payload : List UInt8) : Prop where
  hash : ¬ (type = fhextraHash ∧ recSize ≥ 34)
  crypt : type ≠ fhextraCrypt
  redir : ¬ (type = fhextraRedir ∨ type = 0x04)
  htime : type ≠ fhextraHtime
  subdata : type ≠ fhextraSubdata
  owner : type ≠ fhextraOwner
  xattr : type = fhextraXattr → parseXattrs payload = none

theorem Unrecognised.parseRecord (h : Unrecognised recSize type payload) (raw rest : List UInt8)
    (b : FileBlock) :
    parseRecord recSize type payload raw rest b =
      some ({ b with unknownExtras := b.unknownExtras ++ [⟨type, raw⟩] }, rest) := by
  unfold HeaderReader.parseRecord
  rw [if_neg h.hash, if_neg h.crypt, if_neg h.redir, if_neg h.htime, if_neg h.subdata,
    if_neg h.owner]
  split
  · next hxattr => rw [h.xattr hxattr]
  · rfl

/-- Records as the reader captures them: each one delimited by its size, the last one
possibly by the end of the area. -/
inductive Captured : List UnknownExtra → Prop
  | nil : Captured []
  | cons {size payload : List UInt8} {type : UInt8} {extras : List UnknownExtra}
      (hsize : SizeBytes size (payload.length + 1))
      (hunknown : Unrecognised (payload.length + 1) type payload) (hrest : Captured extras) :
      Captured (⟨type, size ++ type :: payload⟩ :: extras)
  | clamped {size payload : List UInt8} {type : UInt8} {recSize : Nat}
      (hsize : SizeBytes size recSize) (hfits : payload.length + 1 ≤ recSize)
      (hunknown : Unrecognised recSize type payload) : Captured [⟨type, size ++ type :: payload⟩]

/-- **Captured records are captured again**, in order and byte for byte. -/
theorem Captured.parseArea {extras : List UnknownExtra} (h : Captured extras) (b : FileBlock) :
    parseArea (extras.flatMap UnknownExtra.raw) b =
      some { b with unknownExtras := b.unknownExtras ++ extras } := by
  induction h generalizing b with
  | nil => rw [flatMap_nil, parseArea_nil, append_nil]
  | @cons size payload type extras hsize hunknown _ ih =>
    rw [flatMap_cons, append_assoc, cons_append,
      parseArea_record hsize (Nat.le_refl _) (Or.inl rfl), hunknown.parseRecord, bind_some,
      ih, append_assoc, singleton_append]
  | @clamped size payload type recSize hsize hfits hunknown =>
    have harea : [(⟨type, size ++ type :: payload⟩ : UnknownExtra)].flatMap UnknownExtra.raw =
        size ++ type :: (payload ++ []) := by simp
    rw [harea, parseArea_record hsize hfits (Or.inr rfl), hunknown.parseRecord, bind_some,
      parseArea_nil]

/-! ## Encryption -/

/-- What a header says about the encryption. -/
def serialisedCrypt (c : FileCrypt) : FileCrypt :=
  if c.isEncrypted then
    if c.hasPswCheck then c else { c with pswCheck := .zero 8, pswCheckCsum := .zero 4 }
  else {}

/-- The fields of an encryption record fit their types. -/
structure CryptBounded (c : FileCrypt) : Prop where
  version : c.version < 2 ^ 32
  flags : c.flags < 2 ^ 32

/-- The flag announces the check, and a check that is present is not zero. -/
structure CheckAnnounced (c : FileCrypt) : Prop where
  flag : c.hasPswCheck = hasFlag c.flags 0x01
  nonzero : c.hasPswCheck = true → ¬ c.pswCheck.bytes.all (· = 0)

theorem parseCrypt_cryptContent (hc : CryptBounded c) (hcheck : CheckAnnounced c)
    (hencrypted : c.isEncrypted = true) :
    parseCrypt (cryptContent c) {} = some (serialisedCrypt c) := by
  have hversion := lt_trans hc.version (show 2 ^ 32 < 2 ^ 64 by decide)
  have hflags := lt_trans hc.flags (show 2 ^ 32 < 2 ^ 64 by decide)
  have hsalt := c.salt.size
  have hinit := c.initV.size
  have hpsw := c.pswCheck.size
  have hcsum := c.pswCheckCsum.size
  unfold parseCrypt cryptContent
  rw [readVint_pushVint hversion]
  dsimp only [bind_eq_bind, bind_some]
  rw [readVint_pushVint hflags]
  dsimp only [bind_some]
  rw [← hcheck.flag]
  cases hhas : c.hasPswCheck with
  | false =>
    rw [if_neg (by simp; omega), if_neg (by decide), ByteArrayOf.read_append]
    dsimp only [bind_some]
    rw [ByteArrayOf.read_append]
    dsimp only [bind_some]
    rw [if_neg (by decide), Nat.mod_eq_of_lt hc.version, Nat.mod_eq_of_lt hc.flags]
    obtain ⟨isEncrypted, version, flags, lg2Count, salt, initV, hasPswCheck, pswCheck, csum⟩ := c
    subst hencrypted hhas
    rfl
  | true =>
    rw [if_neg (by simp; omega), if_pos (by decide), ByteArrayOf.read_append]
    dsimp only [bind_some]
    rw [ByteArrayOf.read_append]
    dsimp only [bind_some]
    rw [if_pos (by decide), Nat.mod_eq_of_lt hc.version, Nat.mod_eq_of_lt hc.flags]
    unfold parsePswCheck
    have hend := ByteArrayOf.read_append c.pswCheckCsum []
    rw [append_nil] at hend
    rw [ByteArrayOf.read_append]
    dsimp only [bind_eq_bind, bind_some]
    rw [hend]
    have hnonzero := hcheck.nonzero hhas
    obtain ⟨isEncrypted, version, flags, lg2Count, salt, initV, hasPswCheck, pswCheck, csum⟩ := c
    subst hencrypted hhas
    simp [serialisedCrypt, hnonzero]

theorem parseArea_cryptRecord (hb : b.crypt = {}) (hc : CryptBounded c) (hcheck : CheckAnnounced c)
    (hlen : (cryptRecord c).length < 2 ^ 64) (rest : List UInt8) :
    parseArea (cryptRecord c ++ rest) b = parseArea rest { b with crypt := serialisedCrypt c } := by
  unfold cryptRecord at hlen ⊢
  cases hencrypted : c.isEncrypted with
  | false =>
    have hnone : serialisedCrypt c = b.crypt := by
      rw [hb, serialisedCrypt, if_neg (by simp [hencrypted])]
    rw [if_neg (by decide), nil_append, hnone]
  | true =>
    rw [if_pos hencrypted, extraRecord, length_append, length_cons] at hlen
    rw [if_pos rfl, parseArea_extraRecord (by omega)]
    show ((parseCrypt (cryptContent c) b.crypt).bind _).bind _ = _
    rw [hb, parseCrypt_cryptContent hc hcheck hencrypted]
    rfl

/-! ## Redirections, versions and digests -/

def serialisedRedir (r : Redirection) : Redirection := if r.type = 0 then {} else r

structure RedirWellFormed (r : Redirection) : Prop where
  type : r.type < 2 ^ 8
  target : r.target.length < 2048

theorem parseRedir_redirContent (hr : RedirWellFormed r) :
    parseRedir (redirContent r) = some r := by
  have htype := lt_trans hr.type (show 2 ^ 8 < 2 ^ 64 by decide)
  have hdir : (if r.dirTarget then 1 else 0) < 2 ^ 64 := by split <;> decide
  have htarget := hr.target
  unfold parseRedir redirContent
  rw [readVint_pushVint htype]
  dsimp only [bind_eq_bind, bind_some]
  rw [readVint_pushVint hdir]
  dsimp only [bind_some]
  rw [readVint_pushVint (lt_trans htarget (by decide))]
  dsimp only [bind_some]
  have hread := readBytes_append r.target []
  rw [append_nil] at hread
  rw [if_neg (by omega), hread]
  dsimp only [bind_some]
  rw [Nat.mod_eq_of_lt hr.type]
  have hflag : hasFlag (if r.dirTarget then 1 else 0) 0x01 = r.dirTarget := by
    cases r.dirTarget with
    | false => decide
    | true => decide
  rw [hflag]

theorem parseVersion_redirContent (hr : RedirWellFormed r) (hne : r.type ≠ 0) :
    parseVersion (redirContent r) = none := by
  unfold parseVersion redirContent
  rw [readVint_pushVint (lt_trans hr.type (by decide))]
  exact if_pos hne

theorem parseArea_redirRecord (hb : b.redir = {}) (hr : RedirWellFormed r)
    (hlen : (redirRecord r).length < 2 ^ 64) (rest : List UInt8) :
    parseArea (redirRecord r ++ rest) b = parseArea rest { b with redir := serialisedRedir r } := by
  unfold redirRecord at hlen ⊢
  by_cases htype : r.type = 0
  · have hnone : serialisedRedir r = b.redir := by
      rw [hb, serialisedRedir, if_pos htype]
    rw [if_neg (by simpa using htype), nil_append, hnone]
  · rw [if_pos htype, extraRecord, length_append, length_cons] at hlen
    rw [if_pos htype, parseArea_extraRecord (by omega)]
    show parseArea rest (parseVersionOrRedir (redirContent r) b) = _
    rw [parseVersionOrRedir, parseVersion_redirContent hr htype, parseRedir_redirContent hr,
      serialisedRedir, if_neg htype]

theorem parseArea_hashRecord (hb : b.hasBlake2sp = false)
    (hz : b.blake2sp = .zero 32) (rest : List UInt8) :
    parseArea (hashRecord b0 ++ rest) b =
      parseArea rest
        { b with
          hasBlake2sp := b0.hasBlake2sp
          blake2sp := if b0.hasBlake2sp then b0.blake2sp else .zero 32 } := by
  unfold hashRecord
  cases hhas : b0.hasBlake2sp with
  | false =>
    rw [if_neg (by decide), nil_append, if_neg (by decide), ← hz, ← hb]
  | true =>
    have hdigest := b0.blake2sp.size
    have hrecord : pushVint (2 + 32) ++ fhextraHash :: 0 :: b0.blake2sp.bytes =
        extraRecord fhextraHash (0 :: b0.blake2sp.bytes) := by
      rw [extraRecord, length_cons, hdigest]
    have hread := ByteArrayOf.read_append b0.blake2sp []
    rw [append_nil] at hread
    rw [if_pos rfl, if_pos rfl, hrecord,
      parseArea_extraRecord (by rw [length_cons, hdigest]; decide), parseRecord,
      if_pos ⟨rfl, by rw [length_cons, hdigest]⟩, bind_some]
    dsimp only [parseHash]
    rw [hread]
    rfl

theorem parseVersion_content {version : Nat} (h : version < 2 ^ 64) :
    parseVersion (pushVint 0 ++ pushVint version) = some version := by
  unfold parseVersion
  rw [readVint_pushVint (by decide)]
  dsimp only [bind_eq_bind, bind_some]
  have hread := readVint_pushVint h []
  rw [append_nil] at hread
  rw [if_neg (by decide), hread]
  rfl

theorem parseArea_versionRecord (hb : b.hasFileVersion = false)
    (hz : b.fileVersion = 0) (hversion : b0.fileVersion < 2 ^ 64)
    (hlen : (versionRecord b0).length < 2 ^ 64) (rest : List UInt8) :
    parseArea (versionRecord b0 ++ rest) b =
      parseArea rest
        { b with
          hasFileVersion := b0.hasFileVersion
          fileVersion := if b0.hasFileVersion then b0.fileVersion else 0 } := by
  unfold versionRecord at hlen ⊢
  cases hhas : b0.hasFileVersion with
  | false =>
    rw [if_neg (by decide), nil_append, if_neg (by decide), ← hz, ← hb]
  | true =>
    rw [if_pos hhas, extraRecord, length_append, length_cons] at hlen
    rw [if_pos rfl, if_pos rfl, parseArea_extraRecord (by omega)]
    show parseArea rest (parseVersionOrRedir _ b) = _
    rw [parseVersionOrRedir, parseVersion_content hversion]

/-! ## Times -/

/-- A stamp as a record in one precision leaves it. -/
structure StampNormal (isUnix hasNs : Bool) (s : Stamp) : Prop where
  win_lt : s.win < 2 ^ 64
  unix_lt : s.unix < 2 ^ 32
  ns_lt : s.ns < 1000000000
  win : isUnix = true → s.win = 0
  unix : isUnix = false → s.unix = 0
  hasNs : s.hasNs = (hasNs && stampPresent isUnix s)
  ns : s.hasNs = false → s.ns = 0

/-- Times in the form in which the writer emits them: one precision, with nanoseconds
for all stamps or for none. -/
structure TimesNormal (t : FileTimes) : Prop where
  stamps : ∃ hasNs, (hasNs = true → t.isUnix = true) ∧ StampNormal t.isUnix hasNs t.mtime ∧
    StampNormal t.isUnix hasNs t.ctime ∧ StampNormal t.isUnix hasNs t.atime
  unix : t.isUnix = true → anyStamp true t = true

theorem writeLe_front {width value : Nat} (h : value < 256 ^ width) (rest : List UInt8) :
    width ≤ (writeLe width value ++ rest).length ∧
      readLe ((writeLe width value ++ rest).take width) = value ∧
      (writeLe width value ++ rest).drop width = rest := by
  have hlen := writeLe_length width value
  refine ⟨by rw [length_append, hlen]; omega, ?_, drop_left' hlen⟩
  rw [take_left' hlen, readLe_writeLe, Nat.mod_eq_of_lt h]

theorem readStamp_stampBytes (hs : StampNormal isUnix hasNs s) (rest : List UInt8) :
    readStamp (stampPresent isUnix s) isUnix {} (stampBytes isUnix s ++ rest) =
      ({ win := s.win, unix := s.unix }, rest) := by
  unfold readStamp stampBytes
  cases hpresent : stampPresent isUnix s with
  | false =>
    have hzero : s.win = 0 ∧ s.unix = 0 := by
      unfold stampPresent at hpresent
      cases isUnix with
      | false => exact ⟨by simpa using hpresent, hs.unix rfl⟩
      | true =>
        have hunix : s.unix = 0 ∧ s.hasNs = false := by simpa using hpresent
        exact ⟨hs.win rfl, hunix.1⟩
    rw [hzero.1, hzero.2]
    rfl
  | true =>
    rw [if_pos rfl, if_pos rfl]
    cases isUnix with
    | false =>
      obtain ⟨hlen, hvalue, hrest⟩ :=
        writeLe_front (lt_of_lt_of_eq hs.win_lt (show 2 ^ 64 = 256 ^ 8 by norm_num)) rest
      rw [if_neg Bool.false_ne_true, if_neg Bool.false_ne_true, if_pos hlen, hvalue, hrest,
        hs.unix rfl]
    | true =>
      obtain ⟨hlen, hvalue, hrest⟩ :=
        writeLe_front (lt_of_lt_of_eq hs.unix_lt (show 2 ^ 32 = 256 ^ 4 by norm_num)) rest
      rw [if_pos rfl, if_pos rfl, if_pos hlen, hvalue, hrest, hs.win rfl]

theorem readNs_nsBytes (isUnix : Bool) (s0 : Stamp) (hns : s.ns < 1000000000) (rest : List UInt8) :
    readNs (stampPresent isUnix s) s0 (nsBytes isUnix s ++ rest) =
      (if stampPresent isUnix s then { s0 with ns := s.ns, hasNs := true } else s0, rest) := by
  unfold readNs nsBytes
  cases stampPresent isUnix s with
  | false => rfl
  | true =>
    obtain ⟨hlen, hvalue, hrest⟩ :=
      writeLe_front (lt_trans hns (show 1000000000 < 256 ^ 4 by norm_num)) rest
    have hmask : s.ns &&& 0x3FFFFFFF = s.ns := by
      rw [show 0x3FFFFFFF = 2 ^ 30 - 1 from rfl, Nat.and_two_pow_sub_one_eq_mod]
      exact Nat.mod_eq_of_lt (lt_trans hns (by decide))
    rw [if_pos rfl, if_pos ⟨rfl, hlen⟩, hvalue, hrest, hmask]
    dsimp only
    rw [if_pos hns, if_pos rfl]

theorem StampNormal.eq (hs : StampNormal isUnix hasNs s) :
    (if hasNs = true ∧ stampPresent isUnix s = true then
      { win := s.win, unix := s.unix, ns := s.ns, hasNs := true }
    else ({ win := s.win, unix := s.unix } : Stamp)) = s := by
  have hflag := hs.hasNs
  have hzero := hs.ns
  obtain ⟨win, unix, ns, hasNs'⟩ := s
  dsimp only at *
  split
  · next hboth =>
    rw [hboth.1, hboth.2] at hflag
    rw [hflag]
    rfl
  · next hnot =>
    have hfalse : hasNs' = false := by
      rw [hflag, Bool.and_eq_false_iff]
      by_contra hcontra
      simp only [not_or, Bool.not_eq_false] at hcontra
      exact hnot hcontra
    rw [hfalse, hzero hfalse]

theorem StampNormal.absent (hs : StampNormal isUnix hasNs s)
    (habsent : stampPresent isUnix s = false) : s = {} := by
  have hread := readStamp_stampBytes hs []
  rw [stampBytes, habsent] at hread
  have hfields : (({} : Stamp), ([] : List UInt8)) = ({ win := s.win, unix := s.unix }, []) := hread
  rw [← hs.eq, if_neg (by rw [habsent]; simp), ← (Prod.mk.inj hfields).1]

theorem timeFlags (u m c a n : Bool) :
    let flags := (if u then 0x01 else 0) ||| (if m then 0x02 else 0) ||| (if c then 0x04 else 0)
      ||| (if a then 0x08 else 0) ||| (if n then 0x10 else 0)
    flags < 2 ^ 64 ∧ hasFlag flags 0x01 = u ∧ hasFlag flags 0x02 = m ∧ hasFlag flags 0x04 = c ∧
      hasFlag flags 0x08 = a ∧ hasFlag flags 0x10 = n ∧ (flags ≤ 0x07 → a = false ∧ n = false) := by
  cases u <;> cases m <;> cases c <;> cases a <;> cases n <;> decide

theorem htimeFlags_spec (t : FileTimes) :
    htimeFlags t < 2 ^ 64 ∧ hasFlag (htimeFlags t) 0x01 = htimeUnix t ∧
      hasFlag (htimeFlags t) 0x02 = stampPresent (htimeUnix t) t.mtime ∧
      hasFlag (htimeFlags t) 0x04 = stampPresent (htimeUnix t) t.ctime ∧
      hasFlag (htimeFlags t) 0x08 = stampPresent (htimeUnix t) t.atime ∧
      hasFlag (htimeFlags t) 0x10 = htimeNs t ∧
      (htimeFlags t ≤ 0x07 → stampPresent (htimeUnix t) t.atime = false ∧ htimeNs t = false) :=
  timeFlags (htimeUnix t) (stampPresent (htimeUnix t) t.mtime)
    (stampPresent (htimeUnix t) t.ctime) (stampPresent (htimeUnix t) t.atime) (htimeNs t)

theorem TimesNormal.unix_eq (ht : TimesNormal t) : htimeUnix t = t.isUnix := by
  obtain ⟨hasNs, hunix, hm, _, _⟩ := ht.stamps
  unfold htimeUnix
  cases hmode : t.isUnix with
  | true => simp [ht.unix hmode]
  | false =>
    have hnone : hasNs = false := by
      cases hasNs with
      | false => rfl
      | true => rw [hmode] at hunix; cases hunix rfl
    have hmtime : stampPresent true t.mtime = false := by
      have := hm.hasNs
      rw [hnone, Bool.false_and] at this
      simp [stampPresent, hm.unix hmode, this]
    simp [hmtime]

theorem TimesNormal.ns_stamps (ht : TimesNormal t) :
    StampNormal t.isUnix (htimeNs t) t.mtime ∧ StampNormal t.isUnix (htimeNs t) t.ctime ∧
      StampNormal t.isUnix (htimeNs t) t.atime := by
  obtain ⟨hasNs, hunix, hm, hc, ha⟩ := ht.stamps
  have heq : hasNs = htimeNs t := by
    unfold htimeNs
    rw [ht.unix_eq, hm.hasNs, hc.hasNs, ha.hasNs]
    cases hflag : hasNs with
    | false => simp
    | true =>
      have hmode := hunix hflag
      have hany := ht.unix hmode
      rw [hmode, Bool.true_and, Bool.true_and, Bool.true_and, Bool.true_and]
      exact hany.symm
  rw [← heq]
  exact ⟨hm, hc, ha⟩

/-- A time record that was written is never taken for a legacy one. -/
theorem htimeContent_not_legacy (t : FileTimes) :
    isLegacyTimes (htimeFlags t) (stampBytes (htimeUnix t) t.mtime ++
      (stampBytes (htimeUnix t) t.ctime ++ (stampBytes (htimeUnix t) t.atime ++
        if htimeNs t then nsBytes (htimeUnix t) t.mtime ++ (nsBytes (htimeUnix t) t.ctime ++
          nsBytes (htimeUnix t) t.atime)
        else []))) = false := by
  obtain ⟨_, hu, hm, _, _, _, hsmall⟩ := htimeFlags_spec t
  unfold isLegacyTimes
  rw [decide_eq_false_iff_not]
  rintro ⟨hle, hunix, hmtime, hmod, hpos⟩
  obtain ⟨hatime, hns⟩ := hsmall hle
  have hunix' : htimeUnix t = true := hu.symm.trans hunix
  rw [hm] at hmtime
  rw [hunix'] at hmtime hatime
  -- Only the 32-bit creation time can be there.
  rw [stampBytes, stampBytes, stampBytes, hns, hunix'] at hmod hpos
  cases hctime : stampPresent true t.ctime with
  | false => simp [hctime, hatime, hmtime] at hpos
  | true => simp [hctime, hatime, hmtime] at hmod

/-- **Normal times are read back.** -/
theorem TimesNormal.parseHtime (ht : TimesNormal t) :
    parseHtime (htimeContent t) {} = t := by
  obtain ⟨hm, hc, ha⟩ := ht.ns_stamps
  obtain ⟨hlt, hfu, hfm, hfc, hfa, hfn, _⟩ := htimeFlags_spec t
  unfold HeaderReader.parseHtime htimeContent
  rw [readVint_pushVint hlt]
  dsimp only
  rw [htimeContent_not_legacy t, if_neg Bool.false_ne_true]
  unfold parseTimes
  dsimp only
  rw [hfu, hfm, hfc, hfa, hfn, ht.unix_eq]
  rw [readStamp_stampBytes hm]
  rw [readStamp_stampBytes hc]
  rw [readStamp_stampBytes ha]
  have hnsUnix : htimeNs t = true → t.isUnix = true := by
    intro hns
    unfold htimeNs at hns
    rw [ht.unix_eq, Bool.and_eq_true] at hns
    exact hns.1
  have hmtime := hm.eq
  have hctime := hc.eq
  have hatime := ha.eq
  cases hns : htimeNs t with
  | false =>
    rw [hns] at hmtime hctime hatime
    simp only [Bool.false_eq_true, false_and, if_false] at hmtime hctime hatime ⊢
    rw [hmtime, hctime, hatime]
  | true =>
    rw [hns] at hmtime hctime hatime
    simp only [true_and] at hmtime hctime hatime
    rw [if_pos ⟨rfl, hnsUnix hns⟩, if_pos rfl, readNs_nsBytes _ _ hm.ns_lt]
    rw [readNs_nsBytes _ _ hc.ns_lt]
    have hlast := readNs_nsBytes t.isUnix { win := t.atime.win, unix := t.atime.unix } ha.ns_lt []
    rw [append_nil] at hlast
    rw [hlast]
    rw [hmtime, hctime, hatime]

theorem parseArea_htimeRecord (hb : b.times = {}) (ht : TimesNormal t)
    (hlen : (htimeRecord t).length < 2 ^ 64) (rest : List UInt8) :
    parseArea (htimeRecord t ++ rest) b = parseArea rest { b with times := t } := by
  unfold htimeRecord at hlen ⊢
  by_cases hany : anyStamp (htimeUnix t) t = true
  · rw [if_pos hany, extraRecord, length_append, length_cons] at hlen
    rw [if_pos hany, parseArea_extraRecord (by omega)]
    show parseArea rest { b with times := HeaderReader.parseHtime (htimeContent t) b.times } = _
    rw [hb, ht.parseHtime]
  · have hnone : t = b.times := by
      obtain ⟨hm, hc, ha⟩ := ht.ns_stamps
      have hmode : t.isUnix = false := by
        cases hmode : t.isUnix with
        | false => rfl
        | true =>
          rw [ht.unix_eq, hmode] at hany
          exact absurd (ht.unix hmode) hany
      rw [ht.unix_eq, anyStamp, Bool.or_eq_true, Bool.or_eq_true, not_or, not_or,
        Bool.not_eq_true, Bool.not_eq_true, Bool.not_eq_true] at hany
      have hmtime := hm.absent hany.1.1
      have hctime := hc.absent hany.1.2
      have hatime := ha.absent hany.2
      obtain ⟨mtime, ctime, atime, isUnix⟩ := t
      dsimp only at *
      rw [hb, hmtime, hctime, hatime, hmode]
    rw [if_neg hany, nil_append, hnone]

/-! ## Owners -/

def serialisedOwner (o : Owner) : Owner :=
  { o with
    uid := if o.hasUid then o.uid else 0
    gid := if o.hasGid then o.gid else 0 }

structure OwnerWellFormed (o : Owner) : Prop where
  user : o.user.length ≤ 255
  group : o.group.length ≤ 255
  uid : o.uid < 2 ^ 64
  gid : o.gid < 2 ^ 64
  present : o.user ≠ [] ∨ o.group ≠ [] ∨ o.hasUid = true ∨ o.hasGid = true → o.hasOwner = true

theorem readOwnerName_ownerName (h : name.length ≤ 255) (rest : List UInt8) :
    readOwnerName (ownerName name ++ rest) = some (name, rest) := by
  unfold readOwnerName ownerName
  rw [Nat.min_eq_left h, take_length, append_assoc, readVint_pushVint (by omega)]
  dsimp only [bind_eq_bind, bind_some]
  rw [if_neg (by omega), readBytes_append]

theorem readOwnerNameIf_optional (h : name.length ≤ 255) (rest : List UInt8) :
    readOwnerNameIf (decide (name ≠ [])) ((if name ≠ [] then ownerName name else []) ++ rest) [] =
      some (name, rest) := by
  unfold readOwnerNameIf
  by_cases hnil : name = []
  · rw [hnil]
    rfl
  · rw [if_pos (by simpa using hnil), if_pos hnil, readOwnerName_ownerName h]

theorem readOwnerId_optional (present : Bool) {id : Nat} (h : id < 2 ^ 64) (rest : List UInt8) :
    readOwnerId present false 0 ((if present then pushVint id else []) ++ rest) =
      (present, if present then id else 0, rest) := by
  unfold readOwnerId
  cases present with
  | false => rfl
  | true => rw [if_pos rfl, if_pos rfl, readVint_pushVint h, if_pos rfl]

theorem ownerFlagBits (u g i j : Bool) :
    let flags := (if u then 0x0001 else 0) ||| (if g then 0x0002 else 0)
      ||| (if i then 0x0004 else 0) ||| (if j then 0x0008 else 0)
    flags < 2 ^ 64 ∧ hasFlag flags 0x0001 = u ∧ hasFlag flags 0x0002 = g ∧
      hasFlag flags 0x0004 = i ∧ hasFlag flags 0x0008 = j := by
  cases u <;> cases g <;> cases i <;> cases j <;> decide

theorem ownerFlags_spec (o : Owner) :
    ownerFlags o < 2 ^ 64 ∧ hasFlag (ownerFlags o) 0x0001 = decide (o.user ≠ []) ∧
      hasFlag (ownerFlags o) 0x0002 = decide (o.group ≠ []) ∧
      hasFlag (ownerFlags o) 0x0004 = o.hasUid ∧ hasFlag (ownerFlags o) 0x0008 = o.hasGid := by
  have hbits := ownerFlagBits (decide (o.user ≠ [])) (decide (o.group ≠ [])) o.hasUid o.hasGid
  simp only [decide_eq_true_eq] at hbits
  exact hbits

/-- **An owner record is read back.** -/
theorem parseOwner_ownerContent (ho : OwnerWellFormed o) :
    parseOwner (ownerContent o) {} = { serialisedOwner o with hasOwner := true } := by
  obtain ⟨hlt, hfu, hfg, hfuid, hfgid⟩ := ownerFlags_spec o
  unfold parseOwner ownerContent
  rw [readVint_pushVint hlt]
  dsimp only [bind_eq_bind]
  rw [hfu, hfg, hfuid, hfgid, readOwnerNameIf_optional ho.user]
  dsimp only [bind_some]
  rw [readOwnerNameIf_optional ho.group]
  dsimp only [bind_some]
  rw [readOwnerId_optional _ ho.uid]
  have hgid := readOwnerId_optional o.hasGid ho.gid []
  rw [append_nil] at hgid
  rw [hgid]
  rfl

theorem parseArea_ownerRecord (hb : b.owner = {}) (ho : OwnerWellFormed o)
    (hlen : (ownerRecord o).length < 2 ^ 64) (rest : List UInt8) :
    parseArea (ownerRecord o ++ rest) b = parseArea rest { b with owner := serialisedOwner o } := by
  have hpresent := ho.present
  unfold ownerRecord at hlen ⊢
  split
  · next hany =>
    have hhas : o.hasOwner = true := hany.elim id hpresent
    rw [if_pos hany, extraRecord, length_append, length_cons] at hlen
    rw [parseArea_extraRecord (by omega)]
    show parseArea rest { b with owner := parseOwner (ownerContent o) b.owner } = _
    rw [hb, parseOwner_ownerContent ho]
    rw [serialisedOwner, hhas]
  · next hnone =>
    simp only [not_or, Bool.not_eq_true, not_not] at hnone
    obtain ⟨hhas, huser, hgroup, huid, hgid⟩ := hnone
    have hempty : serialisedOwner o = b.owner := by
      rw [hb, serialisedOwner, huid, hgid, hhas, huser, hgroup]
      rfl
    rw [nil_append, hempty]

/-! ## Extended attributes -/

structure XattrsWellFormed (xattrs : List FileXattr) : Prop where
  sizes : ∀ x ∈ xattrs, x.name ≠ [] ∧ x.name.length ≤ xattrNameMax ∧
    x.value.length ≤ xattrValueMax
  nodup : (xattrs.map FileXattr.name).Nodup

theorem xattrEntry_length (x : FileXattr) (hname : x.name ≠ []) : 3 ≤ (xattrEntry x).length := by
  have h1 := length_pos_iff.mpr (pushVint_ne_nil x.name.length)
  have h2 := length_pos_iff.mpr (pushVint_ne_nil x.value.length)
  have h3 := length_pos_iff.mpr hname
  rw [xattrEntry, length_append, length_append, length_append]
  omega

theorem xattrEntries_length (xattrs : List FileXattr) (h : ∀ x ∈ xattrs, x.name ≠ []) :
    3 * xattrs.length ≤ (xattrs.flatMap xattrEntry).length := by
  induction xattrs with
  | nil => exact Nat.le_refl _
  | cons x xattrs ih =>
    have hrest := ih fun y hy => h y (mem_cons_of_mem _ hy)
    have hentry := xattrEntry_length x (h x mem_cons_self)
    rw [flatMap_cons, length_append, length_cons]
    omega

theorem parseXattrEntries_entries (xattrs parsed : List FileXattr)
    (hsizes : ∀ x ∈ xattrs, x.name ≠ [] ∧ x.name.length ≤ xattrNameMax ∧
      x.value.length ≤ xattrValueMax)
    (hnodup : ((parsed ++ xattrs).map FileXattr.name).Nodup) :
    parseXattrEntries xattrs.length (xattrs.flatMap xattrEntry) parsed =
      some (parsed ++ xattrs) := by
  -- Induction on the entries that are left, with those that were parsed.
  induction xattrs generalizing parsed with
  | nil => rw [append_nil]; rfl
  | cons x xattrs ih =>
    obtain ⟨hname, hnameLen, hvalueLen⟩ := hsizes x mem_cons_self
    have hpos := length_pos_iff.mpr hname
    have hnew : x.name ∉ parsed.map FileXattr.name := by
      rw [map_append, map_cons, nodup_append] at hnodup
      intro hmem
      exact hnodup.2.2 _ hmem _ mem_cons_self rfl
    unfold xattrNameMax at hnameLen
    unfold xattrValueMax at hvalueLen
    rw [length_cons, flatMap_cons, parseXattrEntries, xattrEntry]
    simp only [append_assoc]
    rw [readVint_pushVint (by omega)]
    dsimp only [bind_eq_bind, bind_some]
    rw [if_neg (by unfold xattrNameMax; omega), readBytes_append]
    dsimp only [bind_some]
    rw [readVint_pushVint (by omega)]
    dsimp only [bind_some]
    rw [if_neg (by unfold xattrValueMax; omega), readBytes_append]
    dsimp only [bind_some]
    rw [if_neg hnew, ih]
    · rw [append_assoc, singleton_append]
    · intro y hy
      exact hsizes y (mem_cons_of_mem _ hy)
    · rwa [append_assoc, singleton_append]

/-- **Well-formed attributes are read back.** -/
theorem parseXattrs_xattrContent (h : XattrsWellFormed xattrs) (hlen : xattrs.length < 2 ^ 64) :
    parseXattrs (xattrContent xattrs) = some xattrs := by
  have hcount := xattrEntries_length xattrs fun x hx => (h.sizes x hx).1
  unfold parseXattrs xattrContent
  rw [readVint_pushVint (by decide)]
  dsimp only [bind_eq_bind, bind_some]
  rw [if_neg (by decide), readVint_pushVint hlen]
  dsimp only [bind_some]
  rw [if_neg (by omega)]
  exact parseXattrEntries_entries xattrs [] h.sizes h.nodup

theorem XattrsWellFormed.filter (h : XattrsWellFormed xattrs) :
    xattrs.filter xattrEmitted = xattrs := by
  rw [filter_eq_self]
  intro x hx
  exact decide_eq_true (h.sizes x hx)

theorem parseArea_xattrRecord (hb : b.xattrs = []) (h : XattrsWellFormed xattrs)
    (hlen : (xattrRecord xattrs).length < 2 ^ 64)
    (rest : List UInt8) :
    parseArea (xattrRecord xattrs ++ rest) b = parseArea rest { b with xattrs := xattrs } := by
  unfold xattrRecord at hlen ⊢
  rw [h.filter] at hlen ⊢
  by_cases hnone : xattrs = []
  · rw [if_neg (by simpa using hnone), nil_append, hnone, ← hb]
  · rw [if_pos hnone, extraRecord, length_append, length_cons] at hlen
    have hcount := xattrEntries_length xattrs fun x hx => (h.sizes x hx).1
    have hsmall : xattrs.length < 2 ^ 64 := by
      rw [xattrContent, length_append, length_append] at hlen
      omega
    rw [if_pos hnone, parseArea_extraRecord (by omega)]
    have hparse : ∀ recSize raw, parseRecord recSize fhextraXattr (xattrContent xattrs) raw rest b =
        some ({ b with xattrs := b.xattrs ++ xattrs }, rest) := by
      intro recSize raw
      simp +decide [parseRecord, parseXattrs_xattrContent h hsmall]
    rw [hparse, hb]
    rfl

end HeaderReader
end OpenRar.Format
