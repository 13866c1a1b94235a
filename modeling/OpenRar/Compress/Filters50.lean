import OpenRar.Core.Bytes

/-!
# The data filters

Embedding of `compress/filters50.cpp`: filter detection, and the forward and
inverse transforms of the three filters.

The call filter walks over its region one byte at a time and, behind an opcode
byte, rewrites a four-byte operand and steps over it.  The vector loops of the
source skip windows that hold no opcode byte and otherwise do the same, so the
scan below is the common meaning of all of them.  The branch filter looks at
aligned groups of four bytes.  The delta filter stores each channel as one plane
of differences.

The main results say that the inverse transforms undo the forward transforms on
every region.
-/

namespace OpenRar.Compress

open OpenRar.Core List

/-- `FilterType`; the codes are the source's. -/
inductive FilterType
  | delta
  | e8
  | e8e9
  | arm
  | none
  deriving DecidableEq, Repr

/-- Wire code of a filter type. -/
def FilterType.code : FilterType → Nat
  | .delta => 0
  | .e8 => 1
  | .e8e9 => 2
  | .arm => 3
  | .none => 255

inductive FilterMode
  | auto
  | disableAll
  deriving DecidableEq, Repr

/-- `FilterConfig`: an override is positive to force, negative to disable. -/
structure FilterConfig where
  mode : FilterMode := .auto
  e8Override : Int := 0
  armOverride : Int := 0
  deltaOverride : Int := 0
  deltaChannels : Nat := 0

/-! ## Call operands -/

/-- The 16 MiB cycle of the call filter. -/
def fileSizeMask : Nat := 0x01000000

/-- Inverse transform of one operand; `offset` is the position behind the
opcode in the cycle. -/
def e8DecodeOperand (offset addr : Nat) : Nat :=
  if addr ≥ 0x80000000 then
    if (addr + offset) % 2 ^ 32 < 0x80000000 then (addr + fileSizeMask) % 2 ^ 32 else addr
  else if (addr + 2 ^ 32 - fileSizeMask) % 2 ^ 32 ≥ 0x80000000 then
    (addr + 2 ^ 32 - offset) % 2 ^ 32
  else addr

/-- Forward transform of one operand. -/
def e8EncodeOperand (offset addr : Nat) : Nat :=
  if addr ≥ 0x80000000 then
    if (addr + offset) % 2 ^ 32 < 0x80000000 then (addr + offset) % 2 ^ 32 else addr
  else if addr < fileSizeMask then
    if addr + offset ≥ fileSizeMask then (addr + 2 ^ 32 - fileSizeMask) % 2 ^ 32
    else (addr + offset) % 2 ^ 32
  else addr

/-- The bytes that start a call (or, with `includeE9`, a jump). -/
def isCallOpcode (includeE9 : Bool) (b : UInt8) : Bool :=
  b == 0xE8 || b == (if includeE9 then 0xE9 else 0xE8)

/-- Scan of the call filters with the operand transform `f`.  `pos` is the
position in the region and `fileOff` the low 32 bits of the region's offset. -/
def e8Scan (f : Nat → Nat → Nat) (includeE9 : Bool) (fileOff : Nat) :
    Nat → List UInt8 → List UInt8
  | pos, b :: b0 :: b1 :: b2 :: b3 :: rest =>
    if isCallOpcode includeE9 b then
      let curPos := pos + 1
      let offset := (curPos + fileOff) % 2 ^ 32 % fileSizeMask
      b :: writeLe 4 (f offset (readLe [b0, b1, b2, b3]))
        ++ e8Scan f includeE9 fileOff (curPos + 4) rest
    else b :: e8Scan f includeE9 fileOff (pos + 1) (b0 :: b1 :: b2 :: b3 :: rest)
  | _, short => short

/-- `apply_e8` -/
def applyE8 (data : List UInt8) (fileOffset : Nat) (includeE9 : Bool) : List UInt8 :=
  e8Scan e8DecodeOperand includeE9 (fileOffset % 2 ^ 32) 0 data

/-- `encode_e8` -/
def encodeE8 (data : List UInt8) (fileOffset : Nat) (includeE9 : Bool) : List UInt8 :=
  e8Scan e8EncodeOperand includeE9 (fileOffset % 2 ^ 32) 0 data

variable {offset channels c : Nat}

theorem e8Operand_roundTrip {addr : Nat} (hoffset : offset < fileSizeMask) (haddr : addr < 2 ^ 32) :
    e8EncodeOperand offset addr < 2 ^ 32 ∧
      e8DecodeOperand offset (e8EncodeOperand offset addr) = addr := by
  unfold e8EncodeOperand e8DecodeOperand fileSizeMask at *
  split_ifs <;> omega

section Scan

variable {includeE9 : Bool}

/-- Behind an opcode byte the scan rewrites four bytes and steps over them. -/
theorem e8Scan_opcode (f : Nat → Nat → Nat) (fileOff pos : Nat) {b : UInt8}
    (hop : isCallOpcode includeE9 b = true) {operand : List UInt8} (hlen : operand.length = 4)
    (rest : List UInt8) :
    e8Scan f includeE9 fileOff pos (b :: operand ++ rest)
      = b :: writeLe 4 (f ((pos + 1 + fileOff) % 2 ^ 32 % fileSizeMask) (readLe operand))
          ++ e8Scan f includeE9 fileOff (pos + 5) rest := by
  match operand, hlen with
  | [b0, b1, b2, b3], _ => simp [e8Scan, if_pos hop]

theorem e8Scan_plain (f : Nat → Nat → Nat) (fileOff pos : Nat) {b : UInt8}
    (hop : ¬ isCallOpcode includeE9 b = true) {rest : List UInt8} (hlen : 4 ≤ rest.length) :
    e8Scan f includeE9 fileOff pos (b :: rest)
      = b :: e8Scan f includeE9 fileOff (pos + 1) rest := by
  match rest, hlen with
  | b0 :: b1 :: b2 :: b3 :: rest, _ => simp [e8Scan, if_neg hop]

theorem e8Scan_short (f : Nat → Nat → Nat) (includeE9 : Bool) (fileOff pos : Nat)
    {data : List UInt8} (hlen : data.length < 5) :
    e8Scan f includeE9 fileOff pos data = data := by
  match data, hlen with
  | [], _ => simp [e8Scan]
  | [_], _ => simp [e8Scan]
  | [_, _], _ => simp [e8Scan]
  | [_, _, _], _ => simp [e8Scan]
  | [_, _, _, _], _ => simp [e8Scan]

/-- Induction along a scan: a short rest, an opcode with its operand, or any
other byte. -/
@[elab_as_elim]
theorem e8Scan_induction (includeE9 : Bool) {motive : Nat → List UInt8 → Prop}
    (short : ∀ pos data, data.length < 5 → motive pos data)
    (opcode : ∀ pos b operand rest, isCallOpcode includeE9 b = true → operand.length = 4 →
      motive (pos + 5) rest → motive pos (b :: operand ++ rest))
    (plain : ∀ pos b rest, ¬ isCallOpcode includeE9 b = true → 4 ≤ rest.length →
      motive (pos + 1) rest → motive pos (b :: rest))
    (pos : Nat) (data : List UInt8) : motive pos data := by
  obtain ⟨n, hlen⟩ : ∃ n, data.length = n := ⟨_, rfl⟩
  induction n using Nat.strong_induction_on generalizing pos data with
  | _ n ih =>
    by_cases hshort : data.length < 5
    · exact short pos data hshort
    cases data with
    | nil => simp at hshort
    | cons b tail =>
      rw [length_cons] at hshort hlen
      by_cases hop : isCallOpcode includeE9 b = true
      · have h := opcode pos b (tail.take 4) (tail.drop 4) hop (by simp; omega)
          (ih (tail.drop 4).length (by simp; omega) _ _ rfl)
        rwa [cons_append, take_append_drop] at h
      · exact plain pos b tail hop (by omega) (ih tail.length (by omega) _ _ rfl)

theorem e8Scan_length (f : Nat → Nat → Nat) (includeE9 : Bool) (fileOff pos : Nat)
    (data : List UInt8) : (e8Scan f includeE9 fileOff pos data).length = data.length := by
  induction pos, data using e8Scan_induction includeE9 with
  | short pos data h => rw [e8Scan_short _ _ _ _ h]
  | opcode pos b operand rest hop hlen ih =>
    rw [e8Scan_opcode _ _ _ hop hlen]
    simp [ih, hlen]
  | plain pos b rest hop hlen ih =>
    rw [e8Scan_plain _ _ _ hop hlen]
    simp [ih]

/-- A scan that rewrites operands by `g` is undone by the scan that rewrites them by a
left inverse of `g`.  Opcode bytes are never rewritten, so both scans stop at the same
places. -/
theorem e8Scan_leftInverse {f g : Nat → Nat → Nat}
    (hinv : ∀ offset addr, offset < fileSizeMask → addr < 2 ^ 32 →
      g offset addr < 2 ^ 32 ∧ f offset (g offset addr) = addr)
    (includeE9 : Bool) (fileOff pos : Nat) (data : List UInt8) :
    e8Scan f includeE9 fileOff pos (e8Scan g includeE9 fileOff pos data) = data := by
  induction pos, data using e8Scan_induction includeE9 with
  | short pos data h => rw [e8Scan_short _ _ _ _ h, e8Scan_short _ _ _ _ h]
  | opcode pos b operand rest hop hlen ih =>
    have haddr : readLe operand < 2 ^ 32 := by
      have := readLe_lt operand
      rw [hlen] at this
      omega
    have hoffset : (pos + 1 + fileOff) % 2 ^ 32 % fileSizeMask < fileSizeMask :=
      Nat.mod_lt _ (by decide)
    obtain ⟨hlt, hround⟩ := hinv _ _ hoffset haddr
    rw [e8Scan_opcode _ _ _ hop hlen, e8Scan_opcode _ _ _ hop (writeLe_length _ _), ih,
      readLe_writeLe]
    generalize (pos + 1 + fileOff) % 2 ^ 32 % fileSizeMask = offset at hlt hround
    have hword : g offset (readLe operand) % 256 ^ 4 = g offset (readLe operand) :=
      Nat.mod_eq_of_lt (by omega)
    rw [hword, hround, ← hlen, writeLe_readLe]
  | plain pos b rest hop hlen ih =>
    have hinner : 4 ≤ (e8Scan g includeE9 fileOff (pos + 1) rest).length := by
      rw [e8Scan_length]
      exact hlen
    rw [e8Scan_plain _ _ _ hop hlen, e8Scan_plain _ _ _ hop hinner, ih]

/-- **The call filter is undone by its inverse.** -/
theorem e8Scan_roundTrip (includeE9 : Bool) (fileOff pos : Nat) (data : List UInt8) :
    e8Scan e8DecodeOperand includeE9 fileOff pos
        (e8Scan e8EncodeOperand includeE9 fileOff pos data) = data :=
  @e8Scan_leftInverse e8DecodeOperand e8EncodeOperand
    (fun _ _ hoffset haddr => e8Operand_roundTrip hoffset haddr) includeE9 fileOff pos data

end Scan

theorem applyE8_encodeE8 (data : List UInt8) (fileOffset : Nat) (includeE9 : Bool) :
    applyE8 (encodeE8 data fileOffset includeE9) fileOffset includeE9 = data :=
  e8Scan_roundTrip includeE9 _ 0 data

theorem encodeE8_length (data : List UInt8) (fileOffset : Nat) (includeE9 : Bool) :
    (encodeE8 data fileOffset includeE9).length = data.length :=
  e8Scan_length _ _ _ _ _

/-! ## Branch offsets -/

/-- Scan of the branch filter: aligned groups whose last byte is the branch
opcode get their 24-bit offset rewritten by `f`, which is given the group's
position in words. -/
def armScan (f : Nat → Nat → Nat) (fileOff : Nat) : Nat → List UInt8 → List UInt8
  | pos, b0 :: b1 :: b2 :: b3 :: rest =>
    if b3 = 0xEB then
      writeLe 3 (f ((fileOff + pos) % 2 ^ 32 / 4) (readLe [b0, b1, b2]))
        ++ b3 :: armScan f fileOff (pos + 4) rest
    else b0 :: b1 :: b2 :: b3 :: armScan f fileOff (pos + 4) rest
  | _, short => short

/-- `apply_arm` takes the group's position off the stored offset. -/
def armDecodeOffset (k offset : Nat) : Nat :=
  (offset + 2 ^ 32 - k) % 2 ^ 32

/-- `encode_arm` adds it. -/
def armEncodeOffset (k offset : Nat) : Nat :=
  (offset + k) % 2 ^ 32

/-- `apply_arm` -/
def applyArm (data : List UInt8) (fileOffset : Nat) : List UInt8 :=
  armScan armDecodeOffset (fileOffset % 2 ^ 32) 0 data

/-- `encode_arm` -/
def encodeArm (data : List UInt8) (fileOffset : Nat) : List UInt8 :=
  armScan armEncodeOffset (fileOffset % 2 ^ 32) 0 data

theorem armScan_length (f : Nat → Nat → Nat) (fileOff pos : Nat) (data : List UInt8) :
    (armScan f fileOff pos data).length = data.length := by
  fun_induction armScan f fileOff pos data with
  | case1 pos b0 b1 b2 rest ih => simp; omega
  | case2 pos b0 b1 b2 b3 rest hop ih => simp [ih]
  | case3 => rfl

/-- Only the low 24 bits of an offset are stored, and those come back. -/
theorem armOffset_roundTrip {k : Nat} (hk : k < 2 ^ 30) (hoff : offset < 2 ^ 24) :
    armDecodeOffset k (armEncodeOffset k offset % 2 ^ 24) % 2 ^ 24 = offset := by
  unfold armDecodeOffset armEncodeOffset
  omega

/-- A scan of the branch filter that rewrites offsets by `g` is undone by one that rewrites
them by a left inverse; the fourth byte of a group decides and is kept. -/
theorem armScan_leftInverse {f g : Nat → Nat → Nat}
    (hinv : ∀ k offset, k < 2 ^ 30 → offset < 2 ^ 24 →
      f k (g k offset % 2 ^ 24) % 2 ^ 24 = offset)
    (fileOff pos : Nat) (data : List UInt8) :
    armScan f fileOff pos (armScan g fileOff pos data) = data := by
  fun_induction armScan g fileOff pos data with
  | case1 pos b0 b1 b2 rest ih =>
    have hk : (fileOff + pos) % 2 ^ 32 / 4 < 2 ^ 30 := by omega
    have hoff : readLe [b0, b1, b2] < 2 ^ 24 := by simpa using readLe_lt [b0, b1, b2]
    obtain ⟨c0, c1, c2, hbytes⟩ : ∃ c0 c1 c2,
        writeLe 3 (g ((fileOff + pos) % 2 ^ 32 / 4) (readLe [b0, b1, b2])) = [c0, c1, c2] :=
      ⟨_, _, _, rfl⟩
    have hread := congrArg readLe hbytes
    rw [readLe_writeLe] at hread
    have hback := hinv _ _ hk hoff
    rw [show (2 : Nat) ^ 24 = 256 ^ 3 by norm_num, hread] at hback
    have hwrite : writeLe 3 (f ((fileOff + pos) % 2 ^ 32 / 4) (readLe [c0, c1, c2]))
        = [b0, b1, b2] := writeLe_eq_of_mod rfl hback
    rw [hbytes]
    simp only [cons_append, nil_append, armScan, ih]
    rw [hwrite]
    rfl
  | case2 pos b0 b1 b2 b3 rest hop ih => simp [armScan, hop, ih]
  | case3 pos data hshort =>
    unfold armScan
    split
    · exact absurd rfl (hshort _ _ _ _ _)
    · rfl

theorem armScan_roundTrip (fileOff pos : Nat) (data : List UInt8) :
    armScan armDecodeOffset fileOff pos (armScan armEncodeOffset fileOff pos data) = data :=
  @armScan_leftInverse armDecodeOffset armEncodeOffset
    (fun _ _ hk hoff => armOffset_roundTrip hk hoff) fileOff pos data

/-! ## Channel differences -/

/-- The loop of the encoder over one channel: each byte becomes its predecessor
minus itself. -/
def deltaDifferences : UInt8 → List UInt8 → List UInt8
  | _, [] => []
  | prev, b :: rest => (prev - b) :: deltaDifferences b rest

/-- The loop of the decoder over one plane. -/
def deltaAccumulate : UInt8 → List UInt8 → List UInt8
  | _, [] => []
  | prev, d :: rest => (prev - d) :: deltaAccumulate (prev - d) rest

/-- Number of bytes of channel `c` in a region of `size` bytes. -/
def channelLength (size channels c : Nat) : Nat :=
  size / channels + if c < size % channels then 1 else 0

/-- Start of the plane of channel `c`. -/
def planeBase (size channels c : Nat) : Nat :=
  c * (size / channels) + min c (size % channels)

/-- The bytes of channel `c` of an interleaved region. -/
def channelBytes (data : List UInt8) (channels c : Nat) : List UInt8 :=
  (List.range (channelLength data.length channels c)).map fun r =>
    data.getD (r * channels + c) 0

/-- `encode_delta`; the source refuses other channel counts and empty regions. -/
def encodeDelta (data : List UInt8) (channels : Nat) : Option (List UInt8) :=
  if channels = 0 ∨ 32 < channels ∨ data.length = 0 then none
  else some ((List.range channels).flatMap fun c =>
    deltaDifferences 0 (channelBytes data channels c))

/-- `apply_delta` -/
def applyDelta (data : List UInt8) (channels : Nat) : Option (List UInt8) :=
  if channels = 0 ∨ 32 < channels ∨ data.length = 0 then none
  else some ((List.range data.length).map fun i =>
    let c := i % channels
    let plane := (data.drop (planeBase data.length channels c)).take
      (channelLength data.length channels c)
    (deltaAccumulate 0 plane).getD (i / channels) 0)

@[simp]
theorem deltaDifferences_length (prev : UInt8) (bytes : List UInt8) :
    (deltaDifferences prev bytes).length = bytes.length := by
  induction bytes generalizing prev with
  | nil => rfl
  | cons b rest ih => simp [deltaDifferences, ih]

theorem deltaAccumulate_differences (prev : UInt8) (bytes : List UInt8) :
    deltaAccumulate prev (deltaDifferences prev bytes) = bytes := by
  induction bytes generalizing prev with
  | nil => rfl
  | cons b rest ih =>
    have hb : prev - (prev - b) = b := by simp
    rw [deltaDifferences, deltaAccumulate, hb, ih]

@[simp]
theorem channelBytes_length (data : List UInt8) (channels c : Nat) :
    (channelBytes data channels c).length = channelLength data.length channels c := by
  simp [channelBytes]

/-- The planes of the first `c` channels end where the next one starts. -/
theorem planes_length (data : List UInt8) (channels c : Nat) :
    ((List.range c).flatMap fun i =>
        deltaDifferences 0 (channelBytes data channels i)).length
      = planeBase data.length channels c := by
  induction c with
  | zero => simp [planeBase]
  | succ c ih =>
    rw [range_succ, flatMap_append, length_append, ih]
    simp only [flatMap_singleton, deltaDifferences_length, channelBytes_length,
      planeBase, channelLength, Nat.succ_mul]
    split <;> omega

theorem planeBase_channels (size : Nat) (hpos : 0 < channels) :
    planeBase size channels channels = size := by
  have hmod := Nat.mod_lt size hpos
  rw [planeBase, Nat.min_eq_right hmod.le]
  exact Nat.div_add_mod size channels

theorem flatMap_range_split {α : Type*} (f : Nat → List α) {n : Nat} (hc : c < n) :
    (List.range n).flatMap f
      = (List.range c).flatMap f ++
        (f c ++ ((List.range (n - (c + 1))).map (c + 1 + ·)).flatMap f) := by
  have hsplit : List.range n
      = (List.range c ++ [c]) ++ (List.range (n - (c + 1))).map (c + 1 + ·) := by
    rw [← range_succ, ← range_add, Nat.add_sub_cancel' hc]
  simp [hsplit]

/-- The plane of a channel is found where the decoder looks for it. -/
theorem plane_of_encoded (data : List UInt8) (hc : c < channels) :
    ((((List.range channels).flatMap fun i =>
        deltaDifferences 0 (channelBytes data channels i)).drop
          (planeBase data.length channels c)).take (channelLength data.length channels c))
      = deltaDifferences 0 (channelBytes data channels c) := by
  rw [flatMap_range_split _ hc, drop_left' (planes_length data channels c),
    take_left' (by simp)]

theorem div_lt_channelLength {i size : Nat} (channels : Nat) (hi : i < size) :
    i / channels < channelLength size channels (i % channels) := by
  have hmono := Nat.div_le_div_right (c := channels) hi.le
  have hi' := Nat.div_add_mod i channels
  have hsize := Nat.div_add_mod size channels
  unfold channelLength
  rcases hmono.lt_or_eq with hlt | heq
  · omega
  · -- In the last row only the channels before the remainder have a byte.
    rw [heq] at hi'
    rw [if_pos (by omega)]
    omega

theorem applyDelta_encodeDelta {data encoded : List UInt8}
    (hencoded : encodeDelta data channels = some encoded) :
    encoded.length = data.length ∧ applyDelta encoded channels = some data := by
  unfold encodeDelta at hencoded
  split at hencoded
  · cases hencoded
  · rename_i hvalid
    push Not at hvalid
    have hpos : 0 < channels := by omega
    cases hencoded
    have hlen := planes_length data channels channels
    rw [planeBase_channels _ hpos] at hlen
    constructor
    · exact hlen
    · unfold applyDelta
      rw [if_neg (by omega), hlen]
      congr 1
      apply ext_getElem
      · simp
      · intro i hi _
        have hi : i < data.length := by simpa using hi
        have hrow := div_lt_channelLength channels hi
        simp only [getElem_map, getElem_range]
        rw [plane_of_encoded data (Nat.mod_lt i hpos), deltaAccumulate_differences,
          getD_eq_getElem _ _ (by simpa using hrow)]
        simp only [channelBytes, getElem_map, getElem_range]
        rw [Nat.div_add_mod' i channels, getD_eq_getElem _ _ hi]

/-! ## Detection -/

variable (data : List UInt8) (config : FilterConfig)

/-- The byte at `i`; every caller has checked that it is there. -/
def byteAt (i : Nat) : UInt8 :=
  data.getD i 0

/-- `read_le16` and `read_le32` at an offset, by width. -/
def fieldAt (offset width : Nat) : Nat :=
  readLe ((data.drop offset).take width)

/-- Call density scan: `true` as soon as 32 plausible calls were seen. -/
def callDensity : Nat → List UInt8 → Bool
  | count, b :: b0 :: b1 :: b2 :: b3 :: rest =>
    if b = 0xE8 then
      let addr := readLe [b0, b1, b2, b3]
      if addr < 0x01000000 ∨ addr ≥ 0xFF000000 then
        if count + 1 ≥ 32 then true else callDensity (count + 1) rest
      else callDensity count (b0 :: b1 :: b2 :: b3 :: rest)
    else callDensity count (b0 :: b1 :: b2 :: b3 :: rest)
  | _, _ => false

/-- Number of branches to a target within 2 MiB. -/
def localBranches : List UInt8 → Nat
  | b0 :: b1 :: b2 :: b3 :: rest =>
    let off := readLe [b0, b1, b2]
    (if b3 = 0xEB ∧ (off < 0x00080000 ∨ off ≥ 0x00F80000) then 1 else 0) + localBranches rest
  | _ => 0

/-- Portable-executable check; the machine field picks the filter. -/
def detectPe : Option FilterType :=
  if config.e8Override ≥ 0 ∧ byteAt data 0 = 0x4D ∧ byteAt data 1 = 0x5A ∧ data.length ≥ 128 then
    let peOff := fieldAt data 0x3C 4
    if peOff + 6 < data.length ∧ byteAt data peOff = 0x50 ∧ byteAt data (peOff + 1) = 0x45
        ∧ byteAt data (peOff + 2) = 0 ∧ byteAt data (peOff + 3) = 0 then
      let machine := fieldAt data (peOff + 4) 2
      if config.armOverride ≥ 0 ∧ (machine = 0x01C0 ∨ machine = 0x01C2 ∨ machine = 0x01C4) then
        some .arm
      else some .e8
    else none
  else none

def detectElf : Option FilterType :=
  if data.length ≥ 20 ∧ data.take 4 = [0x7F, 0x45, 0x4C, 0x46] then
    let machine := fieldAt data 0x12 2
    if config.e8Override ≥ 0 ∧ (machine = 0x03 ∨ machine = 0x3E) then some .e8
    else if config.armOverride ≥ 0 ∧ machine = 0x28 then some .arm
    else none
  else none

def detectMachO : Option FilterType :=
  let magic := fieldAt data 0 4
  if data.length ≥ 8 ∧ (magic = 0xFEEDFACE ∨ magic = 0xFEEDFACF) then
    let cputype := fieldAt data 4 4
    if config.e8Override ≥ 0 ∧ (cputype = 7 ∨ cputype = 0x01000007) then some .e8
    else if config.armOverride ≥ 0 ∧ cputype = 12 then some .arm
    else none
  else none

/-- The two density scans over the first 64 KiB. -/
def detectDensity : Option FilterType :=
  let scanLen := min data.length 65536
  let scanned := data.take scanLen
  if config.e8Override ≥ 0 ∧ scanLen ≥ 512 ∧ callDensity 0 scanned then some .e8
  else
    let armCount := localBranches scanned
    if config.armOverride ≥ 0 ∧ scanLen ≥ 512 ∧ armCount ≥ 32
        ∧ armCount * 100 / (scanLen / 4) ≥ 1 then some .arm
    else none

/-- Wave header check; the channel count is the frame size in bytes. -/
def detectWave : Option Nat :=
  if config.deltaOverride ≥ 0 ∧ data.length ≥ 44 ∧ data.take 4 = [0x52, 0x49, 0x46, 0x46]
      ∧ (data.drop 8).take 8 = [0x57, 0x41, 0x56, 0x45, 0x66, 0x6D, 0x74, 0x20] then
    let totalBits := fieldAt data 22 2 * fieldAt data 34 2
    let stride := totalBits / 8
    if totalBits % 8 = 0 ∧ 1 ≤ stride ∧ stride ≤ 32 then some stride else none
  else none

/-- `detect_filter`: the filter and, for the delta filter, its channel count. -/
def detectFilter : FilterType × Nat :=
  if config.mode = .disableAll then (.none, 1)
  else if config.e8Override > 0 then (.e8, 1)
  else if config.armOverride > 0 then (.arm, 1)
  else if config.deltaOverride > 0 then
    (.delta, if config.deltaChannels > 0 then config.deltaChannels else 2)
  else if data.length < 64 then (.none, 1)
  else
    match detectPe data config <|> detectElf data config <|> detectMachO data config
        <|> detectDensity data config with
    | some ty => (ty, 1)
    | none =>
      match detectWave data config with
      | some stride => (.delta, stride)
      | none => (.none, 1)

/-- The channel counts the command line admits. -/
def FilterConfig.Admissible : Prop :=
  config.deltaChannels ≤ 32

theorem detectWave_le {data : List UInt8} {config : FilterConfig} {stride : Nat}
    (hdetect : detectWave data config = some stride) : 1 ≤ stride ∧ stride ≤ 32 := by
  unfold detectWave at hdetect
  simp only at hdetect
  split_ifs at hdetect with hheader hstride
  · cases hdetect
    exact hstride.2

/-- Detection names a channel count that the delta filter accepts, or the one it was
told. -/
theorem detectFilter_channels : 1 ≤ (detectFilter data config).2 ∧
      (detectFilter data config).2 ≤ max 32 config.deltaChannels := by
  unfold detectFilter
  split_ifs
  all_goals try simp
  · omega
  · split
    · simp
    · split
      · exact (detectWave_le ‹_›).imp_right Or.inl
      · simp

end OpenRar.Compress
