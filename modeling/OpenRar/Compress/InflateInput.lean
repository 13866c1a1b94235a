import OpenRar.Core.Bytes
import OpenRar.Foundation.LsbBits

/-!
# Input side of the DEFLATE decoder

Embedding of the bit reader of `compress/inflate.cpp`: a staging buffer that the input
callback fills, and an accumulator of up to 64 bits that is filled by single bytes or,
when eight bytes are staged, by one word.

The callback is asked for 64 KiB at a time and gives fewer only at the end of the input,
so the bytes it has still to give are a list.  `bits` is the stream that a state stands
for; every refill keeps it, and every read takes its bits off the front.
-/

namespace OpenRar.Compress

open List LsbBits

open OpenRar.Core (readLe)

/-- The fields of `Inflate` that the bit reader uses.  `inBuf` are the staged bytes from
`in_pos_` to `in_end_`, `source` those that the callback has still to deliver. -/
structure InflateInput where
  source : List UInt8
  inBuf : List UInt8
  inEof : Bool
  bitAcc : Nat
  bitCount : Nat
  realBits : Nat
  consumedBits : Nat
  truncated : Bool
  deriving DecidableEq, Repr

namespace InflateInput

/-- `IN_CHUNK` -/
def inChunk : Nat := 65536

/-- `reset`, before any input was asked for. -/
def start (source : List UInt8) : InflateInput where
  source := source
  inBuf := []
  inEof := false
  bitAcc := 0
  bitCount := 0
  realBits := 0
  consumedBits := 0
  truncated := false

variable (r : InflateInput)

/-- `refill_input` -/
def refillInput : Bool × InflateInput :=
  if r.inEof then (false, r)
  else
    let got := r.source.take inChunk
    (decide (got.length > 0),
      { r with
        source := r.source.drop inChunk
        inBuf := got
        inEof := decide (got.length < inChunk) })

/-- A byte above the bits of the accumulator. -/
def shiftIn (b : UInt8) (rest : List UInt8) : InflateInput :=
  { r with
    inBuf := rest
    bitAcc := (r.bitAcc ||| b.toNat <<< r.bitCount) % 2 ^ 64
    bitCount := r.bitCount + 8
    realBits := r.realBits + 8 }

/-- `pull_acc_byte` -/
def pullAccByte : Bool × InflateInput :=
  match r.inBuf with
  | b :: rest => (true, r.shiftIn b rest)
  | [] =>
    let next := r.refillInput
    match next.1, next.2.inBuf with
    | true, b :: rest => (true, next.2.shiftIn b rest)
    | _, _ => (false, next.2)

/-- The byte loops of `ensure_bits` and `peek_zero_fill`, which watch `real_bits_` and
`bit_count_`.  Every byte raises both by eight, so `count` passes are enough. -/
def pullLoop (level : InflateInput → Nat) (count : Nat) : Nat → InflateInput → Bool × InflateInput
  | 0, r => (decide (level r ≥ count), r)
  | fuel + 1, r =>
    if level r ≥ count then (true, r)
    else
      let next := r.pullAccByte
      if next.1 then pullLoop level count fuel next.2 else next

/-- The word refill, for at least eight staged bytes and at most 56 bits in the
accumulator. -/
def fillWord : InflateInput :=
  let v := readLe (r.inBuf.take 8)
  let bytes := (64 - r.bitCount) / 8
  { r with
    inBuf := r.inBuf.drop bytes
    bitAcc :=
      if bytes = 8 then v else (r.bitAcc ||| (v % 2 ^ (bytes * 8)) <<< r.bitCount) % 2 ^ 64
    bitCount := r.bitCount + bytes * 8
    realBits := r.realBits + bytes * 8 }

/-- `ensure_bits` -/
def ensureBits (count : Nat) : Bool × InflateInput :=
  if r.realBits ≥ count then (true, r)
  else
    let r := if r.inBuf.length ≥ 8 ∧ r.bitCount ≤ 56 then r.fillWord else r
    pullLoop realBits count count r

/-- `peek_zero_fill` -/
def peekZeroFill (count : Nat) : Nat × InflateInput :=
  let r := if r.bitCount < count ∧ r.inBuf.length ≥ 8 ∧ r.bitCount ≤ 56 then r.fillWord else r
  let r := (pullLoop bitCount count count r).2
  (if r.bitCount ≥ count then r.bitAcc % 2 ^ count else r.bitAcc % 2 ^ 32, r)

/-- `consume` -/
def consume (count : Nat) : InflateInput :=
  { r with
    bitAcc := r.bitAcc >>> count
    bitCount := r.bitCount - count
    realBits := r.realBits - count
    consumedBits := r.consumedBits + count }

/-- `get_bits` -/
def getBits (count : Nat) : Nat × InflateInput :=
  let next := r.ensureBits count
  if next.1 then (next.2.bitAcc % 2 ^ count, next.2.consume count)
  else (0, { next.2 with truncated := true })

/-- `align_byte` -/
def alignByte : InflateInput :=
  let rem := (8 - r.consumedBits % 8) % 8
  if rem = 0 then r
  else
    let next := r.ensureBits rem
    if next.1 then next.2.consume rem else { next.2 with truncated := true }

/-! ## The stream of a state -/

/-- The bits that have not been consumed. -/
def bits : List Bool :=
  ofNat r.bitCount r.bitAcc ++ ofBytes (r.inBuf ++ r.source)

/-- What holds of every state of the reader.  Bits enter the accumulator by whole bytes, so
those consumed and those held make whole bytes. -/
structure Sound : Prop where
  acc : r.bitAcc < 2 ^ r.bitCount
  real : r.realBits = r.bitCount
  count : r.bitCount ≤ 64
  eof : r.inEof = true → r.source = []
  aligned : (r.consumedBits + r.bitCount) % 8 = 0

/-- A refill: the stream is the same, with at least as much of it in the accumulator. -/
structure Refilled (r r' : InflateInput) : Prop where
  sound : r'.Sound
  bits : r'.bits = r.bits
  consumed : r'.consumedBits = r.consumedBits
  truncated : r'.truncated = r.truncated
  grown : r.bitCount ≤ r'.bitCount

variable {r} {count : Nat}

theorem Sound.refl (h : r.Sound) : Refilled r r :=
  ⟨h, rfl, rfl, rfl, le_rfl⟩

theorem Refilled.trans {r' r'' : InflateInput} (h : Refilled r r') (h' : Refilled r' r'') :
    Refilled r r'' where
  sound := h'.sound
  bits := h'.bits.trans h.bits
  consumed := h'.consumed.trans h.consumed
  truncated := h'.truncated.trans h.truncated
  grown := h.grown.trans h'.grown

@[simp]
theorem start_bits (source : List UInt8) : (start source).bits = ofBytes source := by
  simp [start, bits, ofNat]

theorem start_sound (source : List UInt8) : (start source).Sound where
  acc := by simp [start]
  real := rfl
  count := by simp [start]
  eof := by simp [start]
  aligned := by simp [start]

theorem bits_length (r : InflateInput) :
    r.bits.length = r.bitCount + 8 * (r.inBuf ++ r.source).length := by
  rw [bits, length_append, ofNat_length, ofBytes_length]

/-- The accumulator with more bits above those it holds. -/
theorem acc_or {acc value width : Nat} (hacc : acc < 2 ^ count) (hvalue : value < 2 ^ width)
    (hfit : count + width ≤ 64) :
    (acc ||| value <<< count) % 2 ^ 64 = acc + 2 ^ count * value ∧
      acc + 2 ^ count * value < 2 ^ (count + width) := by
  have hsum : acc ||| value <<< count = acc + 2 ^ count * value := by
    rw [Nat.lor_comm, ← Nat.shiftLeft_add_eq_or_of_lt hacc, Nat.shiftLeft_eq]
    ring
  have hlt : acc + 2 ^ count * value < 2 ^ (count + width) := by
    rw [Nat.pow_add]
    calc acc + 2 ^ count * value < 2 ^ count * (value + 1) := by
          rw [Nat.mul_add, Nat.mul_one]
          omega
      _ ≤ 2 ^ count * 2 ^ width := Nat.mul_le_mul_left _ hvalue
  refine ⟨?_, hlt⟩
  rw [hsum]
  exact Nat.mod_eq_of_lt (hlt.trans_le (Nat.pow_le_pow_right (by omega) hfit))

theorem shiftIn_refilled (h : r.Sound) {b : UInt8} {rest : List UInt8} (hbuf : r.inBuf = b :: rest)
    (hroom : r.bitCount ≤ 56) : Refilled r (r.shiftIn b rest) := by
  obtain ⟨hor, hlt⟩ := @acc_or _ _ b.toNat 8 h.acc b.toNat_lt (by omega)
  refine ⟨⟨?_, ?_, ?_, h.eof, ?_⟩, ?_, rfl, rfl, Nat.le_add_right _ _⟩
  · rw [shiftIn, hor]
    exact hlt
  · exact congrArg (· + 8) h.real
  · exact Nat.add_le_add_right hroom 8
  · have := h.aligned
    simp only [shiftIn]
    omega
  · simp only [bits, shiftIn, hor, ofNat_pack h.acc, hbuf, cons_append,
      ofBytes_cons, append_assoc]

/-- `refill_input` on an empty staging buffer: it fails at the end of the input only. -/
theorem refillInput_spec (h : r.Sound) (hempty : r.inBuf = []) :
    Refilled r r.refillInput.2 ∧ r.refillInput.2.bitCount = r.bitCount ∧
      (r.refillInput.1 = true → r.refillInput.2.inBuf ≠ []) ∧
      (r.refillInput.1 = false → r.bits.length = r.bitCount) := by
  have hlength := r.bits_length
  rw [hempty, nil_append] at hlength
  unfold refillInput
  split
  · rename_i heof
    rw [h.eof heof] at hlength
    exact ⟨h.refl, rfl, fun hfalse => (by cases hfalse), fun _ => by simpa using hlength⟩
  · refine ⟨⟨{ h with eof := ?_ }, ?_, rfl, rfl, le_rfl⟩, rfl, ?_, ?_⟩
    · intro hshort
      simp only [decide_eq_true_eq, length_take] at hshort
      rw [drop_eq_nil_iff]
      omega
    · simp [bits, hempty]
    · intro hgot hnil
      simp only at hnil
      rw [hnil] at hgot
      simp at hgot
    · intro hnone
      simp only [decide_eq_false_iff_not, length_take, inChunk] at hnone
      omega

/-- One byte more, or the end of the input. -/
theorem pullAccByte_spec (h : r.Sound) (hroom : r.bitCount ≤ 56) :
    Refilled r r.pullAccByte.2 ∧
      (r.pullAccByte.1 = true → r.pullAccByte.2.bitCount = r.bitCount + 8) ∧
      (r.pullAccByte.1 = false → r.bits.length = r.bitCount) := by
  unfold pullAccByte
  cases hbuf : r.inBuf with
  | cons b rest => exact ⟨shiftIn_refilled h hbuf hroom, fun _ => rfl, fun hf => by cases hf⟩
  | nil =>
    obtain ⟨hrefill, hcount, hsome, hnone⟩ := refillInput_spec h hbuf
    dsimp only
    split
    · rename_i b rest hok hnext
      have hshift := shiftIn_refilled hrefill.sound hnext (by omega)
      refine ⟨hrefill.trans hshift, fun _ => ?_, fun hf => by cases hf⟩
      rw [shiftIn, hcount]
    · rename_i hcases
      refine ⟨hrefill, fun hf => (by cases hf), fun _ => hnone ?_⟩
      by_contra htrue
      rw [Bool.not_eq_false] at htrue
      obtain ⟨b, rest, hcons⟩ := exists_cons_of_ne_nil (hsome htrue)
      exact hcases b rest htrue hcons

/-- The byte loop reaches the level or the end of the input. -/
theorem pullLoop_spec {level : InflateInput → Nat}
    (hlevel : ∀ r : InflateInput, r.Sound → level r = r.bitCount) (hcount : count ≤ 57)
    {fuel : Nat} (h : r.Sound) (hfuel : count ≤ r.bitCount + 8 * fuel) :
    Refilled r (pullLoop level count fuel r).2 ∧
      (pullLoop level count fuel r).1 = decide (count ≤ r.bits.length) ∧
      min count r.bits.length ≤ (pullLoop level count fuel r).2.bitCount := by
  have hheld : r.bitCount ≤ r.bits.length := by
    rw [bits_length]
    omega
  induction fuel generalizing r with
  | zero =>
    simp only [pullLoop, hlevel r h]
    refine ⟨h.refl, ?_, ?_⟩
    · rw [decide_eq_decide]
      omega
    · omega
  | succ fuel ih =>
    rw [pullLoop, hlevel r h]
    split
    · rename_i hreached
      refine ⟨h.refl, ?_, ?_⟩
      · rw [eq_comm, decide_eq_true_eq]
        omega
      · dsimp only
        omega
    · rename_i hshort
      obtain ⟨hrefill, hsome, hnone⟩ := pullAccByte_spec h (by omega)
      dsimp only
      split
      · rename_i hok
        have hmore := hsome hok
        obtain ⟨hloop, hresult, hmin⟩ := ih hrefill.sound (by omega)
          (by rw [bits_length]; omega)
        rw [hrefill.bits] at hresult hmin
        exact ⟨hrefill.trans hloop, hresult, hmin⟩
      · rename_i hfail
        rw [Bool.not_eq_true] at hfail
        have hend := hnone hfail
        have hgrown := hrefill.grown
        refine ⟨hrefill, ?_, ?_⟩
        · rw [hfail, eq_comm, decide_eq_false_iff_not]
          omega
        · omega

/-- The low bytes of a word are the bits of the bytes it was read from. -/
theorem ofNat_readLe {bytes : List UInt8} {k : Nat} (h : k ≤ bytes.length) :
    ofNat (8 * k) (readLe bytes) = ofBytes (bytes.take k) := by
  induction k generalizing bytes with
  | zero => simp [ofNat]
  | succ k ih =>
    obtain ⟨b, bytes, rfl⟩ := exists_cons_of_length_pos (Nat.lt_of_lt_of_le k.succ_pos h)
    rw [readLe, show 8 * (k + 1) = 8 + 8 * k by omega, show (256 : Nat) = 2 ^ 8 from rfl,
      ofNat_pack b.toNat_lt, ih (by simpa using h), take_succ_cons,
      ofBytes_cons]

/-- The word refill takes as many whole bytes as there is room for. -/
theorem fillWord_refilled (h : r.Sound) (hstaged : r.inBuf.length ≥ 8) (hroom : r.bitCount ≤ 56) :
    Refilled r r.fillWord := by
  have hbytes : (64 - r.bitCount) / 8 ≤ 8 := by omega
  have hfit : r.bitCount + (64 - r.bitCount) / 8 * 8 ≤ 64 := by omega
  generalize hk : (64 - r.bitCount) / 8 = k at hbytes hfit
  have hlen : k ≤ (r.inBuf.take 8).length := by
    rw [length_take]
    omega
  have hword : ofNat (k * 8) (readLe (r.inBuf.take 8) % 2 ^ (k * 8))
      = ofBytes (r.inBuf.take k) := by
    rw [ofNat_mod, Nat.mul_comm, ofNat_readLe hlen, take_take,
      Nat.min_eq_left hbytes]
  obtain ⟨hor, hlt⟩ := @acc_or _ _ (readLe (r.inBuf.take 8) % 2 ^ (k * 8)) (k * 8) h.acc
    (Nat.mod_lt _ (Nat.two_pow_pos _)) hfit
  -- all eight bytes fit only into an empty accumulator, and then nothing is masked
  have hacc : r.fillWord.bitAcc
      = r.bitAcc + 2 ^ r.bitCount * (readLe (r.inBuf.take 8) % 2 ^ (k * 8)) := by
    simp only [fillWord, hk]
    split
    · rename_i hfull
      subst hfull
      have hzero : r.bitCount = 0 := by omega
      have hempty : r.bitAcc = 0 := by
        have := h.acc
        rw [hzero] at this
        omega
      have hval : readLe (r.inBuf.take 8) < 2 ^ (8 * 8) := by
        have := OpenRar.Core.readLe_lt (r.inBuf.take 8)
        rw [length_take_of_le hstaged] at this
        exact this.trans_eq (by norm_num)
      rw [hempty, hzero, Nat.mod_eq_of_lt hval]
      simp
    · exact hor
  refine ⟨⟨?_, ?_, ?_, h.eof, ?_⟩, ?_, rfl, rfl, Nat.le_add_right _ _⟩
  · rw [hacc]
    simpa only [fillWord, hk] using hlt
  · exact congrArg (· + (64 - r.bitCount) / 8 * 8) h.real
  · simpa only [fillWord, hk] using hfit
  · have := h.aligned
    simp only [fillWord]
    omega
  · rw [bits, hacc]
    simp only [fillWord, hk]
    rw [ofNat_pack h.acc, hword, append_assoc, ← ofBytes_append, ← append_assoc,
      take_append_drop, bits]

/-! ## Reads -/

theorem bitCount_le_length (r : InflateInput) : r.bitCount ≤ r.bits.length := by
  rw [bits_length]
  omega

theorem ensureBits_spec (h : r.Sound) (hcount : count ≤ 57) :
    Refilled r (r.ensureBits count).2 ∧
      (r.ensureBits count).1 = decide (count ≤ r.bits.length) ∧
      min count r.bits.length ≤ (r.ensureBits count).2.bitCount := by
  have hheld := r.bitCount_le_length
  unfold ensureBits
  split
  · rename_i hreached
    rw [h.real] at hreached
    refine ⟨h.refl, ?_, ?_⟩
    · rw [eq_comm, decide_eq_true_eq]
      omega
    · dsimp only
      omega
  · have hword : Refilled r
        (if r.inBuf.length ≥ 8 ∧ r.bitCount ≤ 56 then r.fillWord else r) := by
      split
      · rename_i hroom
        exact fillWord_refilled h hroom.1 hroom.2
      · exact h.refl
    obtain ⟨hloop, hresult, hmin⟩ := pullLoop_spec (fun r hr => hr.real) hcount hword.sound
      (show count ≤ _ + 8 * count by omega)
    rw [hword.bits] at hresult hmin
    exact ⟨hword.trans hloop, hresult, hmin⟩

/-- The accumulator begins with the stream. -/
theorem acc_mod (hcount : count ≤ r.bitCount) :
    r.bitAcc % 2 ^ count = toNat (r.bits.take count) := by
  rw [bits, take_append_of_le_length (by simpa using hcount), ofNat_take hcount,
    toNat_ofNat]

theorem peekZeroFill_spec (h : r.Sound) (hcount : count ≤ 32) :
    Refilled r (r.peekZeroFill count).2 ∧
      (r.peekZeroFill count).1 = toNat (r.bits.take count) ∧
      min count r.bits.length ≤ (r.peekZeroFill count).2.bitCount := by
  have hword : Refilled r (if r.bitCount < count ∧ r.inBuf.length ≥ 8 ∧ r.bitCount ≤ 56
      then r.fillWord else r) := by
    split
    · rename_i hroom
      exact fillWord_refilled h hroom.2.1 hroom.2.2
    · exact h.refl
  obtain ⟨hloop, -, hmin⟩ := pullLoop_spec (fun r _ => rfl) (hcount.trans (by omega)) hword.sound
    (show count ≤ _ + 8 * count by omega)
  rw [hword.bits] at hmin
  have hall := hword.trans hloop
  refine ⟨hall, ?_, hmin⟩
  unfold peekZeroFill
  dsimp only
  generalize (pullLoop bitCount count count _).2 = r' at hall hmin ⊢
  split
  · rename_i hreached
    rw [acc_mod hreached, hall.bits]
  · rename_i hshort
    -- the end of the input: the accumulator holds all that is left
    have hsmall : r'.bitAcc < 2 ^ 32 :=
      hall.sound.acc.trans_le (Nat.pow_le_pow_right (by omega) (by omega))
    rw [Nat.mod_eq_of_lt hsmall, take_of_length_le (show r.bits.length ≤ count by omega),
      ← hall.bits, ← take_of_length_le (show r'.bits.length ≤ r'.bitCount by
        rw [hall.bits]; omega), ← acc_mod le_rfl, Nat.mod_eq_of_lt hall.sound.acc]

/-- A read: `count` bits have gone from the front of the stream. -/
structure Taken (r : InflateInput) (count : Nat) (r' : InflateInput) : Prop where
  sound : r'.Sound
  bits : r'.bits = r.bits.drop count
  consumed : r'.consumedBits = r.consumedBits + count
  truncated : r'.truncated = r.truncated

theorem Refilled.taken {r' r'' : InflateInput} (h : Refilled r r') (h' : Taken r' count r'') :
    Taken r count r'' where
  sound := h'.sound
  bits := by rw [h'.bits, h.bits]
  consumed := by rw [h'.consumed, h.consumed]
  truncated := by rw [h'.truncated, h.truncated]

theorem consume_taken (h : r.Sound) (hcount : count ≤ r.bitCount) :
    Taken r count (r.consume count) where
  sound :=
    { acc := by
        have hacc := h.acc
        rw [consume, Nat.shiftRight_eq_div_pow]
        rw [← Nat.sub_add_cancel hcount, Nat.pow_add] at hacc
        exact Nat.div_lt_of_lt_mul (by rwa [Nat.mul_comm])
      real := congrArg (· - count) h.real
      count := (Nat.sub_le _ _).trans h.count
      eof := h.eof
      aligned := by
        have := h.aligned
        simp only [consume]
        omega }
  bits := by
    simp only [consume, bits, Nat.shiftRight_eq_div_pow]
    rw [drop_append_of_le_length (by simpa using hcount), ofNat_drop hcount]
  consumed := rfl
  truncated := rfl

theorem getBits_taken (h : r.Sound) (hcount : count ≤ 57) (hle : count ≤ r.bits.length) :
    (r.getBits count).1 = toNat (r.bits.take count) ∧
      Taken r count (r.getBits count).2 := by
  obtain ⟨hrefill, hok, hmin⟩ := ensureBits_spec h hcount
  rw [Nat.min_eq_left hle] at hmin
  rw [getBits, hok]
  simp only [hle, decide_true, if_true]
  exact ⟨by rw [acc_mod hmin, hrefill.bits],
    hrefill.taken (consume_taken hrefill.sound hmin)⟩

/-- A field that is written next is read. -/
theorem getBits_ofNat (h : r.Sound) {value : Nat} (hcount : count ≤ 57) (hvalue : value < 2 ^ count)
    {rest : List Bool}
    (hbits : r.bits = ofNat count value ++ rest) :
    (r.getBits count).1 = value ∧ Taken r count (r.getBits count).2 := by
  obtain ⟨hread, htaken⟩ := getBits_taken h hcount
    (show count ≤ r.bits.length by rw [hbits]; simp)
  refine ⟨?_, htaken⟩
  rw [hread, hbits, take_left' (by simp), toNat_ofNat_of_lt hvalue]

/-- The bits up to the next byte are dropped. -/
theorem alignByte_taken (h : r.Sound) :
    Taken r ((8 - r.consumedBits % 8) % 8) r.alignByte := by
  have haligned := h.aligned
  have hlength := r.bits_length
  -- whole bytes are held, so the rest of the current byte is there
  have hle : (8 - r.consumedBits % 8) % 8 ≤ r.bits.length := by omega
  unfold alignByte
  dsimp only
  split
  · rename_i hzero
    rw [hzero]
    exact ⟨h, by simp, by simp, rfl⟩
  · obtain ⟨hrefill, hok, hmin⟩ :=
      ensureBits_spec h (show (8 - r.consumedBits % 8) % 8 ≤ 57 by omega)
    rw [Nat.min_eq_left hle] at hmin
    rw [hok]
    simp only [hle]
    exact hrefill.taken (consume_taken hrefill.sound hmin)

end InflateInput
end OpenRar.Compress
