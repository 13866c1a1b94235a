import OpenRar.Compress.Inflate
import OpenRar.Compress.InflateReads

/-!
# The DEFLATE decoder decodes DEFLATE

The output side is described by the data produced so far: the pieces given to the sink and
the open chunk make them up, and the buffer ends in as many of them as the window holds.
Every step of the decoder appends what the format says, so a valid stream is decoded to its
data, whatever stands behind it in the input.

A header may announce up to 32 distance codes; the decoder refuses more than 30.  The
result is for the streams below that bound.
-/

namespace OpenRar.Compress
namespace Inflate

open CanonicalCode OverlapCopy InflateInput List Option LsbBits

/-! ## Output -/

/-- The decoder has produced `out`.  Up to `limit` bytes the cap does not fire. -/
structure Holds (limit : Nat) (s : Inflate) (out : List UInt8) : Prop where
  cap : ∀ n ≤ limit, n % 2 ^ 64 ≤ s.maxOut
  length : s.buf.length = windowSize + s.outLen
  room : s.outLen ≤ outChunk
  sunk : s.sunk.flatten ++ s.buf.drop windowSize = out
  total : s.totalOut = s.sunk.flatten.length % 2 ^ 64
  fill : s.windowFill = min windowSize out.length
  window : ∃ recent, recent <:+ s.buf ∧ recent <:+ out ∧ recent.length = s.windowFill

/-- There is room for another byte. -/
structure Writable (limit : Nat) (s : Inflate) (out : List UInt8) : Prop
    extends Holds limit s out where
  writable : s.outLen < outChunk

/-- The sink refuses no piece of the first `limit` bytes. -/
def Takes (limit : Nat) (sink : InflateSink) : Prop :=
  ∀ pieces piece, (pieces.flatten ++ piece).length ≤ limit → sink pieces piece = true

section Output

variable {limit : Nat} {s : Inflate} {out : List UInt8} {sink : InflateSink}

theorem Holds.withInput (h : Holds limit s out) (r : InflateInput) :
    Holds limit { s with input := r } out :=
  { h with }

theorem Writable.withInput (h : Writable limit s out) (r : InflateInput) :
    Writable limit { s with input := r } out :=
  ⟨h.toHolds.withInput r, h.writable⟩

/-- The flush hands the chunk over, and the end of the buffer becomes the history. -/
theorem Holds.flushOutput (hsink : Takes limit sink)
    (h : Holds limit s out) (hlimit : out.length ≤ limit) :
    ∃ s', Inflate.flushOutput sink s = .ok s' ∧ Writable limit s' out ∧ s'.input = s.input ∧
      s'.sunk.flatten = out := by
  have hlength := h.length
  by_cases hempty : s.outLen = 0
  · refine ⟨s, if_pos hempty, ⟨h, ?_⟩, rfl, ?_⟩
    · rw [hempty]
      decide
    · have hsunk := h.sunk
      rwa [drop_eq_nil_iff.mpr (by omega), append_nil] at hsunk
  · have hchunk : (s.buf.drop windowSize).length = s.outLen := by
      rw [length_drop]
      omega
    have hsum : (s.totalOut + s.outLen) % 2 ^ 64 = out.length % 2 ^ 64 := by
      rw [h.total, ← hchunk, Nat.mod_add_mod, ← length_append, h.sunk]
    have hcap : ¬ (s.totalOut + s.outLen) % 2 ^ 64 > s.maxOut := by
      rw [hsum]
      exact Nat.not_lt.mpr (h.cap _ hlimit)
    have hflat : (s.sunk ++ [s.buf.drop windowSize]).flatten = out := by
      rw [flatten_append, flatten_singleton, h.sunk]
    have hflush : Inflate.flushOutput sink s = .ok
        { s with
          totalOut := (s.totalOut + s.outLen) % 2 ^ 64
          buf := s.buf.drop s.outLen
          outLen := 0
          sunk := s.sunk ++ [s.buf.drop windowSize] } := by
      rw [Inflate.flushOutput, if_neg hempty]
      simp only [if_neg hcap, hsink _ _ (h.sunk ▸ hlimit), not_true_eq_false, if_false]
    have hkept : (s.buf.drop s.outLen).length = windowSize := by
      rw [length_drop]
      omega
    refine ⟨_, hflush, ⟨⟨h.cap, hkept, Nat.zero_le _, ?_, ?_, h.fill, ?_⟩, Nat.zero_lt_succ _⟩, rfl,
      hflat⟩
    · dsimp only
      rw [hflat, drop_eq_nil_iff.mpr hkept.le, append_nil]
    · dsimp only
      rw [hflat, hsum]
    · obtain ⟨recent, hbuf, hout, hfill⟩ := h.window
      refine ⟨recent, ?_, hout, hfill⟩
      -- the window is no longer than the history that is kept
      have hle : recent.length ≤ (s.buf.drop s.outLen).length := by
        rw [hfill, h.fill, hkept]
        exact Nat.min_le_left _ _
      exact suffix_of_suffix_length_le hbuf (drop_suffix _ _) hle

theorem Holds.flushIfFull (hsink : Takes limit sink)
    (h : Holds limit s out) (hlimit : out.length ≤ limit) :
    ∃ s', Inflate.flushIfFull sink s = .ok s' ∧ Writable limit s' out ∧ s'.input = s.input := by
  by_cases hfull : s.outLen = outChunk
  · obtain ⟨s', hflush, hwritable, hinput, -⟩ := h.flushOutput hsink hlimit
    exact ⟨s', by rw [Inflate.flushIfFull, if_pos hfull, hflush], hwritable, hinput⟩
  · exact ⟨s, by rw [Inflate.flushIfFull, if_neg hfull],
      ⟨h, lt_of_le_of_ne h.room hfull⟩, rfl⟩

theorem Writable.append (h : Writable limit s out) {bytes : List UInt8}
    (hfit : bytes.length ≤ outChunk - s.outLen) : Holds limit (s.append bytes) (out ++ bytes) where
  cap := h.cap
  length := by
    simp only [Inflate.append, length_append, h.length]
    omega
  room := by
    have := h.writable
    simp only [Inflate.append]
    omega
  sunk := by
    have hle : windowSize ≤ s.buf.length := by
      rw [h.length]
      omega
    simp only [Inflate.append]
    rw [drop_append_of_le_length hle, ← append_assoc, h.sunk]
  total := h.total
  fill := by
    simp only [Inflate.append, h.fill, length_append]
    omega
  window := by
    obtain ⟨recent, ⟨old, hbuf⟩, ⟨older, hout⟩, hfill⟩ := h.window
    -- what was in the window and the new bytes, as far as the window reaches
    refine ⟨(recent ++ bytes).drop ((recent ++ bytes).length - (s.append bytes).windowFill),
      (drop_suffix _ _).trans ⟨old, by rw [← append_assoc, hbuf]; rfl⟩,
      (drop_suffix _ _).trans ⟨older, by rw [← append_assoc, hout]⟩, ?_⟩
    simp only [Inflate.append, length_drop, length_append]
    omega

theorem Writable.emit (hsink : Takes limit sink) {fuel : Nat}
    {data : List UInt8} (h : Writable limit s out) (hlimit : (out ++ data).length ≤ limit)
    (hfuel : data.length ≤ fuel) :
    ∃ s', Inflate.emit sink fuel data s = .ok s' ∧ Writable limit s' (out ++ data) ∧
      s'.input = s.input := by
  induction fuel generalizing s out data with
  | zero =>
    obtain rfl : data = [] := length_eq_zero_iff.mp (by omega)
    exact ⟨s, rfl, by rwa [append_nil], rfl⟩
  | succ fuel ih =>
    rw [Inflate.emit]
    split
    · rename_i hnone
      obtain rfl : data = [] := length_eq_zero_iff.mp hnone
      exact ⟨s, rfl, by rwa [append_nil], rfl⟩
    · rename_i hsome
      have hroom := h.writable
      generalize hn : min data.length (outChunk - s.outLen) = n
      have htake : (data.take n).length = n := by
        rw [length_take]
        omega
      have happ := h.append (show (data.take n).length ≤ outChunk - s.outLen by omega)
      have hsplit : out ++ data.take n ++ data.drop n = out ++ data := by
        rw [append_assoc, take_append_drop]
      rw [← hsplit, length_append] at hlimit
      obtain ⟨s1, hflush, h1, hinput⟩ := happ.flushIfFull hsink (by omega)
      obtain ⟨s2, hrest, h2, hinput'⟩ := ih h1 (by rw [length_append]; omega)
        (by rw [length_drop]; omega)
      rw [hsplit] at h2
      refine ⟨s2, ?_, h2, hinput'.trans hinput⟩
      simp [hflush, Except.bind, hrest]

theorem Writable.emitLiteral (hsink : Takes limit sink)
    (h : Writable limit s out) {b : UInt8} (hlimit : (out ++ [b]).length ≤ limit) :
    ∃ s', Inflate.emitLiteral sink s b = .ok s' ∧ Writable limit s' (out ++ [b]) ∧
      s'.input = s.input := by
  have hroom := h.writable
  have happ := h.append (show [b].length ≤ outChunk - s.outLen by
    rw [length_singleton]
    omega)
  obtain ⟨s1, hflush, h1, hinput⟩ := happ.flushIfFull hsink hlimit
  refine ⟨s1, ?_, h1, hinput⟩
  rw [Inflate.emitLiteral, ← hflush]
  have hfill : (if s.windowFill < windowSize then s.windowFill + 1 else s.windowFill)
      = min windowSize (s.windowFill + 1) := by
    have := h.fill
    split <;> omega
  rw [hfill]
  rfl

/-! ## Matches -/

/-- Whichever way it is written, a piece of a match repeats its source. -/
theorem copyPiece_eq {buf : List UInt8} {dist : Nat} (hpos : 0 < dist) (hle : dist ≤ buf.length)
    (chunk : Nat) : copyPiece buf dist chunk = period (buf.drop (buf.length - dist)) chunk := by
  have hsrc : (buf.drop (buf.length - dist)).length = dist := by
    rw [length_drop]
    omega
  unfold copyPiece
  dsimp only
  split
  · rename_i hblock
    rw [period_of_le (by omega)]
  · split
    · rename_i hone
      rw [period_of_length_one (by omega)]
      rfl
    · have hdouble := @doubling_period _ _ (buf.drop (buf.length - dist)) (by omega) chunk 1 chunk
        le_rfl le_rfl
      have hwhole := period_mul_add (buf.drop (buf.length - dist)) 1 chunk
      rw [Nat.one_mul, hsrc] at hdouble hwhole
      rw [period_of_le hsrc.ge, take_of_length_le hsrc.le] at hdouble hwhole
      rw [hdouble, hwhole, drop_left' hsrc]

theorem drop_of_suffix {recent xs : List UInt8} (h : recent <:+ xs) {dist : Nat}
    (hdist : dist ≤ recent.length) :
    xs.drop (xs.length - dist) = recent.drop (recent.length - dist) := by
  obtain ⟨old, rfl⟩ := h
  rw [drop_append, drop_eq_nil_iff.mpr (by rw [length_append]; omega),
    nil_append]
  congr 1
  rw [length_append]
  omega

theorem Writable.copyPiece (h : Writable limit s out) {dist : Nat} (hpos : 0 < dist)
    (hdist : dist ≤ s.windowFill) (chunk : Nat) :
    out ++ Inflate.copyPiece s.buf dist chunk = copyBytes out dist chunk := by
  obtain ⟨recent, hbuf, hout, hfill⟩ := h.window
  have hle : dist ≤ s.buf.length := by
    have := hbuf.length_le
    omega
  have hle' : dist ≤ out.length := by
    have := hout.length_le
    omega
  rw [copyPiece_eq hpos hle, copyBytes_eq hpos hle', drop_of_suffix hbuf (by omega),
    drop_of_suffix hout (by omega)]

theorem copyBytes_length (xs : List UInt8) (dist len : Nat) :
    (copyBytes xs dist len).length = xs.length + len := by
  induction len generalizing xs with
  | zero => rfl
  | succ len ih =>
    rw [copyBytes, ih, length_append, length_singleton]
    omega

theorem Writable.copyLoop (hsink : Takes limit sink) {fuel len dist : Nat}
    (h : Writable limit s out) (hpos : 0 < dist) (hdist : dist ≤ s.windowFill)
    (hlimit : out.length + len ≤ limit) (hfuel : len ≤ fuel) :
    ∃ s', Inflate.copyLoop sink dist fuel len s = .ok s' ∧
      Writable limit s' (copyBytes out dist len) ∧ s'.input = s.input := by
  induction fuel generalizing s out len with
  | zero =>
    obtain rfl : len = 0 := by omega
    exact ⟨s, rfl, h, rfl⟩
  | succ fuel ih =>
    rw [Inflate.copyLoop]
    split
    · rename_i hnone
      subst hnone
      exact ⟨s, rfl, h, rfl⟩
    · rename_i hsome
      have hroom := h.writable
      generalize hn : min len (outChunk - s.outLen) = n
      have hpiece := h.copyPiece hpos hdist n
      have hplen : (Inflate.copyPiece s.buf dist n).length = n := by
        have := congrArg List.length hpiece
        rw [length_append, copyBytes_length] at this
        omega
      have happ := h.append (show (Inflate.copyPiece s.buf dist n).length ≤ outChunk - s.outLen by
        omega)
      rw [hpiece] at happ
      obtain ⟨s1, hflush, h1, hinput⟩ := happ.flushIfFull hsink
        (by rw [copyBytes_length]; omega)
      -- the window does not shrink, so the distance stays within it
      have hfill1 := h1.fill
      have hfill := h.fill
      rw [copyBytes_length] at hfill1
      obtain ⟨s2, hrest, h2, hinput'⟩ := @ih s1 _ (len - n) h1 (by omega)
        (by rw [copyBytes_length]; omega) (by omega)
      rw [← copyBytes_add, Nat.add_sub_cancel' (by omega)] at h2
      refine ⟨s2, ?_, h2, hinput'.trans hinput⟩
      simp [hflush, Except.bind, hrest]

theorem Writable.windowCopy (hsink : Takes limit sink) {dist len : Nat}
    (h : Writable limit s out) (hpos : 0 < dist) (hwindow : dist ≤ windowSize)
    (hdist : dist ≤ out.length) (hlimit : out.length + len ≤ limit) :
    ∃ s', Inflate.windowCopy sink s dist len = .ok s' ∧
      Writable limit s' (copyBytes out dist len) ∧ s'.input = s.input := by
  have hfill := h.fill
  rw [Inflate.windowCopy, if_neg (by omega)]
  exact h.copyLoop hsink hpos (by omega) hlimit le_rfl

end Output

/-! ## Huffman blocks -/

theorem lengthTable_eq : lengthTable = Deflate.lengthTable := rfl

theorem distTable_eq : distTable = Deflate.distTable := rfl

theorem lengthTable_bits : ∀ i, (lengthTable.getD i (0, 0)).2 ≤ 57 := by
  intro i
  rcases Nat.lt_or_ge i 29 with hi | hi
  · have hall : ∀ i < 29, (lengthTable.getD i (0, 0)).2 ≤ 57 := by decide
    exact hall i hi
  · rw [getD_eq_default _ _ hi]
    decide

/-- Distances stay within the window. -/
theorem distTable_range {i extra : Nat} (hi : i < 30)
    (hextra : extra < 2 ^ (distTable.getD i (0, 0)).2) :
    (distTable.getD i (0, 0)).2 ≤ 57 ∧ 0 < (distTable.getD i (0, 0)).1 + extra ∧
      (distTable.getD i (0, 0)).1 + extra ≤ windowSize := by
  have hall : ∀ i < 30, (distTable.getD i (0, 0)).2 ≤ 57 ∧ 0 < (distTable.getD i (0, 0)).1 ∧
      (distTable.getD i (0, 0)).1 + 2 ^ (distTable.getD i (0, 0)).2 ≤ windowSize + 1 := by decide
  obtain ⟨hbits, hpos, hmax⟩ := hall i hi
  omega

theorem readExtra_at {r : InflateInput} {total extra : Nat} {entry : Nat × Nat} {rest : List Bool}
    (h : At r total (ofNat entry.2 extra ++ rest)) (hbits : entry.2 ≤ 57)
    (hextra : extra < 2 ^ entry.2) :
    ∃ r', readExtra entry r = .ok (entry.1 + extra, r') ∧ At r' total rest := by
  by_cases hnone : entry.2 = 0
  · rw [hnone] at h hextra
    obtain rfl : extra = 0 := by omega
    exact ⟨r, by rw [readExtra, if_neg (not_not.mpr hnone)]; rfl, h⟩
  · obtain ⟨r', hread, hat⟩ := h.field hbits hextra
    refine ⟨r', ?_, hat⟩
    rw [readExtra, if_pos hnone, hread]
    rfl

theorem token_length_le {out out' : List UInt8} {tok : Deflate.Token}
    (h : tok.apply out = some out') : out.length ≤ out'.length := by
  cases tok with
  | literal b =>
    cases h
    simp
  | copy lenIndex lenExtra distSym distExtra =>
    simp only [Deflate.Token.apply] at h
    split at h
    · cases h
      rw [copyBytes_length]
      omega
    · cases h

theorem applyTokens_length_le {out out' : List UInt8} {toks : List Deflate.Token}
    (h : Deflate.applyTokens out toks = some out') : out.length ≤ out'.length := by
  induction toks generalizing out with
  | nil => exact (congrArg List.length (Option.some.inj h)).le
  | cons tok toks ih =>
    obtain ⟨mid, hmid, h⟩ := bind_eq_some_iff.mp h
    exact (token_length_le hmid).trans (ih h)

section Body

variable {limit total : Nat} {sink : InflateSink} {lit dist : List Nat}

/-- **The body loop appends what the tokens say** and stops behind the end of block. -/
theorem decodeBlockBody_tokens (hsink : Takes limit sink)
    (hlit : Deflate.Usable lit) (hdist : Deflate.Usable dist) {toks : List Deflate.Token}
    (hcoded : Deflate.BodyCoded lit dist toks) {s : Inflate} {out out' : List UInt8}
    (happly : Deflate.applyTokens out toks = some out') (h : Writable limit s out)
    {rest : List Bool} (hat : At s.input total (Deflate.bodyBits lit dist toks ++ rest))
    (hlimit : out'.length ≤ limit) {fuel : Nat} (hfuel : toks.length < fuel) :
    ∃ s', decodeBlockBody sink (InflateTable.tablesOf lit) (InflateTable.tablesOf dist) fuel s
        = .ok s' ∧ Writable limit s' out' ∧ At s'.input total rest := by
  induction toks generalizing s out fuel with
  | nil =>
    obtain rfl : out = out' := Option.some.inj happly
    obtain ⟨fuel, rfl⟩ : ∃ n, fuel = n + 1 := ⟨fuel - 1, by simp at hfuel; omega⟩
    obtain ⟨r, hread, hat⟩ := hat.nextSymbol hlit hcoded.endOfBlock
    refine ⟨{ s with input := r }, ?_, h.withInput r, hat⟩
    rw [decodeBlockBody, hread]
    rfl
  | cons tok toks ih =>
    obtain ⟨fuel, rfl⟩ : ∃ n, fuel = n + 1 := ⟨fuel - 1, by simp at hfuel; omega⟩
    obtain ⟨mid, hmid, happly⟩ := bind_eq_some_iff.mp happly
    obtain ⟨htok, htoks⟩ := forall_mem_cons.mp hcoded.tokens
    have hmidLimit : mid.length ≤ limit := (applyTokens_length_le happly).trans hlimit
    have hnext := fun {s : Inflate} hw ha => @ih ⟨htoks, hcoded.endOfBlock⟩ s mid happly hw ha fuel
      (by simp at hfuel; omega)
    simp only [Deflate.bodyBits, flatMap_cons, append_assoc] at hat
    rw [← append_assoc (toks.flatMap _), ← Deflate.bodyBits] at hat
    cases tok with
    | literal b =>
      cases hmid
      obtain ⟨r, hread, hat⟩ := hat.nextSymbol hlit htok
      obtain ⟨s1, hemit, h1, hinput⟩ := (h.withInput r).emitLiteral hsink hmidLimit
      obtain ⟨s2, hloop, h2, hat2⟩ := hnext h1 (by rw [hinput]; exact hat)
      refine ⟨s2, ?_, h2, hat2⟩
      rw [decodeBlockBody, hread]
      simp [if_pos b.toNat_lt, hemit, Except.bind, hloop]
    | copy lenIndex lenExtra distSym distExtra =>
      obtain ⟨hlenIndex, hlenUsed, hlenExtra, hdistSym, hdistUsed, hdistExtra⟩ := htok
      simp only [Deflate.Token.apply] at hmid
      split at hmid
      swap
      · cases hmid
      rename_i hreach
      cases hmid
      rw [copyBytes_length] at hmidLimit
      simp only [Deflate.Token.bits, append_assoc] at hat
      obtain ⟨r1, hread1, hat1⟩ := hat.nextSymbol hlit hlenUsed
      obtain ⟨r2, hread2, hat2⟩ := readExtra_at hat1 (lengthTable_bits lenIndex) hlenExtra
      obtain ⟨r3, hread3, hat3⟩ := hat2.nextSymbol hdist hdistUsed
      obtain ⟨hbits, hpos, hwindow⟩ := distTable_range hdistSym hdistExtra
      rw [distTable_eq] at hbits hpos hwindow
      obtain ⟨r4, hread4, hat4⟩ := readExtra_at hat3 hbits hdistExtra
      obtain ⟨s1, hcopy, h1, hinput⟩ := (h.withInput r4).windowCopy hsink hpos hwindow hreach
        hmidLimit
      obtain ⟨s2, hloop, h2, hat5⟩ := hnext h1 (by rw [hinput]; exact hat4)
      refine ⟨s2, ?_, h2, hat5⟩
      rw [decodeBlockBody, hread1]
      simp only [show ¬ 257 + lenIndex < 256 by omega, show ¬ 257 + lenIndex = 256 by omega,
        show 257 + lenIndex ≤ 285 by omega, if_false, if_true, Nat.add_sub_cancel_left,
        lengthTable_eq, distTable_eq, hread2, lift, Except.bind, hread3,
        if_neg (show ¬ distSym > 29 by omega), hread4, hcopy, hloop]

theorem tokens_length_le (toks : List Deflate.Token)
    (hcoded : ∀ tok ∈ toks, tok.Coded lit dist) :
    toks.length ≤ (toks.flatMap (Deflate.Token.bits lit dist)).length := by
  induction toks with
  | nil => exact le_rfl
  | cons tok toks ih =>
    obtain ⟨htok, htoks⟩ := forall_mem_cons.mp hcoded
    have hpos : 0 < (tok.bits lit dist).length := by
      cases tok with
      | literal b =>
        rw [Deflate.Token.bits, codeword_length]
        exact Nat.pos_of_ne_zero htok
      | copy lenIndex lenExtra distSym distExtra =>
        have := htok.2.1
        rw [Deflate.Token.bits, length_append, codeword_length]
        omega
    have := ih htoks
    rw [flatMap_cons, length_append, length_cons]
    omega

end Body

/-! ## Stored blocks -/

section Stored

variable {limit total : Nat} {sink : InflateSink} {rest : List Bool}

variable {data : List UInt8} {n : Nat}

/-- The bytes that the accumulator still holds.  If some are left, it is empty: it is filled
by whole bytes, and the block starts at a byte. -/
theorem drainStored_bytes (hsink : Takes limit sink)
    {s : Inflate} {out : List UInt8} (h : Writable limit s out)
    (hat : At s.input total (ofBytes data ++ rest))
    (hbyte : s.input.consumedBits % 8 = 0) (hlimit : (out ++ data).length ≤ limit) :
    ∃ k s', drainStored sink data.length s = .ok ((data.drop k).length, s') ∧
      Writable limit s' (out ++ data.take k) ∧
      At s'.input total (ofBytes (data.drop k) ++ rest) ∧
      ((data.drop k).length > 0 → s'.input.bitCount = 0) := by
  induction data generalizing s out with
  | nil => exact ⟨0, s, rfl, by simpa using h, hat, by simp⟩
  | cons b data ih =>
    rw [length_cons, drainStored]
    split
    · rw [ofBytes_cons, append_assoc] at hat
      obtain ⟨hread, hat1⟩ := hat.getBits (by decide) b.toNat_lt
      have hsplit : out ++ [b] ++ data = out ++ b :: data := by simp
      rw [← hsplit, length_append] at hlimit
      obtain ⟨s1, hemit, h1, hinput⟩ := (h.withInput (s.input.getBits 8).2).emitLiteral (b := b)
        hsink (by omega)
      have hwhole := hat.whole
      have hwhole1 := hat1.whole
      rw [length_append, ofNat_length] at hwhole
      obtain ⟨k, s2, hloop, h2, hat2, hzero⟩ := ih h1 (by rw [hinput]; exact hat1)
        (by rw [hinput]; dsimp only; omega) (by rw [length_append]; omega)
      refine ⟨k + 1, s2, ?_, by simpa using h2, by simpa using hat2, by simpa using hzero⟩
      simp [hread, hemit, Except.bind, hloop]
    · rename_i hfew
      refine ⟨0, s, rfl, by simpa using h, hat, fun _ => ?_⟩
      have haligned := hat.sound.aligned
      rw [hat.sound.real] at hfew
      omega

/-- Bytes taken straight from the staging buffer. -/
theorem dropStaged_at {r : InflateInput} (hzero : r.bitCount = 0)
    (hat : At r total (ofBytes data ++ rest)) (hstaged : n ≤ r.inBuf.length)
    (hn : n ≤ data.length) :
    r.inBuf.take n = data.take n ∧
      At { r with inBuf := r.inBuf.drop n, consumedBits := r.consumedBits + n * 8 } total
        (ofBytes (data.drop n) ++ rest) := by
  have hbits := hat.bits
  have hacc : ofNat r.bitCount r.bitAcc = [] := by rw [hzero]; rfl
  rw [InflateInput.bits, hacc, nil_append, ← take_append_drop n r.inBuf,
    append_assoc, ofBytes_append (r.inBuf.take n), ← take_append_drop n data,
    ofBytes_append (data.take n), append_assoc] at hbits
  have hbytes := ofBytes_append_inj (by rw [length_take, length_take]; omega) hbits
  rw [hbytes, append_cancel_left_eq] at hbits
  have haligned := hat.sound.aligned
  refine ⟨hbytes, { hat.sound with aligned := ?_ }, hat.intact, ?_, ?_⟩
  · dsimp only
    omega
  · have hwhole := hat.whole
    simp only [length_append, ofBytes_length, length_drop] at hwhole ⊢
    omega
  · simp only [InflateInput.bits, hacc]
    exact hbits

theorem copyStored_bytes (hsink : Takes limit sink) {fuel : Nat} {s : Inflate} {out : List UInt8}
    (h : Writable limit s out)
    (hat : At s.input total (ofBytes data ++ rest))
    (hzero : data.length > 0 → s.input.bitCount = 0) (hlimit : (out ++ data).length ≤ limit)
    (hfuel : data.length ≤ fuel) :
    ∃ s', copyStored sink fuel data.length s = .ok s' ∧ Writable limit s' (out ++ data) ∧
      At s'.input total rest := by
  induction fuel generalizing data s out with
  | zero =>
    obtain rfl : data = [] := length_eq_zero_iff.mp (by omega)
    exact ⟨s, rfl, by simpa using h, hat⟩
  | succ fuel ih =>
    rw [copyStored]
    split
    · rename_i hnone
      obtain rfl : data = [] := length_eq_zero_iff.mp hnone
      exact ⟨s, rfl, by simpa using h, hat⟩
    · rename_i hsome
      have hcount := hzero (Nat.pos_of_ne_zero hsome)
      -- the staging buffer is not empty, or becomes so
      obtain ⟨p, hp, hok, hatp, hcountp, hstaged⟩ : ∃ p : Bool × InflateInput,
          (if s.input.inBuf = [] then s.input.refillInput else (true, s.input)) = p ∧
          p.1 = true ∧ At p.2 total (ofBytes data ++ rest) ∧ p.2.bitCount = 0 ∧
          0 < p.2.inBuf.length := by
        by_cases hempty : s.input.inBuf = []
        · obtain ⟨hrefill, hsame, hgot, hend⟩ := refillInput_spec hat.sound hempty
          have hmore : s.input.refillInput.1 = true := by
            by_contra hfalse
            have := hend (by simpa using hfalse)
            rw [hat.bits, length_append, ofBytes_length] at this
            omega
          refine ⟨_, if_pos hempty, hmore, ⟨hrefill.sound, hrefill.truncated.trans hat.intact, ?_,
            hrefill.bits.trans hat.bits⟩, hsame.trans hcount,
            length_pos_iff.mpr (hgot hmore)⟩
          rw [hrefill.consumed]
          exact hat.whole
        · exact ⟨_, if_neg hempty, rfl, hat, hcount, length_pos_iff.mpr hempty⟩
      simp only [hp, hok, not_true_eq_false, if_false]
      generalize hn : min data.length p.2.inBuf.length = n
      obtain ⟨hbytes, hat1⟩ := dropStaged_at hcountp hatp (show n ≤ _ by omega)
        (show n ≤ _ by omega)
      have hsplit : out ++ data.take n ++ data.drop n = out ++ data := by
        rw [append_assoc, take_append_drop]
      rw [← hsplit, length_append] at hlimit
      obtain ⟨s1, hemit, h1, hinput⟩ := @Writable.emit limit _ out sink hsink n (data.take n)
        (h.withInput p.2) (by omega) (by rw [length_take]; omega)
      have hinput' : p.2 = s1.input := hinput.symm
      rw [hinput'] at hat1 hcountp
      obtain ⟨s2, hloop, h2, hat2⟩ := ih (h1.withInput _) hat1 (fun _ => hcountp)
        (by rw [length_append]; omega) (by rw [length_drop]; omega)
      rw [hsplit] at h2
      refine ⟨s2, ?_, h2, hat2⟩
      rw [length_drop] at hloop
      simp [hbytes, hemit, Except.bind, hloop]

theorem xor_complement (h : n ≤ 0xFFFF) : n ^^^ 0xFFFF = 0xFFFF - n := by
  have hnot := BitVec.toNat_not (x := BitVec.ofNat 16 n)
  rw [← BitVec.xor_allOnes, BitVec.toNat_xor, BitVec.toNat_allOnes, BitVec.toNat_ofNat,
    Nat.mod_eq_of_lt (by omega)] at hnot
  exact hnot

theorem decodeStored_bytes (hsink : Takes limit sink)
    {skipped : List Bool} {s : Inflate} {out : List UInt8}
    (h : Writable limit s out)
    (hat : At s.input total (skipped ++ (ofNat 16 data.length
      ++ (ofNat 16 (0xFFFF - data.length) ++ (ofBytes data ++ rest)))))
    (hskipped : skipped.length = Deflate.toByte s.input.consumedBits)
    (hdata : data.length ≤ 0xFFFF) (hlimit : (out ++ data).length ≤ limit) :
    ∃ s', decodeStored sink s = .ok s' ∧ Writable limit s' (out ++ data) ∧
      At s'.input total rest := by
  have haligned := alignByte_taken hat.sound
  have hat1 := hat.taken hskipped haligned
  have hconsumed := haligned.consumed
  obtain ⟨hlen, hat2⟩ := hat1.getBits (by decide) (show data.length < 2 ^ 16 by omega)
  obtain ⟨hnlen, hat3⟩ := hat2.getBits (by decide) (show 0xFFFF - data.length < 2 ^ 16 by omega)
  have hwhole1 := hat1.whole
  have hwhole3 := hat3.whole
  simp only [length_append, ofNat_length] at hwhole1 hwhole3
  have hbyte : ((s.input.alignByte.getBits 16).2.getBits 16).2.consumedBits % 8 = 0 := by
    omega
  obtain ⟨k, s1, hdrain, h1, hat4, hzero⟩ := drainStored_bytes hsink (h.withInput _) hat3
    hbyte hlimit
  have hsplit : out ++ data.take k ++ data.drop k = out ++ data := by
    rw [append_assoc, take_append_drop]
  obtain ⟨s2, hcopy, h2, hat5⟩ := copyStored_bytes hsink h1 hat4 hzero (by rwa [hsplit]) le_rfl
  rw [hsplit] at h2
  refine ⟨s2, ?_, h2, hat5⟩
  rw [decodeStored]
  simp only [hat1.intact, hat3.intact, Bool.false_eq_true, if_false, hlen, hnlen,
    xor_complement hdata,
    ne_eq, not_true_eq_false, hdrain, Except.bind]
  rw [if_neg (by rintro ⟨hleft, hheld⟩; exact hheld (hzero hleft))]
  exact hcopy

end Stored

/-! ## Streams -/

/-- A block whose header, if it has one, stays within the 30 distance codes in use. -/
def Accepted : Deflate.Block → Prop
  | .dynamic header _ => header.hdist ≤ 30
  | _ => True

theorem fixedTables_eq :
    fixedTables = some (InflateTable.tablesOf Deflate.fixedLitLen,
      InflateTable.tablesOf Deflate.fixedDist) := by
  have hlit := @InflateTable.build_usable Deflate.fixedLitLen Deflate.fixedLitLen_code.usable
    (by decide +kernel) false fun _ => by decide +kernel
  have hdist := @InflateTable.build_usable Deflate.fixedDist Deflate.fixedDist_code.usable
    (by decide +kernel) false fun _ => by decide +kernel
  rw [Deflate.fixedLitLen] at hlit
  rw [Deflate.fixedDist] at hdist
  rw [fixedTables, hlit, hdist]
  rfl

theorem block_length_le {out out' : List UInt8} {block : Deflate.Block}
    (h : block.apply out = some out') : out.length ≤ out'.length := by
  cases block with
  | stored skipped data =>
    cases h
    simp
  | fixed tokens => exact applyTokens_length_le h
  | dynamic header tokens => exact applyTokens_length_le h

theorem applyBlocks_length_le {out out' : List UInt8} {blocks : List Deflate.Block}
    (h : Deflate.applyBlocks out blocks = some out') : out.length ≤ out'.length := by
  induction blocks generalizing out with
  | nil => exact (congrArg List.length (Option.some.inj h)).le
  | cons block blocks ih =>
    obtain ⟨mid, hmid, h⟩ := bind_eq_some_iff.mp h
    exact (block_length_le hmid).trans (ih h)

section Streams

variable {limit total : Nat} {sink : InflateSink} {rest : List Bool}

theorem body_fuel {r : InflateInput} {lit dist : List Nat} {toks : List Deflate.Token}
    (hcoded : Deflate.BodyCoded lit dist toks)
    (hat : At r total (Deflate.bodyBits lit dist toks ++ rest)) :
    toks.length < r.bits.length + 1 := by
  have := tokens_length_le toks hcoded.tokens
  rw [hat.bits, Deflate.bodyBits, length_append, length_append]
  omega

/-- **A valid block is decoded**, and the reader stands behind it. -/
theorem decodeBlock_valid (hsink : Takes limit sink)
    {block : Deflate.Block} {s : Inflate} {out out' : List UInt8} (h : Writable limit s out)
    (hvalid : block.Valid s.input.consumedBits) (haccepted : Accepted block) (final : Bool)
    (hat : At s.input total (final :: (block.bits ++ rest)))
    (happly : block.apply out = some out') (hlimit : out'.length ≤ limit) :
    ∃ s', decodeBlock sink s = .ok (final, s') ∧ Writable limit s' out' ∧
      At s'.input total rest := by
  have hfinal : final :: (block.bits ++ rest)
      = ofNat 1 final.toNat ++ (block.bits ++ rest) := by
    cases final <;> rfl
  have hwhole := hat.whole
  rw [hfinal] at hat
  obtain ⟨r1, hread1, hat1⟩ := hat.field (by decide) (by cases final <;> decide)
  have hflag : decide (final.toNat ≠ 0) = final := by cases final <;> rfl
  cases block with
  | stored skipped data =>
    cases happly
    obtain ⟨hskipped, hdata⟩ := hvalid
    simp only [Deflate.Block.bits, append_assoc] at hat1
    obtain ⟨r2, hread2, hat2⟩ := hat1.field (by decide) (by decide)
    have hconsumed : r2.consumedBits = s.input.consumedBits + 3 := by
      have hwhole2 := hat2.whole
      simp only [Deflate.Block.bits, length_append, length_cons,
        ofNat_length] at hwhole hwhole2
      omega
    obtain ⟨s1, hbody, h1, hat3⟩ := decodeStored_bytes hsink (h.withInput r2) hat2
      (by rw [hskipped, ← hconsumed]) hdata hlimit
    refine ⟨s1, ?_, h1, hat3⟩
    simp [decodeBlock, hread1, hread2, lift, Except.bind, hbody, Except.map]
  | fixed tokens =>
    simp only [Deflate.Block.bits, append_assoc] at hat1
    obtain ⟨r2, hread2, hat2⟩ := hat1.field (by decide) (by decide)
    obtain ⟨s1, hbody, h1, hat3⟩ := decodeBlockBody_tokens hsink Deflate.fixedLitLen_code.usable
      Deflate.fixedDist_code.usable hvalid happly (h.withInput r2) hat2 hlimit
      (body_fuel hvalid hat2)
    refine ⟨s1, ?_, h1, hat3⟩
    simp [decodeBlock, hread1, hread2, lift, Except.bind, fixedTables_eq, hbody, Except.map]
  | dynamic header tokens =>
    obtain ⟨hheader, hcoded⟩ := hvalid
    simp only [Deflate.Block.bits, append_assoc] at hat1
    obtain ⟨r2, hread2, hat2⟩ := hat1.field (by decide) (by decide)
    obtain ⟨r3, htables, hat3⟩ := hat2.readDynamicTables hheader haccepted
    obtain ⟨s1, hbody, h1, hat4⟩ := decodeBlockBody_tokens hsink hheader.litLenCode.usable
      hheader.distCode.usable hcoded happly (h.withInput r3) hat3 hlimit (body_fuel hcoded hat3)
    refine ⟨s1, ?_, h1, hat4⟩
    simp [decodeBlock, hread1, hread2, lift, Except.bind, htables, hbody, Except.map]

variable {blocks : List Deflate.Block}

theorem decodeLoop_blocks (hsink : Takes limit sink) (hne : blocks ≠ []) {s : Inflate}
    {out out' : List UInt8}
    (h : Writable limit s out) (hvalid : Deflate.ValidBlocks s.input.consumedBits blocks)
    (haccepted : ∀ block ∈ blocks, Accepted block)
    (hat : At s.input total (Deflate.streamBits blocks ++ rest))
    (happly : Deflate.applyBlocks out blocks = some out') (hlimit : out'.length ≤ limit)
    {fuel : Nat} (hfuel : blocks.length ≤ fuel) :
    ∃ s', decodeLoop sink fuel s = .ok s' ∧ Writable limit s' out' ∧ At s'.input total rest := by
  induction blocks generalizing s out fuel with
  | nil => exact absurd rfl hne
  | cons block blocks ih =>
    obtain ⟨fuel, rfl⟩ : ∃ n, fuel = n + 1 := ⟨fuel - 1, by simp at hfuel; omega⟩
    obtain ⟨hblock, hblocks⟩ := hvalid
    obtain ⟨hfirst, hrest⟩ := forall_mem_cons.mp haccepted
    obtain ⟨mid, hmid, happly⟩ := bind_eq_some_iff.mp happly
    have hmidLimit := (applyBlocks_length_le happly).trans hlimit
    cases blocks with
    | nil =>
      obtain rfl : mid = out' := Option.some.inj happly
      obtain ⟨s1, hdecode, h1, hat1⟩ := decodeBlock_valid hsink h hblock hfirst true hat hmid hlimit
      exact ⟨s1, by rw [decodeLoop, hdecode]; rfl, h1, hat1⟩
    | cons next blocks =>
      rw [Deflate.streamBits, cons_append, append_assoc] at hat
      obtain ⟨s1, hdecode, h1, hat1⟩ := decodeBlock_valid hsink h hblock hfirst false hat hmid
        hmidLimit
      -- the position of the next block
      have hwhole := hat.whole
      have hwhole1 := hat1.whole
      have hpos : s1.input.consumedBits = s.input.consumedBits + 1 + block.bits.length := by
        rw [length_cons, length_append] at hwhole
        omega
      obtain ⟨s2, hloop, h2, hat2⟩ :=
        ih (by simp) h1 (by rw [hpos]; exact hblocks) hrest hat1 happly
        (by simpa using hfuel)
      refine ⟨s2, ?_, h2, hat2⟩
      rw [decodeLoop, hdecode]
      exact hloop

theorem blocks_length_le (blocks : List Deflate.Block) :
    blocks.length ≤ (Deflate.streamBits blocks).length := by
  induction blocks with
  | nil => exact le_rfl
  | cons block blocks ih =>
    cases blocks with
    | nil => simp [Deflate.streamBits]
    | cons next blocks =>
      rw [length_cons] at ih
      simp only [Deflate.streamBits, length_cons, length_append]
      omega

/-- The run over a valid stream, for a sink that takes its data. -/
theorem run_stream {sink : InflateSink} {data : List UInt8}
    (hstream : Deflate.Stream blocks data) (hsink : Takes data.length sink)
    (haccepted : ∀ block ∈ blocks, Accepted block) {source : List UInt8} {rest : List Bool}
    (hsource : ofBytes source = Deflate.streamBits blocks ++ rest) {history : List UInt8}
    (hhistory : history.length = windowSize) {maxOut : Nat}
    (hcap : maxOut = unlimited ∨ data.length ≤ maxOut) :
    ∃ s, run sink maxOut history source = .ok s ∧ s.sunk.flatten = data := by
  have hallowed : ∀ n ≤ data.length, n % 2 ^ 64 ≤ maxOut := by
    intro n hn
    rcases hcap with rfl | hcap
    · exact Nat.le_pred_of_lt (Nat.mod_lt _ (Nat.two_pow_pos 64))
    · exact (Nat.mod_le _ _).trans (hn.trans hcap)
  have hwindow : history.drop windowSize = [] := drop_eq_nil_iff.mpr hhistory.le
  have hstart : Writable data.length
      { input := InflateInput.start source, maxOut := maxOut, buf := history, outLen := 0,
        windowFill := 0, totalOut := 0, sunk := [] } [] :=
    { cap := hallowed
      length := hhistory
      room := Nat.zero_le _
      sunk := hwindow
      total := rfl
      fill := rfl
      window := ⟨[], nil_suffix, nil_suffix, rfl⟩
      writable := Nat.zero_lt_succ _ }
  have hat := InflateInput.start_at source
  rw [hsource] at hat
  have hlength := congrArg List.length hsource
  rw [ofBytes_length, length_append] at hlength
  have hblocks := blocks_length_le blocks
  obtain ⟨s1, hloop, h1, hat1⟩ := decodeLoop_blocks hsink hstream.nonempty hstart hstream.valid
    haccepted hat hstream.content le_rfl (show blocks.length ≤ 8 * source.length + 1 by omega)
  obtain ⟨s2, hflush, -, -, hsunk⟩ := h1.toHolds.flushOutput hsink le_rfl
  refine ⟨s2, ?_, hsunk⟩
  rw [run, hloop]
  exact hflush

end Streams

/-- **DEFLATE decoding.**  For every valid stream whose dynamic headers announce at most 30
distance codes, whatever follows it in the input, and a cap that is not below the size of
the data, the decoder succeeds, and the pieces that its sink receives make up the data of
the stream. -/
theorem decode_stream {sink : InflateSink} (hsink : ∀ pieces piece, sink pieces piece = true)
    {blocks : List Deflate.Block} {data : List UInt8} (hstream : Deflate.Stream blocks data)
    (haccepted : ∀ block ∈ blocks, Accepted block) {source : List UInt8} {rest : List Bool}
    (hsource : ofBytes source = Deflate.streamBits blocks ++ rest) {history : List UInt8}
    (hhistory : history.length = windowSize) {maxOut : Nat}
    (hcap : maxOut = unlimited ∨ data.length ≤ maxOut) :
    ∃ pieces, decode sink maxOut history source = .ok pieces ∧ pieces.flatten = data := by
  obtain ⟨s, hrun, hsunk⟩ := run_stream hstream (fun _ _ _ => hsink _ _) haccepted hsource
    hhistory hcap
  exact ⟨s.sunk, by rw [decode, hrun], hsunk⟩

/-- One fixed block with a literal and a copy of distance one, and a byte behind it. -/
theorem decode_stream_run :
    ∃ pieces, decode (fun _ _ => true) unlimited (List.replicate windowSize 0)
      [0x4B, 0x04, 0x01, 0, 0xFF]
        = .ok pieces ∧ pieces.flatten = List.replicate 5 97 :=
  @decode_stream (fun _ _ => true) (fun _ _ => rfl) [.fixed [.literal 97, .copy 1 0 0 0]] _
    ⟨by decide, by decide +kernel, by decide +kernel⟩ (by simp [Accepted]) _
    (List.replicate 2 false ++ List.replicate 8 true) (by decide +kernel) _ length_replicate _
    (Or.inl rfl)

/-- The end of block alone, behind a header that announces 32 distance codes, none of them
used. -/
def manyDistCodes : Deflate.Block :=
  .dynamic
    { hlit := 257
      hdist := 32
      hclen := 18
      clen := [0, 1, 0, 0, 0, 0, 0, 0, 0, 0, 0, 0, 0, 0, 0, 0, 0, 0, 1]
      items := [.manyZeros 127, .manyZeros 107, .length 1, .manyZeros 21] } []

/-- It is a valid stream without data, and the decoder refuses it. -/
theorem decode_refuses_manyDistCodes :
    Deflate.Stream [manyDistCodes] [] ∧
      ∃ source rest, ofBytes source = Deflate.streamBits [manyDistCodes] ++ rest ∧
        decode (fun _ _ => true) unlimited (List.replicate windowSize 0) source
          = .error .badCodeLengths :=
  ⟨⟨by decide, by decide +kernel, by decide +kernel⟩,
    [0x05, 0xDF, 0x81, 0, 0, 0, 0, 0, 0x90, 0xFF, 0x6B, 0x2B, 0],
      List.replicate 7 false, by decide +kernel, by decide +kernel⟩

end Inflate
end OpenRar.Compress
