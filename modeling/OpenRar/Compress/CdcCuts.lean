import OpenRar.Compress.CdcChunker

/-!
# Where a stream is cut

A stream takes its input byte by byte, however it is fed.  It cuts behind the first byte
at which the bytes since the last cut allow it, so that the chunks are those of the whole
input, tile it, and have lengths between the minimum and the maximum, the last apart.
-/

namespace OpenRar.Compress

open GearHash CdcChunker List

variable (c : CdcChunker)

theorem chunk_sizes : minChunk = 16384 ∧ avgChunk = 65536 ∧ maxChunk = 262144 := ⟨rfl, rfl, rfl⟩

namespace CdcStream

/-! ## One byte -/

/-- The pending bytes make a chunk. -/
def stops (s : CdcStream) : Bool :=
  decide (minChunk ≤ s.pendingSize) &&
    if s.pendingSize < avgChunk then c.isStrict s.h
    else c.isLight s.h || decide (s.pendingSize = maxChunk)

def step (st : CdcStream × List CdcChunk) (b : UInt8) : CdcStream × List CdcChunk :=
  let s := absorb c st.1 b
  if stops c s then emit s st.2 else (s, st.2)

variable {c}

theorem absorb_pending (s : CdcStream) (b : UInt8) :
    (absorb c s b).pendingSize = s.pendingSize + 1 := rfl

variable {s : CdcStream} {st : CdcStream × List CdcChunk} {b : UInt8}

theorem stops_early (h : s.pendingSize < minChunk) : stops c s = false := by
  unfold stops
  rw [decide_eq_false (by omega), Bool.false_and]

theorem stops_middle (hmin : minChunk ≤ s.pendingSize) (havg : s.pendingSize < avgChunk) :
    stops c s = c.isStrict s.h := by
  unfold stops
  rw [decide_eq_true hmin, Bool.true_and, if_pos havg]

theorem stops_late (havg : avgChunk ≤ s.pendingSize) :
    stops c s = (c.isLight s.h || decide (s.pendingSize = maxChunk)) := by
  obtain ⟨hmin, hsize, -⟩ := chunk_sizes
  unfold stops
  rw [decide_eq_true (by omega), Bool.true_and, if_neg (by omega)]

theorem step_stops
    (h : stops c (absorb c st.1 b) = true) : step c st b = emit (absorb c st.1 b) st.2 :=
  if_pos h

theorem step_goes_on
    (h : stops c (absorb c st.1 b) = false) : step c st b = (absorb c st.1 b, st.2) :=
  if_neg (by simp [h])

theorem step_pending (h : st.1.pendingSize < maxChunk) (b : UInt8) :
    (step c st b).1.pendingSize < maxChunk := by
  cases hstops : stops c (absorb c st.1 b) with
  | true =>
    rw [step_stops hstops]
    show 0 < maxChunk
    decide
  | false =>
    obtain ⟨-, havg, hsize⟩ := chunk_sizes
    have hnext := absorb_pending (c := c) st.1 b
    rw [step_goes_on hstops]
    by_contra hfull
    have hpending : (absorb c st.1 b).pendingSize = maxChunk := by
      dsimp only at hfull
      omega
    rw [stops_late (by omega), hpending, decide_eq_true rfl, Bool.or_true] at hstops
    cases hstops

theorem foldl_step_pending (h : st.1.pendingSize < maxChunk) (bytes : List UInt8) :
    (bytes.foldl (step c) st).1.pendingSize < maxChunk := by
  induction bytes generalizing st with
  | nil => exact h
  | cons b bytes ih => exact ih (step_pending h b)

theorem foldl_absorb (s : CdcStream) (bytes : List UInt8) :
    bytes.foldl (absorb c) s =
      ⟨gearHash c.entry s.h bytes, s.pendingSize + bytes.length, s.fed + bytes.length⟩ := by
  induction bytes generalizing s with
  | nil => rfl
  | cons b bytes ih =>
    rw [foldl_cons, ih, length_cons]
    simp [absorb, Nat.add_assoc, Nat.add_comm 1]

/-! ## The loops of `feed` -/

/-- Below the minimum bytes are only absorbed. -/
theorem foldl_step_early (s : CdcStream) (out : List CdcChunk) (bytes : List UInt8)
    (h : s.pendingSize + bytes.length < minChunk) :
    bytes.foldl (step c) (s, out) = (bytes.foldl (absorb c) s, out) := by
  induction bytes generalizing s with
  | nil => rfl
  | cons b bytes ih =>
    rw [length_cons] at h
    have hnext := absorb_pending (c := c) s b
    have hearly : stops c (absorb c s b) = false := stops_early (by omega)
    have hstep : step c (s, out) b = (absorb c s b, out) := step_goes_on hearly
    rw [foldl_cons, foldl_cons, hstep]
    exact ih (absorb c s b) (by omega)

/-- What a loop leaves: the rest of the input, from a state that the bytes up to there
reach. -/
structure Left (st : CdcStream × List CdcChunk) (data : List UInt8)
    (left : (CdcStream × List CdcChunk) × List UInt8) : Prop where
  steps : data.foldl (step c) st = left.2.foldl (step c) left.1
  shorter : left.2.length ≤ data.length
  pending : left.1.1.pendingSize < maxChunk

theorem Left.cons {data : List UInt8} {left : (CdcStream × List CdcChunk) × List UInt8}
    (h : Left (c := c) (step c st b) data left) :
    Left (c := c) st (b :: data) left :=
  ⟨h.steps, h.shorter.trans (Nat.le_succ _), h.pending⟩

/-- A loop that stops behind a byte. -/
theorem left_step (h : st.1.pendingSize < maxChunk) (b : UInt8) (data : List UInt8) :
    Left (c := c) st (b :: data) (step c st b, data) :=
  ⟨rfl, Nat.le_succ _, step_pending h b⟩

theorem strictLoop_left (n : Nat) (s : CdcStream) (data : List UInt8) (out : List CdcChunk)
    (hmin : minChunk ≤ s.pendingSize + 1) (havg : s.pendingSize + n = avgChunk - 1) :
    Left (c := c) (s, out) data (strictLoop c n s data out) ∧
      ((strictLoop c n s data out).1.1.pendingSize = 0 ∨ (strictLoop c n s data out).2 = [] ∨
        (strictLoop c n s data out).1.1.pendingSize = avgChunk - 1) := by
  obtain ⟨-, havgSize, hmaxSize⟩ := chunk_sizes
  have hmax : s.pendingSize < maxChunk := by omega
  induction n generalizing s data out with
  | zero => exact ⟨⟨rfl, le_rfl, hmax⟩, Or.inr (Or.inr havg)⟩
  | succ n ih =>
    cases data with
    | nil => exact ⟨⟨rfl, le_rfl, hmax⟩, Or.inr (Or.inl rfl)⟩
    | cons b data =>
      have hnext := absorb_pending (c := c) s b
      have hmiddle : stops c (absorb c s b) = c.isStrict (absorb c s b).h :=
        stops_middle (by omega) (by omega)
      rw [strictLoop]
      cases hstrict : c.isStrict (absorb c s b).h with
      | true =>
        have hstep : step c (s, out) b = emit (absorb c s b) out :=
          step_stops (hmiddle.trans hstrict)
        rw [if_pos rfl, ← hstep]
        refine ⟨left_step hmax b data, Or.inl ?_⟩
        rw [hstep]
        rfl
      | false =>
        have hstep : step c (s, out) b = (absorb c s b, out) :=
          step_goes_on (hmiddle.trans hstrict)
        obtain ⟨hleft, hend⟩ := ih (absorb c s b) data out (by omega) (by omega) (by omega)
        rw [← hstep] at hleft
        exact ⟨hleft.cons, hend⟩

theorem lightLoop_left (s : CdcStream) (data : List UInt8) (out : List CdcChunk)
    (havg : avgChunk ≤ s.pendingSize + 1) (hmax : s.pendingSize < maxChunk) :
    Left (c := c) (s, out) data (lightLoop c s data out) := by
  induction data generalizing s out with
  | nil => exact ⟨rfl, le_rfl, hmax⟩
  | cons b data ih =>
    have hlate : stops c (absorb c s b)
        = (c.isLight (absorb c s b).h || decide ((absorb c s b).pendingSize = maxChunk)) :=
      stops_late havg
    rw [lightLoop]
    by_cases hstop : c.isLight (absorb c s b).h = true ∨ (absorb c s b).pendingSize = maxChunk
    · have hstep : step c (s, out) b = emit (absorb c s b) out := step_stops (by
        rw [hlate]
        simpa using hstop)
      rw [if_pos hstop, ← hstep]
      exact left_step hmax b data
    · have hgoes : stops c (absorb c s b) = false := by
        rw [hlate]
        simpa using hstop
      have hstep : step c (s, out) b = (absorb c s b, out) := step_goes_on hgoes
      have hpending : (step c (s, out) b).1.pendingSize < maxChunk := step_pending hmax b
      rw [hstep] at hpending
      have hnext := absorb_pending (c := c) s b
      rw [if_neg hstop]
      have hleft := ih (absorb c s b) out (by omega) hpending
      rw [← hstep] at hleft
      exact hleft.cons

/-- A loop on a nonempty input takes a byte. -/
theorem lightLoop_shorter (s : CdcStream) (b : UInt8) (data : List UInt8) (out : List CdcChunk)
    (havg : avgChunk ≤ s.pendingSize + 1) (hmax : s.pendingSize < maxChunk) :
    (lightLoop c s (b :: data) out).2.length ≤ data.length := by
  rw [lightLoop]
  split
  · exact le_rfl
  · next hstop =>
    have hnext := absorb_pending (c := c) s b
    exact (lightLoop_left (absorb c s b) data out (by omega) (by omega)).shorter

theorem strictLoop_shorter {n : Nat} (s : CdcStream) (b : UInt8) (data : List UInt8)
    (out : List CdcChunk) (hn : 0 < n) (hmin : minChunk ≤ s.pendingSize + 1)
    (havg : s.pendingSize + n = avgChunk - 1) :
    (strictLoop c n s (b :: data) out).2.length ≤ data.length := by
  obtain ⟨n, rfl⟩ := Nat.exists_eq_add_of_le' hn
  rw [strictLoop]
  split
  · exact le_rfl
  · have hnext := absorb_pending (c := c) s b
    exact (strictLoop_left n (absorb c s b) data out (by omega) (by omega)).1.shorter

/-- **Feeding is taking byte by byte.** -/
theorem feedLoop_eq (fuel : Nat) (s : CdcStream) (data : List UInt8) (out : List CdcChunk)
    (hfuel : data.length ≤ fuel) (hmax : s.pendingSize < maxChunk) :
    feedLoop c fuel s data out = data.foldl (step c) (s, out) := by
  obtain ⟨hminSize, havgSize, hmaxSize⟩ := chunk_sizes
  induction fuel generalizing s data out with
  | zero =>
    rw [length_eq_zero_iff.mp (Nat.le_zero.mp hfuel)]
    rfl
  | succ fuel ih =>
    rw [feedLoop]
    by_cases hnil : data = []
    · rw [if_pos hnil, hnil]
      rfl
    rw [if_neg hnil]
    dsimp only
    generalize hskip : (if s.pendingSize < minChunk - 1 then
      min data.length (minChunk - 1 - s.pendingSize) else 0) = skip
    have hskipped : skip ≤ data.length ∧ s.pendingSize + skip < maxChunk ∧
        (skip = 0 ∨ s.pendingSize + skip < minChunk) ∧
        (skip < data.length → minChunk ≤ s.pendingSize + skip + 1) := by
      split at hskip <;> omega
    obtain ⟨hle, hmax1, hearly, hreach⟩ := hskipped
    -- The skipped bytes are taken byte by byte as well.
    have hlen : (data.take skip).length = skip := by
      rw [length_take]
      omega
    have hskipped : (data.take skip).foldl (step c) (s, out)
        = ((data.take skip).foldl (absorb c) s, out) := by
      rcases hearly with hzero | hearly
      · rw [hzero]
        rfl
      · exact foldl_step_early s out _ (by rw [hlen]; exact hearly)
    have hpending : ((data.take skip).foldl (absorb c) s).pendingSize = s.pendingSize + skip := by
      rw [foldl_absorb, hlen]
    have hsplit : data.foldl (step c) (s, out)
        = (data.drop skip).foldl (step c) ((data.take skip).foldl (absorb c) s, out) := by
      conv_lhs => rw [← take_append_drop skip data]
      rw [foldl_append, hskipped]
    rw [hsplit]
    generalize (data.take skip).foldl (absorb c) s = s1 at hpending ⊢
    by_cases hend : data.drop skip = []
    · rw [if_pos hend, hend]
      rfl
    rw [if_neg hend]
    -- A byte is left, so the minimum is reached by the next one.
    have hmore : skip < data.length := by
      by_contra hge
      exact hend (drop_eq_nil_iff.mpr (by omega))
    have hmin := hreach hmore
    rw [← hpending] at hmin hmax1
    obtain ⟨b, rest, hcons⟩ := exists_cons_of_ne_nil hend
    have hrest : rest.length + 1 ≤ fuel + 1 := by
      have hdrop : (data.drop skip).length = rest.length + 1 := by
        rw [hcons, length_cons]
      rw [length_drop] at hdrop
      omega
    rw [hcons]
    split
    · next havg =>
      obtain ⟨hleft, hwhere⟩ := strictLoop_left (c := c) (avgChunk - 1 - s1.pendingSize) s1
        (b :: rest) out hmin (by omega)
      have hshorter := strictLoop_shorter (c := c) s1 b rest out
        (show 0 < avgChunk - 1 - s1.pendingSize by omega) hmin (by omega)
      generalize strictLoop c (avgChunk - 1 - s1.pendingSize) s1 (b :: rest) out = left
        at hleft hwhere hshorter ⊢
      obtain ⟨⟨s2, out2⟩, data2⟩ := left
      dsimp only at hwhere hshorter ⊢
      rw [hleft.steps]
      split
      · exact ih s2 data2 out2 (by omega) hleft.pending
      · next hgoes =>
        -- Neither a cut nor the end: the average is reached.
        have hreached : s2.pendingSize = avgChunk - 1 := by
          rcases hwhere with hzero | hempty | havg2
          · exact absurd (Or.inl hzero) hgoes
          · exact absurd (Or.inr hempty) hgoes
          · exact havg2
        have hlight := lightLoop_left (c := c) s2 data2 out2
          (by omega) hleft.pending
        generalize lightLoop c s2 data2 out2 = left at hlight ⊢
        obtain ⟨⟨s3, out3⟩, data3⟩ := left
        have hshorter3 : data3.length ≤ data2.length := hlight.shorter
        rw [hlight.steps]
        exact ih s3 data3 out3 (by omega) hlight.pending
    · next havg =>
      have hlate : avgChunk ≤ s1.pendingSize + 1 := by omega
      have hlight := lightLoop_left (c := c) s1 (b :: rest) out hlate hmax1
      have hshorter := lightLoop_shorter (c := c) s1 b rest out hlate hmax1
      generalize lightLoop c s1 (b :: rest) out = left at hlight hshorter ⊢
      obtain ⟨⟨s3, out3⟩, data3⟩ := left
      dsimp only at hshorter
      rw [hlight.steps]
      exact ih s3 data3 out3 (by omega) hlight.pending

theorem feed_eq (hmax : s.pendingSize < maxChunk) (data : List UInt8) (out : List CdcChunk) :
    feed c s data out = data.foldl (step c) (s, out) :=
  feedLoop_eq data.length s data out le_rfl hmax

/-- **The pieces do not matter.** -/
theorem feed_pieces (pieces : List (List UInt8)) (hmax : st.1.pendingSize < maxChunk) :
    pieces.foldl (fun st piece => feed c st.1 piece st.2) st =
      pieces.flatten.foldl (step c) st := by
  induction pieces generalizing st with
  | nil => rfl
  | cons piece pieces ih =>
    rw [foldl_cons, flatten_cons, foldl_append, feed_eq hmax]
    exact ih (foldl_step_pending hmax piece)

end CdcStream

/-! ## Slices -/

namespace CdcChunker

variable {c} {data : List UInt8} {p e : Nat}

theorem segment_self (data : List UInt8) (p : Nat) : segment data p p = [] := by
  unfold segment
  rw [drop_eq_nil_iff, length_take]
  omega

theorem segment_all (data : List UInt8) (p : Nat) : segment data p data.length = data.drop p := by
  unfold segment
  rw [take_length]

theorem segment_length (he : e ≤ data.length) : (segment data p e).length = e - p := by
  unfold segment
  rw [length_drop, length_take]
  omega

theorem segment_append {q : Nat} (hpe : p ≤ e) (heq : e ≤ q) (hq : q ≤ data.length) :
    segment data p e ++ segment data e q = segment data p q := by
  have htake : data.take q = data.take e ++ segment data e q := by
    unfold segment
    conv_lhs => rw [← take_append_drop e (data.take q)]
    rw [take_take, Nat.min_eq_left heq]
  show (data.take e).drop p ++ segment data e q = (data.take q).drop p
  rw [htake, drop_append_of_le_length]
  rw [length_take]
  omega

theorem segment_succ (hpe : p ≤ e) (he : e < data.length) :
    segment data p (e + 1) = segment data p e ++ [data[e]] := by
  rw [← segment_append hpe (Nat.le_succ e) he]
  unfold segment
  rw [take_succ_eq_append_getElem he, drop_left']
  rw [length_take]
  omega

/-! ## The cuts of a buffer -/

variable (c data)

/-- A chunk that starts at `p` may end at `e`. -/
def Cuts (p e : Nat) : Prop :=
  CdcStream.stops c ⟨c.hashRange (segment data p e), e - p, e⟩ = true

/-- The chunk from `p` to `e`. -/
def chunkOf (p e : Nat) : CdcChunk := ⟨p, e - p, c.hashRange (segment data p e)⟩

/-- The chunks from position `p` on: each ends at its first cut, and the last at the end of
the buffer. -/
inductive Chunked : Nat → List CdcChunk → Prop
  | last {p : Nat} (hp : p < data.length)
    (hnone : ∀ e, p < e → e < data.length → ¬ Cuts c data p e) :
      Chunked p [chunkOf c data p data.length]
  | cut {p e : Nat} {rest : List CdcChunk} (hpe : p < e) (he : e < data.length)
      (hcut : Cuts c data p e) (hfirst : ∀ e', p < e' → e' < e → ¬ Cuts c data p e')
      (hrest : Chunked e rest) : Chunked p (chunkOf c data p e :: rest)

variable {c data}

variable {chunks : List CdcChunk}

/-- The cuts leave no choice. -/
theorem Chunked.unique {chunks' : List CdcChunk} (h : Chunked c data p chunks)
    (h' : Chunked c data p chunks') : chunks = chunks' := by
  induction h generalizing chunks' with
  | last hp hnone =>
    cases h' with
    | last _ _ => rfl
    | cut hpe he hcut _ _ => exact absurd hcut (hnone _ hpe he)
  | cut hpe he hcut hfirst _ ih =>
    cases h' with
    | last _ hnone => exact absurd hcut (hnone _ hpe he)
    | @cut _ e' _ hpe' he' hcut' hfirst' hrest' =>
      -- Two first cuts are the same.
      obtain rfl : _ = e' := by
        rcases Nat.lt_trichotomy _ e' with hlt | heq | hgt
        · exact absurd hcut (hfirst' _ hpe hlt)
        · exact heq
        · exact absurd hcut' (hfirst _ hpe' hgt)
      rw [ih hrest']

theorem exists_first_cut (p stop : Nat) :
    (∀ e, p < e → e < stop → ¬ Cuts c data p e) ∨
      ∃ e, p < e ∧ e < stop ∧ Cuts c data p e ∧ ∀ e', p < e' → e' < e → ¬ Cuts c data p e' := by
  by_cases h : ∃ e, p < e ∧ e < stop ∧ Cuts c data p e
  · classical
    right
    obtain ⟨hpe, he, hcut⟩ := Nat.find_spec h
    refine ⟨Nat.find h, hpe, he, hcut, fun e' hpe' he' hcut' => ?_⟩
    exact Nat.find_min h he' ⟨hpe', he'.trans he, hcut'⟩
  · left
    intro e hpe he hcut
    exact h ⟨e, hpe, he, hcut⟩

/-! ### Lengths -/

/-- Chunks one behind the other, from `p` to the end. -/
inductive Tiles (stop : Nat) : Nat → List CdcChunk → Prop
  | nil : Tiles stop stop []
  | cons {chunk : CdcChunk} {rest : List CdcChunk} (hpos : 0 < chunk.length)
      (hrest : Tiles stop (chunk.offset + chunk.length) rest) :
      Tiles stop chunk.offset (chunk :: rest)

theorem Cuts.min_le (h : Cuts c data p e) : minChunk ≤ e - p := by
  by_contra hless
  unfold Cuts at h
  rw [CdcStream.stops_early (Nat.lt_of_not_le hless)] at h
  cases h

/-- The maximum is a cut. -/
theorem cuts_max (c : CdcChunker) (data : List UInt8) (p : Nat) :
    Cuts c data p (p + maxChunk) := by
  unfold Cuts
  rw [Nat.add_sub_cancel_left, CdcStream.stops_late (by show avgChunk ≤ maxChunk; decide)]
  simp

theorem le_max_of_no_cut {stop : Nat} (hnone : ∀ e, p < e → e < stop → ¬ Cuts c data p e) :
    stop ≤ p + maxChunk := by
  by_contra hgt
  have hpos : 0 < maxChunk := by decide
  exact hnone (p + maxChunk) (by omega) (by omega) (cuts_max c data p)

theorem Chunked.tiles (h : Chunked c data p chunks) : Tiles data.length p chunks := by
  induction h with
  | @last p hp _ =>
    have hrest : Tiles data.length (p + (data.length - p)) [] := by
      rw [Nat.add_sub_of_le hp.le]
      exact .nil
    exact @Tiles.cons _ (chunkOf c data p data.length) _ (Nat.sub_pos_of_lt hp) hrest
  | @cut p e rest hpe _ _ _ _ ih =>
    have hrest : Tiles data.length (p + (e - p)) rest := by
      rw [Nat.add_sub_of_le hpe.le]
      exact ih
    exact @Tiles.cons _ (chunkOf c data p e) _ (Nat.sub_pos_of_lt hpe) hrest

/-- **The lengths**: between the minimum and the maximum, the last at most the maximum. -/
theorem Chunked.lengths (h : Chunked c data p chunks) :
    (∀ chunk ∈ chunks.dropLast, minChunk ≤ chunk.length ∧ chunk.length ≤ maxChunk) ∧
      ∀ chunk ∈ chunks, chunk.length ≤ maxChunk := by
  induction h with
  | @last p hp hnone =>
    have hmax := le_max_of_no_cut hnone
    refine ⟨by simp, fun chunk hchunk => ?_⟩
    obtain rfl := mem_singleton.mp hchunk
    show data.length - p ≤ maxChunk
    omega
  | @cut p e rest hpe _ hcut hfirst hrest ih =>
    have hmax := le_max_of_no_cut hfirst
    have hmin := hcut.min_le
    have hlen : (chunkOf c data p e).length = e - p := rfl
    have hne : rest ≠ [] := by
      cases hrest <;> simp
    rw [dropLast_cons_of_ne_nil hne]
    refine ⟨fun chunk hchunk => ?_, fun chunk hchunk => ?_⟩
    · rcases mem_cons.mp hchunk with rfl | hchunk
      · omega
      · exact ih.1 chunk hchunk
    · rcases mem_cons.mp hchunk with rfl | hchunk
      · omega
      · exact ih.2 chunk hchunk

end CdcChunker

/-! ## A stream cuts a buffer -/

namespace CdcStream

open CdcChunker

variable {c} {data : List UInt8} {p e : Nat}

/-- One more byte behind the last cut. -/
theorem absorb_segment (hpe : p ≤ e) (he : e < data.length) :
    absorb c ⟨c.hashRange (segment data p e), e - p, e⟩ data[e]
      = ⟨c.hashRange (segment data p (e + 1)), e + 1 - p, e + 1⟩ := by
  unfold absorb hashRange
  rw [segment_succ hpe he, gearHash_concat, Nat.sub_add_comm hpe]

/-- Without a cut the bytes are pending. -/
theorem foldl_step_segment (out : List CdcChunk) (hpe : p ≤ e) (he : e ≤ data.length)
    (hnone : ∀ e', p < e' → e' ≤ e → ¬ Cuts c data p e') :
    (segment data p e).foldl (step c) (⟨0, 0, p⟩, out)
      = (⟨c.hashRange (segment data p e), e - p, e⟩, out) := by
  induction e, hpe using Nat.le_induction with
  | base =>
    rw [segment_self, Nat.sub_self]
    rfl
  | succ e hpe ih =>
    have hbefore := ih (by omega) (fun e' hlow hhigh => hnone e' hlow (by omega))
    have hgoes : stops c (absorb c ⟨c.hashRange (segment data p e), e - p, e⟩ data[e]) = false := by
      rw [absorb_segment hpe he]
      exact Bool.eq_false_iff.mpr (hnone (e + 1) (by omega) le_rfl)
    have hstep : step c (⟨c.hashRange (segment data p e), e - p, e⟩, out) data[e]
        = (absorb c ⟨c.hashRange (segment data p e), e - p, e⟩ data[e], out) := step_goes_on hgoes
    rw [segment_succ hpe he, foldl_append, hbefore, foldl_cons, foldl_nil, hstep,
      absorb_segment hpe he, ← segment_succ hpe he]

/-- At the first cut a chunk is emitted. -/
theorem foldl_step_cut (out : List CdcChunk) (hpe : p < e) (he : e ≤ data.length)
    (hcut : Cuts c data p e) (hfirst : ∀ e', p < e' → e' < e → ¬ Cuts c data p e') :
    (segment data p e).foldl (step c) (⟨0, 0, p⟩, out)
      = (⟨0, 0, e⟩, out ++ [chunkOf c data p e]) := by
  obtain ⟨q, rfl⟩ : ∃ q, e = q + 1 := ⟨e - 1, by omega⟩
  have hpq : p ≤ q := by omega
  have hbefore := foldl_step_segment out hpq (by omega)
    (fun e' hlow hhigh => hfirst e' hlow (by omega))
  have hstops : stops c (absorb c ⟨c.hashRange (segment data p q), q - p, q⟩ data[q]) = true := by
    rw [absorb_segment hpq he]
    exact hcut
  have hstep : step c (⟨c.hashRange (segment data p q), q - p, q⟩, out) data[q]
      = emit (absorb c ⟨c.hashRange (segment data p q), q - p, q⟩ data[q]) out := step_stops hstops
  rw [segment_succ hpq he, foldl_append, hbefore, foldl_cons, foldl_nil, hstep,
    absorb_segment hpq he]
  unfold emit chunkOf
  simp [Nat.sub_sub_self hpe.le]

/-- **A stream is cut where the buffer is.** -/
theorem chunked_of_step (p : Nat) (hp : p < data.length) (out : List CdcChunk) :
    ∃ chunks, Chunked c data p chunks ∧
      finish ((data.drop p).foldl (step c) (⟨0, 0, p⟩, out)).1
        ((data.drop p).foldl (step c) (⟨0, 0, p⟩, out)).2 = out ++ chunks := by
  -- Induction on what is left behind the last cut.
  induction hleft : data.length - p using Nat.strong_induction_on generalizing p out with
  | _ left ih =>
  rw [← segment_all]
  rcases @exists_first_cut c data p data.length with hnone | ⟨e, hpe, he, hcut, hfirst⟩
  · refine ⟨_, .last hp hnone, ?_⟩
    by_cases hcut : Cuts c data p data.length
    · -- The end is a cut: nothing is pending.
      rw [foldl_step_cut out hp le_rfl hcut hnone]
      rfl
    · have hpending := foldl_step_segment out hp.le le_rfl (fun e hlow hhigh =>
        if hlast : e = data.length then hlast ▸ hcut else hnone e hlow (by omega))
      rw [hpending]
      unfold finish
      rw [if_pos (Nat.sub_pos_of_lt hp)]
      unfold emit chunkOf
      simp [Nat.sub_sub_self hp.le]
  · obtain ⟨rest, hrest, hfinish⟩ := ih (data.length - e) (by omega) e he
      (out ++ [chunkOf c data p e]) rfl
    refine ⟨_, .cut hpe he hcut hfirst hrest, ?_⟩
    rw [← segment_append hpe.le he.le le_rfl, foldl_append,
      foldl_step_cut out hpe he.le hcut hfirst, segment_all, hfinish, append_assoc]
    rfl

theorem chunkPieces_eq (pieces : List (List UInt8)) :
    chunkPieces c pieces = c.chunk pieces.flatten := by
  have hstart : ({} : CdcStream).pendingSize < maxChunk := by decide
  unfold chunkPieces CdcChunker.chunk
  rw [feed_pieces pieces hstart, feed_eq hstart]

theorem chunk_nil (c : CdcChunker) : c.chunk [] = [] := rfl

theorem chunk_chunked (hne : data ≠ []) : Chunked c data 0 (c.chunk data) := by
  have hstart : ({} : CdcStream).pendingSize < maxChunk := by decide
  obtain ⟨chunks, hchunked, hfinish⟩ := chunked_of_step (c := c) 0 (length_pos_iff.mpr hne) []
  unfold CdcChunker.chunk
  rw [feed_eq hstart]
  rw [drop_zero, nil_append] at hfinish
  rw [hfinish]
  exact hchunked

end CdcStream

/-! ## A common tail -/

/-- The chunk in a buffer with `shift` more bytes in front. -/
def CdcChunk.moved (shift : Nat) (chunk : CdcChunk) : CdcChunk :=
  { chunk with offset := shift + chunk.offset }

namespace CdcChunker

variable {c} {data : List UInt8} {p : Nat} {chunks : List CdcChunk}

theorem Chunked.behind (front : List UInt8) (h : Chunked c data p chunks) :
    Chunked c (front ++ data) (front.length + p) (chunks.map (.moved front.length)) := by
  have hsegment : ∀ p e, segment (front ++ data) (front.length + p) (front.length + e)
      = segment data p e := by
    intro p e
    unfold segment
    rw [take_length_add_append, drop_length_add_append]
  have hchunk : ∀ p e, (chunkOf c data p e).moved front.length
      = chunkOf c (front ++ data) (front.length + p) (front.length + e) := by
    intro p e
    simp [chunkOf, CdcChunk.moved, hsegment, Nat.add_sub_add_left]
  have hcuts : ∀ p e, Cuts c (front ++ data) (front.length + p) (front.length + e)
      ↔ Cuts c data p e := by
    intro p e
    simp [Cuts, CdcStream.stops, hsegment, Nat.add_sub_add_left]
  have hnot : ∀ {p stop : Nat}, (∀ e, p < e → e < stop → ¬ Cuts c data p e) →
      ∀ e, front.length + p < e → e < front.length + stop →
        ¬ Cuts c (front ++ data) (front.length + p) e := by
    intro p stop hnone e hpe he
    obtain ⟨e, rfl⟩ := Nat.exists_eq_add_of_le (show front.length ≤ e by omega)
    rw [hcuts]
    exact hnone e (by omega) (by omega)
  induction h with
  | last hp hnone =>
    rw [map_singleton, hchunk, ← length_append]
    exact .last (by simpa using hp) (by simpa using hnot hnone)
  | cut hpe he hcut hfirst _ ih =>
    rw [map_cons, hchunk]
    exact .cut (by omega) (by simpa using he) ((hcuts _ _).mpr hcut) (hnot hfirst) ih

theorem Chunked.from_chunk (h : Chunked c data p chunks) {chunk : CdcChunk}
    (hmem : chunk ∈ chunks) :
    ∃ before after, chunks = before ++ after ∧ Chunked c data chunk.offset after := by
  induction h with
  | last hp hnone =>
    rw [mem_singleton.mp hmem]
    exact ⟨[], _, rfl, .last hp hnone⟩
  | cut hpe he hcut hfirst hrest ih =>
    rcases mem_cons.mp hmem with rfl | hmem
    · exact ⟨[], _, rfl, .cut hpe he hcut hfirst hrest⟩
    · obtain ⟨before, after, heq, hafter⟩ := ih hmem
      exact ⟨_ :: before, after, by rw [heq, cons_append], hafter⟩

/-- **Chunking falls into step again.**  From the start of any chunk on, the chunks are
those of the rest of the file alone, whatever stands in front of it. -/
theorem chunk_resynchronises (c : CdcChunker) (front data : List UInt8)
    (hstart : ∃ chunk ∈ c.chunk (front ++ data), chunk.offset = front.length) :
    ∃ before, c.chunk (front ++ data) = before ++ (c.chunk data).map (.moved front.length) := by
  by_cases hnil : data = []
  · exact ⟨c.chunk (front ++ data), by simp [hnil, CdcStream.chunk_nil]⟩
  obtain ⟨chunk, hmem, hoffset⟩ := hstart
  obtain ⟨before, after, heq, hafter⟩ :=
    (CdcStream.chunk_chunked (append_ne_nil_of_right_ne_nil front hnil)).from_chunk hmem
  rw [hoffset] at hafter
  rw [heq, hafter.unique ((CdcStream.chunk_chunked hnil).behind front)]
  exact ⟨before, rfl⟩

/-- From 64 bytes on the hash of a run of zeros stays the same. -/
theorem hashRange_zeros {n : Nat} (h : 64 ≤ n) :
    new.hashRange (replicate n 0) = new.hashRange (replicate 64 0) := by
  unfold hashRange
  rw [gearHash_drop _ _ (k := n - 64) (by rw [length_replicate]; omega), drop_replicate,
    Nat.sub_sub_self h]

/-- That hash meets neither mask, so zeros are cut at the maximum only. -/
theorem zeros_chunk {front : List UInt8} (hfront : front = replicate maxChunk 0) :
    ∃ chunk ∈ new.chunk (front ++ [7]), chunk.offset = front.length := by
  have hlen : (front ++ [7]).length = front.length + 1 := length_append
  have hmax : front.length = maxChunk := by rw [hfront, length_replicate]
  have hmasks : new.isStrict (new.hashRange (replicate 64 0)) = false ∧
      new.isLight (new.hashRange (replicate 64 0)) = false := by decide +kernel
  have hfirst : ∀ e, 0 < e → e < front.length → ¬ Cuts new (front ++ [7]) 0 e := by
    intro e _ he hcut
    obtain ⟨hmin, -, -⟩ := chunk_sizes
    have hlong := hcut.min_le
    have hzeros : segment (front ++ [7]) 0 e = replicate e 0 := by
      rw [segment, drop_zero, take_append_of_le_length he.le, hfront, take_replicate,
        Nat.min_eq_left (by omega)]
    rw [Cuts, hzeros, hashRange_zeros (by omega), CdcStream.stops] at hcut
    dsimp only at hcut
    rw [hmasks.1, hmasks.2] at hcut
    simp at hcut
    omega
  have hcut := hmax ▸ cuts_max new (front ++ [7]) 0
  rw [Nat.zero_add] at hcut
  have hchunks : Chunked new (front ++ [7]) 0 _ :=
    .cut (by rw [hmax]; decide) (by omega) hcut hfirst (.last (by omega) fun e _ _ => by omega)
  rw [(CdcStream.chunk_chunked (by simp)).unique hchunks]
  exact ⟨_, mem_cons_of_mem _ (mem_singleton.mpr rfl), rfl⟩

theorem chunk_resynchronises_zeros :
    ∃ before, new.chunk (replicate maxChunk 0 ++ [7]) =
      before ++ (new.chunk [7]).map (.moved (replicate maxChunk (0 : UInt8)).length) :=
  chunk_resynchronises new _ _ (zeros_chunk rfl)

end CdcChunker

end OpenRar.Compress
