import OpenRar.Compress.CdcCuts
import Mathlib.Data.List.GetD

/-!
# Chunking in parallel

The replay over the candidates of all slices cuts where the stream does.  Every slice is
scanned with the hashes of the whole buffer, since the warm-up fills the memory of the
hash.  An interval of several positions would hide a light match from the replay when the
average lies inside it; with the table of the constructor no two consecutive positions
match, so that every interval is a single position.
-/

namespace OpenRar.Compress

open GearHash List

namespace CdcChunker

variable {c : CdcChunker} {data : List UInt8}

/-! ## Matches -/

def isMatch (c : CdcChunker) (h : UInt64) : Bool := c.isStrict h || c.isLight h

/-- No two consecutive positions match. -/
def Separated (c : CdcChunker) : Prop :=
  ∀ (h : UInt64) (b : UInt8), c.isMatch h = true → c.isMatch (roll c.entry h b) = false

variable {k numSlices : Nat}

theorem and_highMask {x : Nat} (hk : k ≤ 64) (hx : x < 2 ^ 64) :
    x &&& ((2 ^ (64 - k) - 1) <<< k) = 0 ↔ x < 2 ^ k := by
  have hmask : x &&& ((2 ^ (64 - k) - 1) <<< k) = (x >>> k) <<< k := by
    apply Nat.eq_of_testBit_eq
    intro i
    rw [Nat.testBit_and, Nat.testBit_shiftLeft, Nat.testBit_shiftLeft, Nat.testBit_two_pow_sub_one,
      Nat.testBit_shiftRight]
    by_cases hi : k ≤ i
    · rw [Nat.add_sub_of_le hi]
      by_cases hlow : i - k < 64 - k
      · simp [hi, hlow]
      · have hzero : x.testBit i = false :=
          Nat.testBit_lt_two_pow (hx.trans_le (Nat.pow_le_pow_right (by decide) (by omega)))
        simp [hzero]
    · simp [hi]
  rw [hmask, Nat.shiftLeft_eq, Nat.shiftRight_eq_div_pow]
  have hpos := Nat.two_pow_pos k
  constructor
  · intro hzero
    rcases Nat.mul_eq_zero.mp hzero with hdiv | habsurd
    · exact (Nat.div_eq_zero_iff.mp hdiv).resolve_left (by omega)
    · omega
  · intro hlt
    rw [Nat.div_eq_of_lt hlt, Nat.zero_mul]

theorem and_mask_iff {h mask : UInt64} (hk : k ≤ 64)
    (hmask : mask.toNat = (2 ^ (64 - k) - 1) <<< k) : h &&& mask = 0 ↔ h.toNat < 2 ^ k := by
  rw [← and_highMask hk h.toNat_lt, ← hmask, ← UInt64.toNat_and, ← UInt64.toNat_inj]
  rfl

theorem isLight_new (h : UInt64) : new.isLight h = true ↔ h.toNat < 2 ^ 49 := by
  unfold isLight
  rw [beq_iff_eq]
  exact and_mask_iff (by decide) (by decide)

theorem isStrict_new (h : UInt64) : new.isStrict h = true ↔ h.toNat < 2 ^ 47 := by
  unfold isStrict
  rw [beq_iff_eq]
  exact and_mask_iff (by decide) (by decide)

theorem isMatch_new (h : UInt64) : new.isMatch h = true ↔ h.toNat < 2 ^ 49 := by
  unfold isMatch
  rw [Bool.or_eq_true, isLight_new, isStrict_new]
  omega

/-- No entry of the table is near zero. -/
theorem gearEntries_far :
    ∀ t ∈ gearEntries 256 0x243F6A8885A308D3, 2 ^ 49 ≤ t.toNat ∧ t.toNat ≤ 2 ^ 64 - 2 ^ 50 := by
  have hall : ((gearEntries 256 0x243F6A8885A308D3).all fun t =>
      decide (2 ^ 49 ≤ t.toNat ∧ t.toNat ≤ 2 ^ 64 - 2 ^ 50)) = true := by
    decide +kernel
  exact fun t ht => of_decide_eq_true (all_eq_true.mp hall t ht)

theorem gearEntries_length (n : Nat) (state : UInt64) : (gearEntries n state).length = n := by
  induction n generalizing state with
  | zero => rfl
  | succ n ih => simp [gearEntries, ih]

theorem entry_new_far (b : UInt8) :
    2 ^ 49 ≤ (new.entry b).toNat ∧ (new.entry b).toNat ≤ 2 ^ 64 - 2 ^ 50 := by
  have hb : b.toNat < (gearEntries 256 0x243F6A8885A308D3).length := by
    rw [gearEntries_length]
    exact b.toNat_lt
  apply gearEntries_far
  show (gearEntries 256 0x243F6A8885A308D3).getD b.toNat 0 ∈ _
  rw [getD_eq_getElem _ _ hb]
  exact getElem_mem hb

/-- **The table separates the matches**: doubling a small hash and adding an entry gives no
small one. -/
theorem separated_new : Separated new := by
  intro h b hmatch
  rw [Bool.eq_false_iff, ne_eq, isMatch_new, roll_toNat]
  rw [isMatch_new] at hmatch
  obtain ⟨hlow, hhigh⟩ := entry_new_far b
  omega

/-! ## The candidates of a scan -/

/-- Every match, as an interval of its own. -/
def candidates (c : CdcChunker) : UInt64 → Nat → List UInt8 → List CandidateInterval
  | _, _, [] => []
  | h, i, b :: bytes =>
    let h := roll c.entry h b
    if c.isMatch h then ⟨i, 1, c.matchFlags h⟩ :: candidates c h (i + 1) bytes
    else candidates c h (i + 1) bytes

/-- **A scan finds the candidates**, or too many of them. -/
theorem scanLoop_eq (hsep : Separated c) (maxIntervals : Nat) (h : UInt64) (i : Nat)
    (bytes : List UInt8) (intervals : List CandidateInterval)
    (hlast : ∀ last, intervals.getLast? = some last → last.startOff + last.count ≤ i ∧
      (last.startOff + last.count = i → c.isMatch h = true)) :
    scanLoop c maxIntervals h i bytes intervals = none ∨
      scanLoop c maxIntervals h i bytes intervals = some (intervals ++ candidates c h i bytes) := by
  induction bytes generalizing h i intervals with
  | nil => exact Or.inr (by rw [scanLoop, candidates, append_nil])
  | cons b bytes ih =>
    rw [scanLoop, candidates]
    show (if c.isMatch (roll c.entry h b) then _ else _) = none ∨
      (if c.isMatch (roll c.entry h b) then _ else _) = some _
    cases hmatch : c.isMatch (roll c.entry h b) with
    | false =>
      apply ih
      intro last hsome
      have := (hlast last hsome).1
      exact ⟨by omega, fun heq => by omega⟩
    | true =>
      rw [if_pos rfl, if_pos rfl]
      have hpush := ih (roll c.entry h b) (i + 1)
        (intervals ++ [⟨i, 1, c.matchFlags (roll c.entry h b)⟩]) (by
          intro last hsome
          rw [List.getLast?_concat] at hsome
          cases hsome
          exact ⟨le_rfl, fun _ => hmatch⟩)
      rw [append_assoc, singleton_append] at hpush
      -- The last interval cannot reach up to here: its last position would match too.
      cases hsome : intervals.getLast? with
      | none =>
        dsimp only
        split
        · exact Or.inl rfl
        · exact hpush
      | some last =>
        dsimp only
        have hapart : ¬ (last.startOff + last.count = i ∧
            last.flags = c.matchFlags (roll c.entry h b)) := by
          rintro ⟨hreach, -⟩
          have := hsep h b ((hlast last hsome).2 hreach)
          rw [hmatch] at this
          cases this
        rw [if_neg hapart]
        split
        · exact Or.inl rfl
        · exact hpush

theorem candidates_append (h : UInt64) (i : Nat) (xs ys : List UInt8) :
    candidates c h i (xs ++ ys)
      = candidates c h i xs ++ candidates c (gearHash c.entry h xs) (i + xs.length) ys := by
  induction xs generalizing h i with
  | nil => rfl
  | cons b xs ih =>
    rw [cons_append, candidates, candidates, ih, gearHash_cons, length_cons,
      Nat.add_right_comm, Nat.add_assoc i xs.length]
    split
    · rfl
    · rfl

/-- Only what the next byte makes of the hash matters. -/
theorem candidates_congr {h h' : UInt64} (hroll : ∀ b, roll c.entry h b = roll c.entry h' b)
    (i : Nat) (bytes : List UInt8) : candidates c h i bytes = candidates c h' i bytes := by
  cases bytes with
  | nil => rfl
  | cons b bytes => rw [candidates, candidates, hroll b]

/-! ## All slices -/

/-- The hash of the buffer up to a position. -/
def prefixHash (c : CdcChunker) (data : List UInt8) (e : Nat) : UInt64 :=
  gearHash c.entry 0 (data.take e)

/-- The candidates of a slice with the hash of the buffer. -/
theorem candidates_warm {start : Nat} (hstart : 63 ≤ start) (hle : start ≤ data.length)
    (bytes : List UInt8) :
    candidates c (c.hashRange (segment data (start - 63) start)) start bytes
      = candidates c (prefixHash c data start) start bytes := by
  apply candidates_congr
  intro b
  have hsplit : data.take start = data.take (start - 63) ++ segment data (start - 63) start := by
    unfold segment
    conv_lhs => rw [← take_append_drop (start - 63) (data.take start)]
    rw [take_take, Nat.min_eq_left (Nat.sub_le _ _)]
  have hlen : (segment data (start - 63) start).length = 63 := by
    rw [segment_length hle]
    omega
  unfold prefixHash hashRange
  rw [hsplit, gearHash_append, roll_forget c.entry (gearHash c.entry 0 _) hlen.ge]

theorem candidates_slices (k : Nat) (hk : k < numSlices) : ((List.range k).map fun s =>
        candidates c (prefixHash c data (s * (data.length / numSlices)))
          (s * (data.length / numSlices))
          (segment data (s * (data.length / numSlices)) (sliceEnd data.length numSlices s))).flatten
      = candidates c 0 0 (data.take (k * (data.length / numSlices))) := by
  induction k with
  | zero => simp [candidates]
  | succ k ih =>
    have hend : sliceEnd data.length numSlices k = (k + 1) * (data.length / numSlices) :=
      if_neg (by omega)
    have hfit : (k + 1) * (data.length / numSlices) ≤ data.length :=
      le_trans (Nat.mul_le_mul_right _ (by omega)) (Nat.mul_div_le _ _)
    have hstep : k * (data.length / numSlices) ≤ (k + 1) * (data.length / numSlices) :=
      Nat.mul_le_mul_right _ (Nat.le_succ k)
    have hsplit : data.take ((k + 1) * (data.length / numSlices))
        = data.take (k * (data.length / numSlices)) ++ segment data
          (k * (data.length / numSlices)) ((k + 1) * (data.length / numSlices)) := by
      have hjoin := segment_append (Nat.zero_le _) hstep hfit
      exact hjoin.symm
    rw [range_succ, map_append, flatten_append, ih (by omega), hsplit,
      candidates_append, map_singleton, flatten_singleton, hend, Nat.zero_add,
      length_take, Nat.min_eq_left (hstep.trans hfit)]
    rfl

theorem mapM_none_or_map {α β : Type} {f : α → Option β} {g : α → β} (l : List α)
    (h : ∀ x ∈ l, f x = none ∨ f x = some (g x)) : l.mapM f = none ∨ l.mapM f = some (l.map g) := by
  induction l with
  | nil => exact Or.inr rfl
  | cons x l ih =>
    rw [mapM_cons]
    rcases h x mem_cons_self with hnone | hsome
    · exact Or.inl (by rw [hnone]; rfl)
    · rw [hsome]
      rcases ih fun y hy => h y (mem_cons_of_mem x hy) with hnone | hrest
      · exact Or.inl (by rw [hnone]; rfl)
      · exact Or.inr (by rw [hrest]; rfl)

/-- A task finds the candidates of its slice with the hash of the buffer. -/
theorem scanSlice_eq (hsep : Separated c) {s : Nat} (hs : s < numSlices)
    (hsize : 63 ≤ data.length / numSlices) :
    scanSlice c data numSlices s = none ∨ scanSlice c data numSlices s = some
      (candidates c (prefixHash c data (s * (data.length / numSlices)))
        (s * (data.length / numSlices))
        (segment data (s * (data.length / numSlices)) (sliceEnd data.length numSlices s))) := by
  have hfit : s * (data.length / numSlices) ≤ data.length :=
    le_trans (Nat.mul_le_mul_right _ hs.le) (Nat.mul_div_le _ _)
  have hscan := fun h => scanLoop_eq hsep
    (max ((sliceEnd data.length numSlices s - s * (data.length / numSlices)) / 1024) 64) h
    (s * (data.length / numSlices))
    (segment data (s * (data.length / numSlices)) (sliceEnd data.length numSlices s)) [] (by simp)
  unfold scanSlice
  dsimp only
  by_cases hzero : s = 0
  · subst hzero
    rw [if_pos rfl, Nat.zero_mul, segment_self]
    rw [Nat.zero_mul] at hscan
    exact hscan _
  · have hstart : 63 ≤ s * (data.length / numSlices) :=
      le_trans hsize (Nat.le_mul_of_pos_left _ (Nat.pos_of_ne_zero hzero))
    rw [if_neg hzero, ← candidates_warm hstart hfit]
    exact hscan _

/-- **The tasks find the candidates of the buffer**, or one of them gives up. -/
theorem scanSlices_eq (hsep : Separated c) (hpos : 0 < numSlices)
    (hsize : 63 ≤ data.length / numSlices) :
    (List.range numSlices).mapM (scanSlice c data numSlices) = none ∨
      ∃ slices, (List.range numSlices).mapM (scanSlice c data numSlices) = some slices ∧
        slices.flatten = candidates c 0 0 data := by
  rcases mapM_none_or_map (List.range numSlices)
    (fun s hs => scanSlice_eq (c := c) hsep (mem_range.mp hs) hsize) with hnone | hsome
  · exact Or.inl hnone
  refine Or.inr ⟨_, hsome, ?_⟩
  -- All slices but the last end at multiples; the last one ends with the buffer.
  obtain ⟨k, rfl⟩ := Nat.exists_eq_add_of_le' hpos
  have hend : sliceEnd data.length (k + 1) k = data.length := if_pos rfl
  have hfit : k * (data.length / (k + 1)) ≤ data.length :=
    le_trans (Nat.mul_le_mul_right _ (Nat.le_succ k)) (Nat.mul_div_le _ _)
  rw [range_succ, map_append, flatten_append, candidates_slices k (Nat.lt_succ_self k),
    map_singleton, flatten_singleton, hend, segment_all]
  conv_rhs => rw [← take_append_drop (k * (data.length / (k + 1))) data]
  rw [candidates_append, Nat.zero_add, length_take, Nat.min_eq_left hfit]
  rfl

/-! ## What the candidates are -/

/-- The candidates from position `lo` on, in order. -/
structure Listed (c : CdcChunker) (data : List UInt8) (lo : Nat)
    (cands : List CandidateInterval) : Prop where
  single : ∀ ci ∈ cands, ci.count = 1 ∧ ci.startOff < data.length ∧
    ci.flags = c.matchFlags (prefixHash c data (ci.startOff + 1))
  sorted : cands.Pairwise fun ci cj => ci.startOff < cj.startOff
  complete : ∀ q, lo ≤ q → q < data.length → c.isMatch (prefixHash c data (q + 1)) = true →
    ∃ ci ∈ cands, ci.startOff = q

theorem mem_candidates (h : UInt64) (i : Nat) (bytes : List UInt8) (ci : CandidateInterval) :
    ci ∈ candidates c h i bytes ↔ ∃ k < bytes.length,
      c.isMatch (gearHash c.entry h (bytes.take (k + 1))) = true ∧
        ci = ⟨i + k, 1, c.matchFlags (gearHash c.entry h (bytes.take (k + 1)))⟩ := by
  -- Induction from the back: the last byte adds the last position.
  induction bytes using List.reverseRecOn with
  | nil => simp [candidates]
  | append_singleton bytes b ih =>
    have hlast : (bytes ++ [b]).take (bytes.length + 1) = bytes ++ [b] :=
      take_of_length_le (by simp)
    have hfront : ∀ k, k < bytes.length → (bytes ++ [b]).take (k + 1) = bytes.take (k + 1) :=
      fun k hk => take_append_of_le_length hk
    rw [candidates_append, mem_append, ih]
    constructor
    · rintro (⟨k, hk, hmatch, hci⟩ | hmem)
      · refine ⟨k, by simp; omega, ?_⟩
        rw [hfront k hk]
        exact ⟨hmatch, hci⟩
      · refine ⟨bytes.length, by simp, ?_⟩
        rw [hlast, gearHash_concat]
        rw [candidates, candidates] at hmem
        split at hmem
        · next hmatch => exact ⟨hmatch, mem_singleton.mp hmem⟩
        · cases hmem
    · rintro ⟨k, hk, hmatch, hci⟩
      by_cases hend : k = bytes.length
      · right
        rw [hend, hlast, gearHash_concat] at hmatch hci
        rw [candidates, candidates, if_pos hmatch]
        exact mem_singleton.mpr hci
      · left
        have hkb : k < bytes.length := by
          rw [length_append, length_singleton] at hk
          omega
        rw [hfront k hkb] at hmatch hci
        exact ⟨k, hkb, hmatch, hci⟩

theorem candidates_sorted (h : UInt64) (i : Nat) (bytes : List UInt8) :
    (candidates c h i bytes).Pairwise fun ci cj => ci.startOff < cj.startOff := by
  induction bytes generalizing h i with
  | nil => exact .nil
  | cons b bytes ih =>
    rw [candidates]
    split
    · refine pairwise_cons.mpr ⟨fun cj hcj => ?_, ih _ _⟩
      obtain ⟨k, -, -, rfl⟩ := (mem_candidates _ _ _ _).mp hcj
      show i < i + 1 + k
      omega
    · exact ih _ _

theorem candidates_listed (c : CdcChunker) (data : List UInt8) :
    Listed c data 0 (candidates c 0 0 data) where
  single := by
    intro ci hci
    obtain ⟨k, hk, -, rfl⟩ := (mem_candidates _ _ _ _).mp hci
    rw [Nat.zero_add]
    exact ⟨rfl, hk, rfl⟩
  sorted := candidates_sorted _ _ _
  complete := by
    intro q _ hq hmatch
    refine ⟨⟨0 + q, 1, _⟩, (mem_candidates _ _ _ _).mpr ⟨q, hq, hmatch, rfl⟩, Nat.zero_add q⟩

/-! ## Searching -/

section Searching

variable {cands : List CandidateInterval} {lo position start : Nat}

/-- Skipping leaves the candidates at or behind the position. -/
theorem skipTo_eq (position : Nat) (hsingle : ∀ ci ∈ cands, ci.count = 1)
    (hsorted : cands.Pairwise fun ci cj => ci.startOff < cj.startOff) :
    skipTo position cands = cands.filter fun ci => decide (position ≤ ci.startOff) := by
  induction cands with
  | nil => rfl
  | cons ci cands ih =>
    obtain ⟨hfirst, hrest⟩ := pairwise_cons.mp hsorted
    have hone := hsingle ci mem_cons_self
    unfold skipTo
    by_cases hbefore : ci.startOff + ci.count ≤ position
    · rw [dropWhile_cons_of_pos (by simpa using hbefore),
        filter_cons_of_neg (by simp; omega)]
      exact ih (fun cj hcj => hsingle cj (mem_cons_of_mem ci hcj)) hrest
    · -- This one is behind the position, and so are all that follow.
      rw [dropWhile_cons_of_neg (by simpa using hbefore), eq_comm]
      apply filter_eq_self.mpr
      intro cj hcj
      rcases mem_cons.mp hcj with rfl | hcj
      · simp
        omega
      · have := hfirst cj hcj
        simp
        omega

theorem Listed.filter (h : Listed c data lo cands) (hlo : lo ≤ position) :
    Listed c data position (cands.filter fun ci => decide (position ≤ ci.startOff)) where
  single := fun ci hci => h.single ci (mem_filter.mp hci).1
  sorted := h.sorted.filter _
  complete := by
    intro q hq hsize hmatch
    obtain ⟨ci, hci, hstart⟩ := h.complete q (hlo.trans hq) hsize hmatch
    exact ⟨ci, mem_filter.mpr ⟨hci, by simp; omega⟩, hstart⟩

/-- The first wanted candidate in front of the boundary, or what lies behind it. -/
theorem search_spec (wanted : MatchFlags → Bool) (boundary : Nat)
    (hsorted : cands.Pairwise fun ci cj => ci.startOff < cj.startOff)
    (hfrom : ∀ ci ∈ cands, start ≤ ci.startOff) :
    (∃ ci ∈ cands, (search wanted start boundary cands).1 = some ci.startOff ∧
        wanted ci.flags = true ∧ ci.startOff < boundary ∧
        ∀ cj ∈ cands, cj.startOff < ci.startOff → wanted cj.flags = false) ∨
      (search wanted start boundary cands
          = (none, cands.filter fun ci => decide (boundary ≤ ci.startOff)) ∧
        ∀ cj ∈ cands, cj.startOff < boundary → wanted cj.flags = false) := by
  induction cands with
  | nil => exact Or.inr ⟨rfl, by simp⟩
  | cons ci cands ih =>
    obtain ⟨hfirst, hrest⟩ := pairwise_cons.mp hsorted
    have hmax : max ci.startOff start = ci.startOff := Nat.max_eq_left (hfrom ci mem_cons_self)
    rw [search, hmax]
    by_cases hbefore : ci.startOff < boundary
    · rw [if_pos hbefore]
      cases hwanted : wanted ci.flags with
      | true =>
        refine Or.inl ⟨ci, mem_cons_self, ?_, hwanted, hbefore, fun cj hcj hless => ?_⟩
        · rw [if_pos ⟨rfl, hbefore⟩]
        · rcases mem_cons.mp hcj with rfl | hcj
          · omega
          · have := hfirst cj hcj
            omega
      | false =>
        rw [if_neg (by simp), filter_cons_of_neg (by simp; omega)]
        rcases ih hrest (fun cj hcj => hfrom cj (mem_cons_of_mem ci hcj)) with
          ⟨cj, hcj, hfound, hwantedj, hbeforej, hnone⟩ | ⟨hfound, hnone⟩
        · refine Or.inl ⟨cj, mem_cons_of_mem ci hcj, hfound, hwantedj, hbeforej, ?_⟩
          intro ck hck hless
          rcases mem_cons.mp hck with rfl | hck
          · exact hwanted
          · exact hnone ck hck hless
        · refine Or.inr ⟨hfound, fun ck hck hless => ?_⟩
          rcases mem_cons.mp hck with rfl | hck
          · exact hwanted
          · exact hnone ck hck hless
    · have hbehind : ∀ cj ∈ ci :: cands, boundary ≤ cj.startOff := by
        intro cj hcj
        rcases mem_cons.mp hcj with rfl | hcj
        · omega
        · have := hfirst cj hcj
          omega
      rw [if_neg hbefore]
      refine Or.inr ⟨?_, fun cj hcj hless => absurd (hbehind cj hcj) (by omega)⟩
      rw [filter_eq_self.mpr (fun cj hcj => by simpa using hbehind cj hcj)]

end Searching

/-! ## One turn of the replay -/

section Replay

variable {p e : Nat} {cands : List CandidateInterval}

theorem hashRange_segment (he : e ≤ data.length) (hlen : p + 64 ≤ e) :
    c.hashRange (segment data p e) = prefixHash c data e := by
  unfold hashRange prefixHash segment
  rw [gearHash_drop c.entry 0 (show 64 ≤ (data.take e).length - p by
    rw [length_take]
    omega)]

theorem cuts_middle (he : e ≤ data.length) (hmin : p + minChunk ≤ e) (havg : e < p + avgChunk) :
    Cuts c data p e ↔ c.isStrict (prefixHash c data e) = true := by
  obtain ⟨hminSize, -, -⟩ := chunk_sizes
  unfold Cuts
  rw [CdcStream.stops_middle (show minChunk ≤ e - p by omega) (show e - p < avgChunk by omega),
    hashRange_segment he (by omega)]

theorem cuts_late (he : e ≤ data.length) (havg : p + avgChunk ≤ e) :
    Cuts c data p e ↔ c.isLight (prefixHash c data e) = true ∨ e = p + maxChunk := by
  obtain ⟨-, havgSize, hmaxSize⟩ := chunk_sizes
  unfold Cuts
  rw [CdcStream.stops_late (show avgChunk ≤ e - p by omega), hashRange_segment he (by omega),
    Bool.or_eq_true, decide_eq_true_iff]
  have hmax : e - p = maxChunk ↔ e = p + maxChunk := by omega
  exact or_congr_right hmax

theorem Listed.candidate {lo q : Nat} (h : Listed c data lo cands) (hlo : lo ≤ q)
    (hq : q < data.length) (hmatch : c.isMatch (prefixHash c data (q + 1)) = true) :
    ∃ ci ∈ cands, ci.startOff = q ∧ ci.flags = c.matchFlags (prefixHash c data (q + 1)) := by
  obtain ⟨ci, hci, hstart⟩ := h.complete q hlo hq hmatch
  refine ⟨ci, hci, hstart, ?_⟩
  rw [← hstart]
  exact (h.single ci hci).2.2

section

variable (h : Listed c data (p + minChunk - 1) cands)
include h

/-- Where the strict candidates up to a position are none, there is no cut in front of the
average. -/
theorem Listed.no_cut_middle {stop : Nat}
    (hnone : ∀ cj ∈ cands, cj.startOff < stop → cj.flags.strict = false) (hpe : p < e)
    (he : e ≤ data.length) (hstop : e ≤ stop) (havg : e < p + avgChunk) : ¬ Cuts c data p e := by
  intro hcut
  have hmin := hcut.min_le
  obtain ⟨q, rfl⟩ : ∃ q, e = q + 1 := ⟨e - 1, by omega⟩
  have hstrict := (cuts_middle he (by omega) havg).mp hcut
  obtain ⟨cj, hcj, hstart, hflags⟩ := h.candidate (show p + minChunk - 1 ≤ q by omega) he (by
    unfold isMatch
    rw [hstrict, Bool.true_or])
  have hfalse := hnone cj hcj (by omega)
  rw [hflags] at hfalse
  exact Bool.false_ne_true (hfalse.symm.trans hstrict)

/-- Where the light candidates up to a position are none, there is no cut behind the average
but the maximum. -/
theorem Listed.no_cut_late (stop : Nat)
    (hnone : ∀ cj ∈ cands, p + avgChunk ≤ cj.startOff + 1 → cj.startOff < stop →
      cj.flags.light = false)
    (he : e ≤ data.length) (hstop : e ≤ stop) (havg : p + avgChunk ≤ e) (hmax : e ≠ p + maxChunk) :
    ¬ Cuts c data p e := by
  intro hcut
  obtain ⟨hminSize, havgSize, -⟩ := chunk_sizes
  obtain ⟨q, rfl⟩ : ∃ q, e = q + 1 := ⟨e - 1, by omega⟩
  have hlight := ((cuts_late he havg).mp hcut).resolve_right hmax
  obtain ⟨cj, hcj, hstart, hflags⟩ := h.candidate (show p + minChunk - 1 ≤ q by omega) he (by
    unfold isMatch
    rw [hlight, Bool.or_true])
  have hfalse := hnone cj hcj (by omega) (by omega)
  rw [hflags] at hfalse
  exact Bool.false_ne_true (hfalse.symm.trans hlight)

/-- **A turn finds the first cut**, unless it is the maximum. -/
theorem findCut_spec (hfrom : ∀ ci ∈ cands, p + minChunk - 1 ≤ ci.startOff) :
    (∃ q, findCut (p + minChunk - 1) (min data.length (p + avgChunk - 1))
          (min data.length (p + maxChunk)) cands = some q ∧ p + minChunk ≤ q + 1 ∧
        q < data.length ∧ Cuts c data p (q + 1) ∧
        ∀ e, p < e → e < q + 1 → ¬ Cuts c data p e) ∨
      (findCut (p + minChunk - 1) (min data.length (p + avgChunk - 1))
          (min data.length (p + maxChunk)) cands = none ∧
        ∀ e, p < e → e ≤ data.length → e < p + maxChunk → ¬ Cuts c data p e) := by
  obtain ⟨hminSize, havgSize, hmaxSize⟩ := chunk_sizes
  unfold findCut searchStrict
  rcases search_spec MatchFlags.strict (min data.length (p + avgChunk - 1)) h.sorted hfrom
    with ⟨ci, hci, hfound, hstrict, hbefore, hnone⟩ | ⟨hfound, hnone⟩
  · -- A strict match in front of the average.
    have hstart := hfrom ci hci
    refine Or.inl ⟨ci.startOff, ?_, by omega, (h.single ci hci).2.1, ?_, ?_⟩
    · split
      · next cut _ heq =>
        rw [heq] at hfound
        exact hfound
      · next heq =>
        rw [heq] at hfound
        cases hfound
    · rw [cuts_middle (by omega) (by omega) (by omega)]
      rw [(h.single ci hci).2.2] at hstrict
      exact hstrict
    · intro e hpe he
      exact h.no_cut_middle hnone hpe (by omega) (by omega) (by omega)
  · rw [hfound]
    dsimp only
    -- The candidates behind the average are left.
    set rest := cands.filter fun ci => decide (min data.length (p + avgChunk - 1) ≤ ci.startOff)
      with hrest
    have hmem : ∀ ci, ci ∈ rest ↔ ci ∈ cands ∧
      min data.length (p + avgChunk - 1) ≤ ci.startOff := by
      intro ci
      rw [hrest, mem_filter, decide_eq_true_iff]
    have hsorted := h.sorted.filter
      (fun ci => decide (min data.length (p + avgChunk - 1) ≤ ci.startOff))
    have hskip : skipTo (min data.length (p + avgChunk - 1)) rest = rest := by
      rw [skipTo_eq _ (fun ci hci => (h.single ci ((hmem ci).mp hci).1).1) hsorted]
      exact filter_eq_self.mpr fun ci hci => decide_eq_true ((hmem ci).mp hci).2
    rw [hskip]
    unfold searchLight
    rcases search_spec MatchFlags.light (min data.length (p + maxChunk)) hsorted
      (fun ci hci => ((hmem ci).mp hci).2) with
      ⟨ci, hci, hfound, hlight, hbefore, hnoneLight⟩ | ⟨hfound, hnoneLight⟩
    · -- A light match beyond the average.
      obtain ⟨hci, hstart⟩ := (hmem ci).mp hci
      refine Or.inl ⟨ci.startOff, hfound, by omega, by omega, ?_, ?_⟩
      · rw [cuts_late (by omega) (by omega)]
        rw [(h.single ci hci).2.2] at hlight
        exact Or.inl hlight
      · intro e hpe he
        by_cases havg : e < p + avgChunk
        · exact h.no_cut_middle hnone hpe (by omega) (by omega) havg
        · exact h.no_cut_late ci.startOff
            (fun cj hcj hbehind hless => hnoneLight cj ((hmem cj).mpr ⟨hcj, by omega⟩) hless)
            (by omega) (by omega) (by omega) (by omega)
    · rw [hfound]
      refine Or.inr ⟨rfl, fun e hpe he hmax => ?_⟩
      by_cases havg : e < p + avgChunk
      · exact h.no_cut_middle hnone hpe he (by omega) havg
      · exact h.no_cut_late (min data.length (p + maxChunk))
          (fun cj hcj hbehind hless => hnoneLight cj ((hmem cj).mpr ⟨hcj, by omega⟩) hless)
          he (by omega) (by omega) (by omega)

end

/-! ## The whole replay -/

/-- The hash over the last 64 bytes is that of the chunk. -/
theorem chunkOf_eq (he : e ≤ data.length) (hlen : p + minChunk ≤ e) :
    (⟨p, e - p, c.hashRange (segment data (e - 64) e)⟩ : CdcChunk) = chunkOf c data p e := by
  obtain ⟨hminSize, -, -⟩ := chunk_sizes
  unfold chunkOf
  rw [hashRange_segment he (by omega), hashRange_segment he (by omega)]

theorem replayTail_last (hp : p < data.length) (out : List CdcChunk) :
    replayTail c data (p, out) = out ++ [chunkOf c data p data.length] := by
  unfold replayTail
  dsimp only
  rw [if_pos hp]
  unfold chunkOf
  split
  · rw [hashRange_segment le_rfl (by omega), hashRange_segment le_rfl (by omega)]
  · rfl

theorem replayLoop_end (fuel : Nat) (cands : List CandidateInterval) (out : List CdcChunk) :
    replayLoop c data fuel data.length cands out = (data.length, out) := by
  cases fuel with
  | zero => rfl
  | succ fuel =>
    rw [replayLoop, if_neg (Nat.lt_irrefl _)]

/-- **The replay cuts where the buffer is cut.** -/
theorem replayLoop_chunked (fuel : Nat) {lo : Nat} (hlisted : Listed c data lo cands) (hlo : lo ≤ p)
    (hp : p < data.length) (hfuel : data.length - p ≤ fuel) (out : List CdcChunk) :
    ∃ chunks, Chunked c data p chunks ∧
      replayTail c data (replayLoop c data fuel p cands out) = out ++ chunks := by
  obtain ⟨hminSize, havgSize, hmaxSize⟩ := chunk_sizes
  induction fuel generalizing p lo cands out with
  | zero => omega
  | succ fuel ih =>
    rw [replayLoop, if_pos hp]
    by_cases hshort : data.length - p ≤ minChunk
    · rw [if_pos hshort]
      refine ⟨_, .last hp fun e hpe he hcut => ?_, replayTail_last hp out⟩
      have := hcut.min_le
      omega
    rw [if_neg hshort]
    dsimp only
    have hskip := skipTo_eq (p + minChunk - 1)
      (fun ci hci => (hlisted.single ci hci).1) hlisted.sorted
    have hnext : Listed c data (p + minChunk - 1) (skipTo (p + minChunk - 1) cands) := by
      rw [hskip]
      exact hlisted.filter (by omega)
    have hfrom : ∀ ci ∈ skipTo (p + minChunk - 1) cands, p + minChunk - 1 ≤ ci.startOff := by
      intro ci hci
      rw [hskip, mem_filter, decide_eq_true_iff] at hci
      exact hci.2
    rcases findCut_spec hnext hfrom with ⟨q, hfound, hmin, hq, hcut, hfirst⟩ | ⟨hfound, hnone⟩
    · rw [hfound]
      dsimp only
      rw [chunkOf_eq (show q + 1 ≤ data.length from hq) hmin]
      by_cases hend : q + 1 = data.length
      · -- The cut is the end of the buffer.
        rw [hend, replayLoop_end]
        rw [hend] at hfirst
        refine ⟨_, .last hp hfirst, ?_⟩
        unfold replayTail
        dsimp only
        rw [if_neg (Nat.lt_irrefl _)]
      · obtain ⟨rest, hchunked, hreplay⟩ := @ih (q + 1) _ _ hnext (by omega) (by omega) (by omega)
          (out ++ [chunkOf c data p (q + 1)])
        refine ⟨_, .cut (by omega) (by omega) hcut hfirst hchunked, ?_⟩
        rw [hreplay, append_assoc]
        rfl
    · rw [hfound]
      by_cases hend : min data.length (p + maxChunk) = data.length
      · rw [if_pos hend]
        refine ⟨_, .last hp fun e hpe he => ?_, replayTail_last hp out⟩
        exact hnone e hpe he.le (by omega)
      · -- The maximum is the cut.
        rw [if_neg hend]
        have hchunk := @chunkOf_eq c data p (p + maxChunk) (by omega) (by omega)
        rw [Nat.add_sub_cancel_left] at hchunk
        rw [hchunk]
        obtain ⟨rest, hchunked, hreplay⟩ := @ih (p + maxChunk) _ _ hnext (by omega) (by omega)
          (by omega) (out ++ [chunkOf c data p (p + maxChunk)])
        refine ⟨_, .cut (by omega) (by omega) (cuts_max c data p)
          (fun e hpe he => hnone e hpe (by omega) he) hchunked, ?_⟩
        rw [hreplay, append_assoc]
        rfl

theorem replay_eq (hne : data ≠ []) : replay c data (candidates c 0 0 data) = c.chunk data := by
  have hpos := length_pos_iff.mpr hne
  obtain ⟨chunks, hchunked, hreplay⟩ := replayLoop_chunked data.length
    (candidates_listed c data) le_rfl hpos (Nat.sub_le _ _) []
  unfold replay
  rw [hreplay, nil_append]
  exact hchunked.unique (CdcStream.chunk_chunked hne)

end Replay

/-! ## Every number of threads -/

/-- **Chunking in parallel is chunking.** -/
theorem chunkParallel_eq (hsep : Separated c) (data : List UInt8) (threads : Nat)
    (pool : Option Nat) (hardwareConcurrency : Nat) :
    (chunkParallel c data threads pool hardwareConcurrency).1 = c.chunk data := by
  unfold chunkParallel
  split
  · next hempty =>
    rw [length_eq_zero_iff.mp hempty]
    exact (CdcStream.chunk_nil c).symm
  next hne =>
  split
  · rfl
  dsimp only
  split
  · rfl
  split
  · rfl
  next hmany =>
  generalize hnum : min (threadCount threads pool hardwareConcurrency)
    (data.length / (2 * maxChunk))
    = numSlices at hmany ⊢
  -- Every slice has at least twice the maximum.
  have hsize : 63 ≤ data.length / numSlices := by
    obtain ⟨-, -, hmaxSize⟩ := chunk_sizes
    have hle : numSlices ≤ data.length / (2 * maxChunk) := hnum ▸ Nat.min_le_right _ _
    have hmul : numSlices * (2 * maxChunk) ≤ data.length :=
      (Nat.le_div_iff_mul_le (by omega)).mp hle
    refine (Nat.le_div_iff_mul_le (by omega)).mpr (le_trans ?_ hmul)
    rw [hmaxSize]
    omega
  rcases scanSlices_eq hsep (show 0 < numSlices by omega) hsize with
    hnone | ⟨slices, hsome, hflat⟩
  · rw [hnone]
  · rw [hsome]
    dsimp only
    rw [hflat]
    exact replay_eq fun hnil => hne (length_eq_zero_iff.mpr hnil)

end CdcChunker

open CdcChunker CdcStream in
/-- **Chunking does not depend on feeding and threading.**  However the input is cut into
calls of `feed`, the chunks are those of the whole input; they tile it, and all but the
last have a length between the minimum and the maximum; and `chunk_parallel` returns the
same chunks for every number of threads, with or without a pool. -/
theorem cdc_chunks_independent (pieces : List (List UInt8)) (threads : Nat) (pool : Option Nat)
    (hardwareConcurrency : Nat) :
    chunkPieces CdcChunker.new pieces = CdcChunker.new.chunk pieces.flatten ∧
      Tiles pieces.flatten.length 0 (chunkPieces CdcChunker.new pieces) ∧
      (∀ chunk ∈ (chunkPieces CdcChunker.new pieces).dropLast,
        minChunk ≤ chunk.length ∧ chunk.length ≤ maxChunk) ∧
      (CdcChunker.new.chunkParallel pieces.flatten threads pool hardwareConcurrency).1
        = chunkPieces CdcChunker.new pieces := by
  have hpieces := chunkPieces_eq (c := CdcChunker.new) pieces
  rw [hpieces]
  have hparallel := chunkParallel_eq separated_new pieces.flatten threads pool hardwareConcurrency
  by_cases hempty : pieces.flatten = []
  · rw [hempty] at hparallel ⊢
    rw [chunk_nil] at hparallel ⊢
    exact ⟨rfl, .nil, by simp, hparallel⟩
  · have hchunked : Chunked CdcChunker.new pieces.flatten 0 _ := chunk_chunked hempty
    exact ⟨rfl, hchunked.tiles, hchunked.lengths.1, hparallel⟩

end OpenRar.Compress
