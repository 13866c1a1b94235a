import OpenRar.Compress.EncoderState

/-!
# The match finder

Embedding of the hash chains of `Compressor50`: the insertion of positions, the walk
of a chain with its screens and early exits, the choice between distance bands after
the walk, and the measurement of a repeat distance.

The entries of the chains are hints only.  They may be stale, truncated to 32 bits or
never written; what makes a match usable is that its bytes were compared.  So the one
statement about the finder is that every match it returns was compared and is in
reach; nothing is said about which one is found.
-/

namespace OpenRar.Compress

open OpenRar.Core

namespace Compressor50

variable (c : Compressor50)

/-! ## Comparison of two places -/

/-- The common run of the bytes at two places, up to a bound: the value that every
variant of `match_length_simd` computes. -/
def matchRun (data : List UInt8) : Nat → Nat → Nat → Nat
  | 0, _, _ => 0
  | cap + 1, p, q =>
    if data.getD p 0 = data.getD q 0 then matchRun data cap (p + 1) (q + 1) + 1 else 0

theorem matchRun_le (data : List UInt8) (cap p q : Nat) : matchRun data cap p q ≤ cap := by
  induction cap generalizing p q with
  | zero => exact Nat.le_refl 0
  | succ cap ih =>
    unfold matchRun
    split
    · exact Nat.succ_le_succ (ih (p + 1) (q + 1))
    · exact Nat.zero_le _

theorem matchRun_agree (data : List UInt8) (cap p q : Nat) :
    ∀ i < matchRun data cap p q, data.getD (p + i) 0 = data.getD (q + i) 0 := by
  induction cap generalizing p q with
  | zero =>
    intro i hi
    exact absurd hi (Nat.not_lt_zero i)
  | succ cap ih =>
    intro i hi
    unfold matchRun at hi
    split at hi
    · next heq =>
      cases i with
      | zero => exact heq
      | succ i =>
        have := ih (p + 1) (q + 1) i (by omega)
        rwa [show p + (i + 1) = p + 1 + i by omega, show q + (i + 1) = q + 1 + i by omega]
    · exact absurd hi (Nat.not_lt_zero i)

/-- `match_length` -/
def matchLength (pos cand cap : Nat) : Nat := matchRun c.data cap pos cand

/-- `rep_length` -/
def repLength (pos dist cap : Nat) : Nat :=
  if dist = sizeMax ∨ dist = 0 ∨ dist > pos - c.posBase ∨ dist > c.maxDist then 0
  else matchRun c.data (min cap (c.availAt pos)) pos (pos - dist)

/-! ## Chains -/

/-- `load_le32` at a position of the buffer. -/
def wordAt (pos : Nat) : Nat :=
  (c.byteAt pos).toNat + (c.byteAt (pos + 1)).toNat * 2 ^ 8 +
    (c.byteAt (pos + 2)).toNat * 2 ^ 16 + (c.byteAt (pos + 3)).toNat * 2 ^ 24

/-- `calc_hash` -/
def calcHash (pos : Nat) : Nat :=
  c.wordAt pos * 0x9e3779b1 % 2 ^ 32 / 2 ^ (32 - hashBits)

/-- `insert_position` -/
def insertPosition (pos : Nat) : Compressor50 :=
  if pos + 4 > c.srcLoaded ∨ pos < c.posBase then c
  else
    let h := c.calcHash pos
    let entry := if c.isLargeWindow then pos else pos % 2 ^ 32
    { c with
      prev := Function.update c.prev (pos % c.winSize) (c.head h)
      head := Function.update c.head h entry }

/-- `hash_range`; its unrolled part inserts the same four positions as its loop. -/
def hashRange (start stop : Nat) : Compressor50 :=
  (List.range' start (stop - start)).foldl
    (fun c pos => if pos + 4 ≤ c.srcLoaded then c.insertPosition pos else c) c

/-- `reconstruct_pos`; `none` is the source's `-1`. -/
def reconstructPos (pos trunc : Nat) : Option Nat :=
  if trunc = 2 ^ 32 - 1 then none
  else
    let dist32 := (pos % 2 ^ 32 + 2 ^ 32 - trunc) % 2 ^ 32
    if dist32 = 0 ∨ dist32 > c.maxDist ∨ dist32 > pos then none else some (pos - dist32)

/-- The candidate that an entry of a chain stands for. -/
def candidateOf (pos entry : Nat) : Option Nat :=
  if c.isLargeWindow then
    if entry ≠ 2 ^ 64 - 1 ∧ pos > entry ∧ pos - entry ≤ c.maxDist then some entry else none
  else c.reconstructPos pos entry

variable {c} {pos cand : Nat} {bands : List MatchInfo}

theorem candidateOf_lt {entry : Nat} (h : c.candidateOf pos entry = some cand) : cand < pos := by
  unfold candidateOf reconstructPos at h
  split at h
  · split at h
    · next hentry =>
      cases h
      exact hentry.2.1
    · cases h
  · dsimp only at h
    split at h
    · cases h
    · split at h
      · cases h
      · cases h
        omega

/-! ## The walk -/

/-- `MatchInfo` -/
structure MatchInfo where
  length : Nat
  candidate : Option Nat
  deriving DecidableEq, Repr

/-- A match that the encoder may use at `pos`: its source is in the buffer and in
reach, and its bytes were compared. -/
structure Compared (c : Compressor50) (pos length cand : Nat) : Prop where
  base : c.posBase ≤ cand
  before : cand < pos
  near : pos - cand ≤ c.maxDist
  inside : pos + length ≤ c.srcLoaded
  bound : length ≤ maxLzMatch + 3
  agree : ∀ i < length, c.data.getD (pos + i) 0 = c.data.getD (cand + i) 0

theorem Compared.shorten {length length' : Nat} (h : Compared c pos length cand)
    (hle : length' ≤ length) : Compared c pos length' cand where
  base := h.base
  before := h.before
  near := h.near
  inside := by
    have := h.inside
    omega
  bound := le_trans hle h.bound
  agree := fun i hi => h.agree i (by omega)

/-- A finding is empty or a compared match. -/
def MatchInfo.Sound (c : Compressor50) (pos : Nat) (m : MatchInfo) : Prop :=
  m.length ≠ 0 → ∃ cand, m.candidate = some cand ∧ Compared c pos m.length cand

theorem MatchInfo.sound_empty (c : Compressor50) (pos : Nat) (cand : Option Nat) :
    MatchInfo.Sound c pos ⟨0, cand⟩ := fun h => absurd rfl h

/-- The shortest length with which a candidate is worth measuring. -/
def requiredLength (c : Compressor50) (pos : Nat) (best : MatchInfo) (cand : Nat) : Nat :=
  let inc := lengthIncrement (pos - cand)
  let minLegalLen := inc + c.minMatch
  let reqLen := if best.length > 0 then best.length + 1 else minLegalLen
  let reqLen :=
    if best.length > 0 then
      let bestInc := lengthIncrement (pos - best.candidate.getD 0)
      if inc > bestInc then max reqLen (best.length + (inc - bestInc)) else reqLen
    else reqLen
  max reqLen minLegalLen

/-- The screens on the first bytes and the measurement; `none` if a screen fails. -/
def measure (c : Compressor50) (pos cand limit : Nat) : Option Nat :=
  if limit ≥ 4 then
    if c.wordAt cand ≠ c.wordAt pos then none
    else some (4 + matchRun c.data (limit - 4) (pos + 4) (cand + 4))
  else if c.byteAt cand ≠ c.byteAt pos then none
  else if limit ≥ 3 ∧ (c.byteAt (cand + 1) ≠ c.byteAt (pos + 1) ∨
      c.byteAt (cand + 2) ≠ c.byteAt (pos + 2)) then none
  else some (c.matchLength pos cand limit)

/-- A distance band keeps the longest match that was measured in it. -/
def recordBand (bands : List MatchInfo) (pos len cand : Nat) : List MatchInfo :=
  let band := lengthIncrement (pos - cand)
  if len > (bands.getD band ⟨0, none⟩).length then bands.set band ⟨len, some cand⟩ else bands

/-- The chain walk of `find_match_impl`: the longest match and the longest of each
band.  The first argument is the remaining budget. -/
def walkChain (c : Compressor50) (pos maxChain niceLen limit : Nat) :
    Nat → Option Nat → MatchInfo → List MatchInfo → MatchInfo × List MatchInfo
  | 0, _, best, bands => (best, bands)
  | _ + 1, none, best, bands => (best, bands)
  | chain + 1, some cand, best, bands =>
    if cand < c.posBase ∨ pos - cand > c.maxDist then (best, bands)
    else if best.length ≥ niceLen * 3 / 4 ∧ pos - cand > 0x40000 ∧
        best.length ≥ niceLen / 2 then (best, bands)
    else
      let next := c.candidateOf pos (c.prev (cand % c.winSize))
      let reqLen := c.requiredLength pos best cand
      if limit < reqLen then walkChain c pos maxChain niceLen limit chain next best bands
      else if reqLen > 0 ∧ c.byteAt (cand + reqLen - 1) ≠ c.byteAt (pos + reqLen - 1) then
        walkChain c pos maxChain niceLen limit chain next best bands
      else if best.length ≥ 32 ∧ pos - cand > 0x100000 ∧ maxChain - chain ≥ 16 then
        (best, bands)
      else
        match c.measure pos cand limit with
        | none => walkChain c pos maxChain niceLen limit chain next best bands
        | some len =>
          if len < lengthIncrement (pos - cand) + c.minMatch then
            walkChain c pos maxChain niceLen limit chain next best bands
          else if len > best.length ∧ (len ≥ niceLen ∨ len ≥ limit) then
            (⟨len, some cand⟩, bands)
          else
            walkChain c pos maxChain niceLen limit chain next
              (if len > best.length then ⟨len, some cand⟩ else best)
              (recordBand bands pos len cand)

/-! ## The choice between bands -/

/-- `price_fresh`, in bits. -/
def priceFresh (len inc dist : Nat) : Nat :=
  Nat.log2 (len - inc) + 9 + (if Nat.log2 dist > 3 then Nat.log2 dist - 3 else 0)

/-- The cheapest admissible entry of the bands, with its price. -/
def cheapestBand (c : Compressor50) (pos : Nat) (bands : List MatchInfo) :
    Option (MatchInfo × Nat) :=
  bands.foldl
    (fun alt slot =>
      match slot.candidate with
      | none => alt
      | some cand =>
        let inc := lengthIncrement (pos - cand)
        if slot.length = 0 ∨ slot.length < c.minMatch ∨ slot.length < inc + 2 then alt
        else
          let price := priceFresh slot.length inc (pos - cand)
          match alt with
          | none => some (slot, price)
          | some (_, altPrice) => if price < altPrice then some (slot, price) else alt)
    none

/-- The back-shift of `find_match_impl`: a nearer band replaces the longest match when
it is cheaper by at least a byte. -/
def backShift (c : Compressor50) (pos : Nat) (best : MatchInfo) (bands : List MatchInfo) :
    MatchInfo :=
  match c.cheapestBand pos bands with
  | none => best
  | some (alt, altPrice) =>
    let altInc := lengthIncrement (pos - alt.candidate.getD 0)
    match best.length, best.candidate with
    | len + 1, some cand =>
      let inc := lengthIncrement (pos - cand)
      let shippedPrice :=
        if len + 1 ≥ inc + 2 then priceFresh (len + 1) inc (pos - cand) else 7 * (len + 1)
      if c.backShiftEnable ∧ shippedPrice ≥ altPrice + 8 ∧
          alt.length + inc ≥ len + 1 + altInc then alt
      else best
    | _, _ => if c.backShiftEnable ∧ 7 * alt.length ≥ altPrice + 8 then alt else best

/-- `find_match` -/
def findMatch (c : Compressor50) (pos maxChain niceLen : Nat) : MatchInfo :=
  if pos + 4 > c.srcLoaded ∨ pos < c.posBase then ⟨0, none⟩
  else
    let cand := c.candidateOf pos (c.head (c.calcHash pos))
    let limit := min (c.availAt pos) (maxLzMatch + 3)
    let (best, bands) :=
      walkChain c pos maxChain niceLen limit maxChain cand ⟨0, none⟩ (List.replicate 4 ⟨0, none⟩)
    let best := if best.length < c.minMatch then { best with length := 0 } else best
    c.backShift pos best bands

/-! ## Every finding was compared -/

theorem wordAt_bytes {p q : Nat} (h : c.wordAt p = c.wordAt q) :
    ∀ i < 4, c.data.getD (p + i) 0 = c.data.getD (q + i) 0 := by
  unfold wordAt byteAt at h
  intro i hi
  have hbyte : ∀ b : UInt8, b.toNat < 256 := fun b => UInt8.toNat_lt b
  have hp0 := hbyte (c.data.getD p 0)
  have hp1 := hbyte (c.data.getD (p + 1) 0)
  have hp2 := hbyte (c.data.getD (p + 2) 0)
  have hq0 := hbyte (c.data.getD q 0)
  have hq1 := hbyte (c.data.getD (q + 1) 0)
  have hq2 := hbyte (c.data.getD (q + 2) 0)
  apply UInt8.toNat_inj.mp
  interval_cases i
  · rw [Nat.add_zero, Nat.add_zero]
    omega
  · omega
  · omega
  · omega

variable {limit len : Nat}

/-- A measurement stays below its limit and counts bytes that agree. -/
theorem measure_spec (h : c.measure pos cand limit = some len) :
    len ≤ limit ∧ ∀ i < len, c.data.getD (pos + i) 0 = c.data.getD (cand + i) 0 := by
  unfold measure at h
  split at h
  · next hlimit =>
    split at h
    · cases h
    · next hword =>
      cases h
      have hle := matchRun_le c.data (limit - 4) (pos + 4) (cand + 4)
      refine ⟨by omega, fun i hi => ?_⟩
      by_cases hi4 : i < 4
      · exact (wordAt_bytes (not_not.mp hword) i hi4).symm
      · have := matchRun_agree c.data (limit - 4) (pos + 4) (cand + 4) (i - 4) (by omega)
        rwa [show pos + 4 + (i - 4) = pos + i by omega,
          show cand + 4 + (i - 4) = cand + i by omega] at this
  · split at h
    · cases h
    · split at h
      · cases h
      · cases h
        exact ⟨matchRun_le _ _ _ _, matchRun_agree _ _ _ _⟩

theorem recordBand_sound (hbands : ∀ slot ∈ bands, MatchInfo.Sound c pos slot)
    (hcand : Compared c pos len cand) :
    ∀ slot ∈ recordBand bands pos len cand, MatchInfo.Sound c pos slot := by
  intro slot hslot
  unfold recordBand at hslot
  dsimp only at hslot
  split at hslot
  · rcases List.mem_or_eq_of_mem_set hslot with hmem | heq
    · exact hbands slot hmem
    · rw [heq]
      exact fun _ => ⟨cand, rfl, hcand⟩
  · exact hbands slot hslot

/-- The result of a walk: the best slot and the bands are sound. -/
def SoundWalk (c : Compressor50) (pos : Nat) (result : MatchInfo × List MatchInfo) : Prop :=
  MatchInfo.Sound c pos result.1 ∧ ∀ slot ∈ result.2, MatchInfo.Sound c pos slot

/-- **The walk keeps only compared matches**, in the best slot and in the bands. -/
theorem walkChain_sound (maxChain niceLen : Nat) (hlimit : pos + limit ≤ c.srcLoaded)
    (hmax : limit ≤ maxLzMatch + 3) (chain : Nat) :
    ∀ (cand : Option Nat) (best : MatchInfo) (bands : List MatchInfo),
      (∀ x, cand = some x → x < pos) → MatchInfo.Sound c pos best →
      (∀ slot ∈ bands, MatchInfo.Sound c pos slot) →
      SoundWalk c pos (walkChain c pos maxChain niceLen limit chain cand best bands) := by
  induction chain with
  | zero =>
    intro cand best bands _ hbest hbands
    exact ⟨hbest, hbands⟩
  | succ chain ih =>
    intro cand best bands hlt hbest hbands
    cases cand with
    | none => exact ⟨hbest, hbands⟩
    | some cand =>
      have hnext : ∀ x, c.candidateOf pos (c.prev (cand % c.winSize)) = some x → x < pos :=
        fun x hx => candidateOf_lt hx
      unfold walkChain
      dsimp only
      split
      · exact ⟨hbest, hbands⟩
      next hreach =>
      split
      · exact ⟨hbest, hbands⟩
      split
      · exact ih _ _ _ hnext hbest hbands
      split
      · exact ih _ _ _ hnext hbest hbands
      split
      · exact ⟨hbest, hbands⟩
      split
      · exact ih _ _ _ hnext hbest hbands
      · next len hmeasure =>
        obtain ⟨hlen, hagree⟩ := measure_spec hmeasure
        have hcand : Compared c pos len cand :=
          { base := by omega
            before := hlt cand rfl
            near := by omega
            inside := by omega
            bound := le_trans hlen hmax
            agree := hagree }
        have hnew : MatchInfo.Sound c pos ⟨len, some cand⟩ := fun _ => ⟨cand, rfl, hcand⟩
        split
        · exact ih _ _ _ hnext hbest hbands
        split
        · exact ⟨hnew, hbands⟩
        · apply ih _ _ _ hnext _ (recordBand_sound hbands hcand)
          split
          · exact hnew
          · exact hbest

theorem cheapestBand_mem {alt : MatchInfo} {price : Nat}
    (h : c.cheapestBand pos bands = some (alt, price)) :
    alt ∈ bands := by
  revert h
  refine List.foldlRecOn
    (motive := fun acc : Option (MatchInfo × Nat) => acc = some (alt, price) → alt ∈ bands)
    bands _ (by simp) fun acc hacc slot hslot hy => ?_
  dsimp only at hy
  split at hy
  · exact hacc hy
  · split_ifs at hy
    · exact hacc hy
    · split at hy
      · cases hy
        exact hslot
      · split_ifs at hy
        · cases hy
          exact hslot
        · exact hacc hy

theorem backShift_sound {best : MatchInfo} (hbest : MatchInfo.Sound c pos best)
    (hbands : ∀ slot ∈ bands, MatchInfo.Sound c pos slot) :
    MatchInfo.Sound c pos (c.backShift pos best bands) := by
  unfold backShift
  split
  · exact hbest
  · next alt price hcheap =>
    have halt := hbands alt (cheapestBand_mem hcheap)
    dsimp only
    split <;> split_ifs <;> assumption

/-- **The finder returns nothing or a compared match.** -/
theorem findMatch_sound (c : Compressor50) (pos maxChain niceLen : Nat) :
    MatchInfo.Sound c pos (c.findMatch pos maxChain niceLen) := by
  unfold findMatch
  split
  · exact MatchInfo.sound_empty c pos none
  · next hpos =>
    have hlimit : pos + min (c.availAt pos) (maxLzMatch + 3) ≤ c.srcLoaded := by
      unfold availAt
      split <;> omega
    obtain ⟨hbest, hbands⟩ := walkChain_sound maxChain niceLen
      hlimit (Nat.min_le_right _ _) maxChain
      (c.candidateOf pos (c.head (c.calcHash pos))) ⟨0, none⟩ (List.replicate 4 ⟨0, none⟩)
      (fun x hx => candidateOf_lt hx) (MatchInfo.sound_empty c pos none)
      (fun slot hslot => by
        rw [List.eq_of_mem_replicate hslot]
        exact MatchInfo.sound_empty c pos none)
    refine backShift_sound ?_ hbands
    split_ifs
    · exact MatchInfo.sound_empty c pos _
    · exact hbest

/-- A repeat distance is measured like a match. -/
theorem repLength_compared {dist cap : Nat} (hcap : cap ≤ maxLzMatch + 3)
    (hpos : c.repLength pos dist cap ≠ 0) :
    Compared c pos (c.repLength pos dist cap) (pos - dist) ∧ 0 < dist ∧ dist ≤ pos := by
  unfold repLength at hpos ⊢
  split at hpos
  · exact absurd rfl hpos
  · next hdist =>
    rw [if_neg hdist]
    have hle := matchRun_le c.data (min cap (c.availAt pos)) pos (pos - dist)
    have hne : c.availAt pos ≠ 0 := by
      intro hzero
      rw [hzero, Nat.min_zero] at hpos
      exact hpos rfl
    have havail : pos + c.availAt pos = c.srcLoaded := by
      unfold availAt at hne ⊢
      split at hne
      · next h =>
        rw [if_pos h]
        omega
      · exact absurd rfl hne
    refine ⟨?_, by omega, by omega⟩
    constructor
    · omega
    · omega
    · omega
    · omega
    · omega
    · exact matchRun_agree _ _ _ _

theorem repLength_le (c : Compressor50) (pos dist cap : Nat) : c.repLength pos dist cap ≤ cap := by
  unfold repLength
  split
  · exact Nat.zero_le _
  · exact le_trans (matchRun_le _ _ _ _) (Nat.min_le_left _ _)

end Compressor50

end OpenRar.Compress
