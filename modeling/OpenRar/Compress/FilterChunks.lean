import OpenRar.Compress.ProcessAvailable

/-!
# A member in filtered chunks

A filtered member is transformed chunk by chunk, and every chunk gets its own filter
token.  The decoder inverts one region at a time with the offset of the region in
the member, so the chunk boundaries of the transform have to be those of the tokens.

The transform of a whole member is given once here; the pre-transform of a buffer is
this function, and the transform inside the loop of the encoder produces it chunk by
chunk.
-/

namespace OpenRar.Compress

open List

/-- The transform of all chunks, from a given offset on.  Every turn takes a chunk of
`maxChunk` bytes, the last one what is left. -/
def encodeChunks (type : FilterType) (channels maxChunk : Nat) :
    Nat → Nat → List UInt8 → List UInt8
  | 0, _, _ => []
  | fuel + 1, offset, data =>
    if data = [] then []
    else
      encodeChunk type channels offset (data.take maxChunk) ++
        encodeChunks type channels maxChunk fuel (offset + maxChunk) (data.drop maxChunk)

/-! ## One chunk -/

theorem encodeChunk_length (type : FilterType) (channels offset : Nat) (chunk : List UInt8) :
    (encodeChunk type channels offset chunk).length = chunk.length := by
  cases type with
  | none => rfl
  | e8 => exact encodeE8_length chunk offset false
  | e8e9 => exact encodeE8_length chunk offset true
  | arm => exact armScan_length _ _ _ _
  | delta =>
    show ((encodeDelta chunk channels).getD chunk).length = chunk.length
    cases hdelta : encodeDelta chunk channels with
    | none => rfl
    | some encoded => exact (applyDelta_encodeDelta hdelta).1

/-- **A region of one chunk is inverted.** -/
theorem apply_encodeChunk {m : Member} {type : FilterType} {channels pos : Nat}
    (htype : type ≠ .none) (hchannels : 1 ≤ channels ∧ channels ≤ 32) (chunk : List UInt8)
    (hne : chunk ≠ []) (blockLength : Nat) :
    (filterEntryAt m pos blockLength type.code channels).apply
      (encodeChunk type channels pos chunk) = chunk := by
  cases type with
  | none => exact absurd rfl htype
  | e8 => exact applyE8_encodeE8 chunk pos false
  | e8e9 => exact applyE8_encodeE8 chunk pos true
  | arm => exact armScan_roundTrip (pos % 2 ^ 32) 0 chunk
  | delta =>
    have hlen : chunk.length ≠ 0 := fun hzero => hne (length_eq_zero_iff.mp hzero)
    obtain ⟨encoded, hdelta⟩ : ∃ encoded, encodeDelta chunk channels = some encoded := by
      unfold encodeDelta
      rw [if_neg (by omega)]
      exact ⟨_, rfl⟩
    show (applyDelta ((encodeDelta chunk channels).getD chunk) channels).getD _ = chunk
    rw [hdelta, Option.getD_some, (applyDelta_encodeDelta hdelta).2]
    rfl

/-! ## All chunks -/

section Chunks

variable {type : FilterType} {channels maxChunk : Nat}

@[simp]
theorem encodeChunks_nil (fuel offset : Nat) :
    encodeChunks type channels maxChunk fuel offset [] = [] := by
  cases fuel with
  | zero => rfl
  | succ fuel => exact if_pos rfl

theorem encodeChunks_cons {fuel offset : Nat} {data : List UInt8} (hne : data ≠ []) :
    encodeChunks type channels maxChunk (fuel + 1) offset data =
      encodeChunk type channels offset (data.take maxChunk) ++
        encodeChunks type channels maxChunk fuel (offset + maxChunk) (data.drop maxChunk) :=
  if_neg hne

section

variable (hchunk : 0 < maxChunk) (fuel offset : Nat) (data : List UInt8)
    (hfuel : data.length ≤ fuel)
include hchunk hfuel

theorem encodeChunks_length :
    (encodeChunks type channels maxChunk fuel offset data).length = data.length := by
  induction fuel generalizing offset data with
  | zero => rw [length_eq_zero_iff.mp (Nat.le_zero.mp hfuel)]; rfl
  | succ fuel ih =>
    by_cases hne : data = []
    · rw [hne, encodeChunks_nil]
    · rw [encodeChunks_cons hne, length_append, encodeChunk_length,
        ih _ _ (by rw [length_drop]; omega), ← length_append, take_append_drop]

/-- Without a filter nothing changes. -/
theorem encodeChunks_none : encodeChunks .none channels maxChunk fuel offset data = data := by
  induction fuel generalizing offset data with
  | zero =>
    rw [length_eq_zero_iff.mp (Nat.le_zero.mp hfuel), encodeChunks_nil]
  | succ fuel ih =>
    by_cases hne : data = []
    · rw [hne, encodeChunks_nil]
    · rw [encodeChunks_cons hne, ih _ _ (by rw [length_drop]; omega)]
      exact take_append_drop maxChunk data

end

theorem encodeChunks_drop (hchunk : 0 < maxChunk) (k fuel offset : Nat) (data : List UInt8)
    (hk : k * maxChunk ≤ data.length) :
    (encodeChunks type channels maxChunk (fuel + k) offset data).drop (k * maxChunk) =
      encodeChunks type channels maxChunk fuel (offset + k * maxChunk)
        (data.drop (k * maxChunk)) := by
  induction k generalizing offset data with
  | zero => simp
  | succ k ih =>
    rw [Nat.succ_mul] at hk ⊢
    have hne : data ≠ [] := by
      rintro rfl
      rw [length_nil] at hk
      omega
    have hfirst : (encodeChunk type channels offset (data.take maxChunk)).length = maxChunk := by
      rw [encodeChunk_length, length_take]
      omega
    rw [show fuel + (k + 1) = fuel + k + 1 by omega, encodeChunks_cons hne,
      Nat.add_comm (k * maxChunk) maxChunk, ← drop_drop, drop_append_of_le_length
        hfirst.ge, drop_eq_nil_of_le hfirst.le, nil_append,
      ih _ _ (by rw [length_drop]; omega), drop_drop, Nat.add_assoc]

/-- **The region that starts at a chunk boundary is the transform of its chunk.** -/
theorem encodeChunks_region (hchunk : 0 < maxChunk) {data : List UInt8} {k : Nat}
    (hk : k * maxChunk < data.length) :
    ((encodeChunks type channels maxChunk data.length 0 data).drop (k * maxChunk)).take maxChunk =
      encodeChunk type channels (k * maxChunk) ((data.drop (k * maxChunk)).take maxChunk) := by
  have hfuel : k < data.length := by
    have := Nat.le_mul_of_pos_right k hchunk
    omega
  obtain ⟨fuel, hfuel⟩ : ∃ fuel, data.length = fuel + 1 + k := ⟨data.length - k - 1, by omega⟩
  have hne : data.drop (k * maxChunk) ≠ [] := by
    intro hnil
    have := congrArg List.length hnil
    rw [length_drop, length_nil] at this
    omega
  rw [hfuel, encodeChunks_drop hchunk k (fuel + 1) 0 data hk.le, Nat.zero_add,
    encodeChunks_cons hne]
  by_cases hlast : (data.drop (k * maxChunk)).length ≤ maxChunk
  · -- The last chunk is followed by nothing.
    rw [drop_eq_nil_of_le hlast, encodeChunks_nil, append_nil,
      take_of_length_le (by rw [encodeChunk_length, length_take]; omega)]
  · have hlen : (encodeChunk type channels (k * maxChunk)
        ((data.drop (k * maxChunk)).take maxChunk)).length = maxChunk := by
      rw [encodeChunk_length, length_take]
      omega
    rw [take_append_of_le_length hlen.ge, take_of_length_le hlen.le]

end Chunks

end OpenRar.Compress
