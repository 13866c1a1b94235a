import OpenRar.Compress.Filters50

/-!
# The filters undone in both directions

`Filters50` shows that every inverse transform undoes its forward transform.  The
transforms permute what they rewrite, so the converse holds as well: a region that is
decoded first and encoded afterwards is unchanged.

The delta transforms refuse an empty region and leave it alone; `inPlace` is the buffer
that such a call leaves behind.
-/

namespace OpenRar.Compress

open OpenRar.Core List

/-! ## Call operands -/

theorem e8Operand_converse {offset addr : Nat} (hoffset : offset < fileSizeMask)
    (haddr : addr < 2 ^ 32) :
    e8DecodeOperand offset addr < 2 ^ 32 ∧
      e8EncodeOperand offset (e8DecodeOperand offset addr) = addr := by
  unfold e8EncodeOperand e8DecodeOperand fileSizeMask at *
  split_ifs <;> omega

theorem encodeE8_applyE8 (data : List UInt8) (fileOffset : Nat) (includeE9 : Bool) :
    encodeE8 (applyE8 data fileOffset includeE9) fileOffset includeE9 = data :=
  @e8Scan_leftInverse e8EncodeOperand e8DecodeOperand
    (fun _ _ hoffset haddr => e8Operand_converse hoffset haddr) includeE9 _ 0 data

/-! ## Branch offsets -/

theorem armOffset_converse {k offset : Nat} (hk : k < 2 ^ 30) (hoff : offset < 2 ^ 24) :
    armEncodeOffset k (armDecodeOffset k offset % 2 ^ 24) % 2 ^ 24 = offset := by
  unfold armDecodeOffset armEncodeOffset
  omega

theorem applyArm_encodeArm (data : List UInt8) (fileOffset : Nat) :
    applyArm (encodeArm data fileOffset) fileOffset = data :=
  armScan_roundTrip _ 0 data

theorem encodeArm_applyArm (data : List UInt8) (fileOffset : Nat) :
    encodeArm (applyArm data fileOffset) fileOffset = data :=
  @armScan_leftInverse armEncodeOffset armDecodeOffset
    (fun _ _ hk hoff => armOffset_converse hk hoff) _ 0 data

/-! ## Channel differences -/

@[simp]
theorem deltaAccumulate_length (prev : UInt8) (plane : List UInt8) :
    (deltaAccumulate prev plane).length = plane.length := by
  induction plane generalizing prev with
  | nil => rfl
  | cons d rest ih => simp [deltaAccumulate, ih]

theorem deltaDifferences_accumulate (prev : UInt8) (plane : List UInt8) :
    deltaDifferences prev (deltaAccumulate prev plane) = plane := by
  induction plane generalizing prev with
  | nil => rfl
  | cons d rest ih => simp [deltaAccumulate, deltaDifferences, ih]

/-- The plane of a channel in an encoded region. -/
def planeOf (data : List UInt8) (channels c : Nat) : List UInt8 :=
  (data.drop (planeBase data.length channels c)).take (channelLength data.length channels c)

theorem planeBase_succ (size channels c : Nat) :
    planeBase size channels (c + 1) =
      planeBase size channels c + channelLength size channels c := by
  unfold planeBase channelLength
  rw [Nat.succ_mul]
  split <;> omega

/-- The planes of the first channels are a leading part of the region. -/
theorem flatMap_planeOf (data : List UInt8) (channels c : Nat) :
    (List.range c).flatMap (planeOf data channels) =
      data.take (planeBase data.length channels c) := by
  induction c with
  | zero => simp [planeBase]
  | succ c ih =>
    rw [range_succ, flatMap_append, ih, flatMap_singleton, planeOf, planeBase_succ,
      take_add]

variable {data : List UInt8} {channels c : Nat}

theorem planeOf_length (hc : c < channels) :
    (planeOf data channels c).length = channelLength data.length channels c := by
  have hend : planeBase data.length channels (c + 1) ≤ planeBase data.length channels channels := by
    unfold planeBase
    have := Nat.mul_le_mul_right (data.length / channels) (show c + 1 ≤ channels from hc)
    omega
  rw [planeBase_channels _ (by omega), planeBase_succ] at hend
  rw [planeOf, length_take, length_drop]
  omega

/-- Rows of a channel lie inside the region. -/
theorem row_lt_size {r size : Nat} (hc : c < channels) (hr : r < channelLength size channels c) :
    r * channels + c < size := by
  have hsize := Nat.div_add_mod' size channels
  unfold channelLength at hr
  by_cases hfull : r < size / channels
  · have hrows := Nat.mul_le_mul_right channels (show r + 1 ≤ size / channels from hfull)
    rw [Nat.succ_mul] at hrows
    omega
  · -- Only the channels below the remainder have the last, partial row.
    have hlast : r = size / channels ∧ c < size % channels := by
      split at hr <;> omega
    rw [hlast.1]
    omega

/-- The channel of a decoded region is its accumulated plane. -/
theorem channelBytes_applyDelta {decoded : List UInt8}
    (hdecoded : applyDelta data channels = some decoded) (hc : c < channels) :
    decoded.length = data.length ∧
      channelBytes decoded channels c = deltaAccumulate 0 (planeOf data channels c) := by
  unfold applyDelta at hdecoded
  split at hdecoded
  · cases hdecoded
  · cases hdecoded
    constructor
    · simp
    · apply ext_getElem
      · simp [planeOf_length hc]
      · intro r hr _
        have hr : r < channelLength data.length channels c := by simpa using hr
        have hrow := row_lt_size hc hr
        have hmod : (r * channels + c) % channels = c := by
          rw [Nat.mul_add_mod_self_right, Nat.mod_eq_of_lt hc]
        have hdiv : (r * channels + c) / channels = r := by
          rw [mul_comm, Nat.mul_add_div (by omega), Nat.div_eq_of_lt hc, Nat.add_zero]
        simp only [channelBytes, getElem_map]
        rw [getD_eq_getElem _ _ (by simpa using hrow)]
        simp only [getElem_map, getElem_range, hmod, hdiv]
        exact getD_eq_getElem _ _ _

theorem encodeDelta_applyDelta {decoded : List UInt8}
    (hdecoded : applyDelta data channels = some decoded) :
    encodeDelta decoded channels = some data := by
  have hvalid : ¬ (channels = 0 ∨ 32 < channels ∨ data.length = 0) := by
    intro h
    rw [applyDelta, if_pos h] at hdecoded
    cases hdecoded
  have hpos : 0 < channels := by omega
  have hlen := (channelBytes_applyDelta hdecoded hpos).1
  unfold encodeDelta
  rw [if_neg (by omega)]
  congr 1
  calc (List.range channels).flatMap (fun c => deltaDifferences 0 (channelBytes decoded channels c))
      = (List.range channels).flatMap (planeOf data channels) := by
        refine flatMap_congr fun c hc => ?_
        rw [(channelBytes_applyDelta hdecoded (mem_range.mp hc)).2, deltaDifferences_accumulate]
    _ = data.take (planeBase data.length channels channels) :=
      flatMap_planeOf data channels channels
    _ = data := by rw [planeBase_channels _ hpos, take_length]

/-- The buffer that a transform with the same source and destination leaves behind. -/
def inPlace (transform : List UInt8 → Nat → Option (List UInt8)) (channels : Nat)
    (data : List UInt8) : List UInt8 :=
  (transform data channels).getD data

/-- A region is refused only when it is empty. -/
theorem delta_isSome_iff (hchannels : 1 ≤ channels ∧ channels ≤ 32) (data : List UInt8) :
    ((encodeDelta data channels).isSome ↔ data ≠ []) ∧
      ((applyDelta data channels).isSome ↔ data ≠ []) := by
  have hempty : (channels = 0 ∨ 32 < channels ∨ data.length = 0) ↔ data = [] := by
    rw [← length_eq_zero_iff]
    omega
  unfold encodeDelta applyDelta
  simp only [hempty]
  by_cases h : data = [] <;> simp

theorem inPlace_leftInverse {f g : List UInt8 → Nat → Option (List UInt8)}
    (hf : ∀ data, (f data channels).isSome ↔ data ≠ [])
    (hg : ∀ data, (g data channels).isSome ↔ data ≠ [])
    (hinv : ∀ data coded, g data channels = some coded → f coded channels = some data)
    (data : List UInt8) : inPlace f channels (inPlace g channels data) = data := by
  unfold inPlace
  cases hcoded : g data channels with
  | some coded => simp [hinv data coded hcoded]
  | none =>
    have hdata : data = [] := by
      by_contra hne
      have := (hg data).mpr hne
      simp [hcoded] at this
    have hnone : f data channels = none := by
      rw [← Option.not_isSome_iff_eq_none, hf]
      simpa using hdata
    simp [hnone]

/-- **Every filter and its inverse undo each other**, on every region, at every offset
and for every number of channels; the delta transforms accept every region that is not
empty. -/
theorem filters_mutually_inverse (data : List UInt8) (fileOffset : Nat) :
    (∀ includeE9, applyE8 (encodeE8 data fileOffset includeE9) fileOffset includeE9 = data ∧
      encodeE8 (applyE8 data fileOffset includeE9) fileOffset includeE9 = data) ∧
    (applyArm (encodeArm data fileOffset) fileOffset = data ∧
      encodeArm (applyArm data fileOffset) fileOffset = data) ∧
    (∀ channels, 1 ≤ channels ∧ channels ≤ 32 →
      ((encodeDelta data channels).isSome ↔ data ≠ []) ∧
      ((applyDelta data channels).isSome ↔ data ≠ []) ∧
      inPlace applyDelta channels (inPlace encodeDelta channels data) = data ∧
      inPlace encodeDelta channels (inPlace applyDelta channels data) = data) := by
  refine ⟨fun includeE9 => ?_, ?_, fun channels hchannels => ?_⟩
  · exact ⟨applyE8_encodeE8 data fileOffset includeE9, encodeE8_applyE8 data fileOffset includeE9⟩
  · exact ⟨applyArm_encodeArm data fileOffset, encodeArm_applyArm data fileOffset⟩
  · have hencode := fun data => (delta_isSome_iff hchannels data).1
    have hdecode := fun data => (delta_isSome_iff hchannels data).2
    refine ⟨hencode data, hdecode data, ?_, ?_⟩
    · exact inPlace_leftInverse hdecode hencode
        (fun _ _ hcoded => (applyDelta_encodeDelta hcoded).2) data
    · exact inPlace_leftInverse hencode hdecode
        (fun _ _ hcoded => encodeDelta_applyDelta hcoded) data

/-- A stereo region of five bytes. -/
theorem filters_mutually_inverse_stereo :
    inPlace applyDelta 2 (inPlace encodeDelta 2 [1, 2, 3, 4, 5]) = [1, 2, 3, 4, 5] :=
  ((filters_mutually_inverse [1, 2, 3, 4, 5] 0).2.2 2 (by decide)).2.2.1

end OpenRar.Compress
