import OpenRar.Format.IndexedHeaders

/-!
# Header parsers read inside the body

`parseMainHeaderAt_eq` and `parseFileHeaderAt_eq` say that on every body the parsers on
offsets give what the parsers of `HeaderReader` give.  In particular no read leaves the body
and every loop ends, whatever sizes and lengths the body announces.

The proofs go record by record: `Window` holds between an offset and the end of the record,
and the end of a record lies within the body because it is clamped to the area.
-/

namespace OpenRar.Format
namespace HeaderReader

open OpenRar.Core List Option
open CheckedReads

variable {body : Buffer} {off recEnd : Nat} {payload : List UInt8}

/-! ## Fields -/

variable {present : Bool} {stop n : Nat} {data rest : List UInt8}

theorem vintIfAt_agrees (h : Window body off stop data) :
    Agrees (At body stop) (vintIfAt body present off stop) (readIf present 0 readVint data) := by
  exact .ite Iff.rfl (fun _ => h.vintAt) fun _ => .ok ⟨rfl, h⟩

theorem readIf_absent {read : List UInt8 → Option (Nat × List UInt8)} {v : Nat}
    (h : readIf present 0 read data = some (v, rest)) :
    present = false → v = 0 := by
  rintro rfl
  exact (congrArg Prod.fst (Option.some.inj h)).symm

/-- A test for room behind an offset. -/
theorem wadd_le_iff (h : Window body off recEnd data) (hn : n < 2 ^ 63) :
    wadd off n ≤ recEnd ↔ n ≤ data.length := by
  have hlen := h.length
  have hoff := h.off_le
  rw [h.wadd_eq hn]
  omega

/-- A number that is read if there is room for it. -/
theorem leAt_agrees {γ δ : Type} {S : γ → δ → Prop} {f : Nat → Except Failure γ}
    {x : Except Failure γ} {y z : δ} (h : Window body off stop data) (hn : n < 2 ^ 63)
    (hread : Window body (wadd off n) stop (data.drop n) →
      Agrees S (f (readLe (data.take n))) (some y))
    (hskip : Agrees S x (some z)) :
    Agrees S (if wadd off n ≤ stop then readLeAt body n off >>= f else x)
      (some (if n ≤ data.length then y else z)) := by
  rw [if_congr (wadd_le_iff h hn) rfl rfl]
  split
  · next hroom =>
    rw [h.readLeAt hroom]
    exact hread (h.skip hroom)
  · exact hskip

theorem le32IfAt_agrees (h : Window body off stop data) :
    Agrees (At body stop) (le32IfAt body present off stop)
      (readIf present 0 (readField 4) data) := by
  refine .ite Iff.rfl (fun _ => ?_) fun _ => .ok ⟨rfl, h⟩
  refine .demand ?_ fun hroom => ?_
  · rw [← wadd_le_iff h (by decide)]
    omega
  · rw [h.readLeAt hroom]
    exact .ok ⟨rfl, h.skip hroom⟩

theorem arrayAt_eq (h : Window body off stop data) (hn : n ≤ data.length) :
    arrayAt body n off = .ok ⟨data.take n, length_take_of_le hn⟩ := by
  have hlen : (data.take n).length = n := length_take_of_le hn
  rw [arrayAt, h.loadBytes hn]
  refine congrArg Except.ok ?_
  congr 1
  rw [take_append_of_le_length (by omega), take_take, Nat.min_self]

/-- Bytes whose length was compared with the room that is left. -/
theorem loadBytes_agrees {len : Nat} {γ δ : Type} {S : γ → δ → Prop}
    {f : List UInt8 → Except Failure γ} {g : List UInt8 × List UInt8 → Option δ}
    (h : Window body off stop data)
    (hf : Window body (wadd off len) stop (data.drop len) →
      Agrees S (f (data.take len)) (g (data.take len, data.drop len))) :
    Agrees S (demand (¬ wsub stop off < len) >>= fun _ => body.loadBytes off len >>= f)
      (readBytes len data >>= g) := by
  rw [readBytes, h.wsub_eq, demand]
  by_cases hroom : len ≤ data.length
  · rw [if_pos (by omega), if_pos hroom, ok_bind, h.loadBytes hroom]
    exact hf (h.skip hroom)
  · rw [if_neg (by omega), if_neg hroom]
    rfl

/-! ## Records of the main header -/

/-- One offset of the locator, on the bytes of the record. -/
def optionalOffset (present : Bool) (old : Int) (data : List UInt8) : Int × List UInt8 :=
  if present then
    match readVint data with
    | some (value, data) => (locatorOffset value, data)
    | none => (old, data)
  else (old, data)

theorem parseLocator_eq (payload : List UInt8) (m : MainBlock) :
    parseLocator payload m =
      match readVint payload with
      | none => { m with hasLocator := true }
      | some (flags, data) =>
        let qo := optionalOffset (hasFlag flags 0x01) m.locatorQoOffset data
        let rr := optionalOffset (hasFlag flags 0x02) m.locatorRrOffset qo.2
        { m with hasLocator := true, locatorQoOffset := qo.1, locatorRrOffset := rr.1 } := by
  unfold parseLocator optionalOffset
  cases readVint payload with
  | none => rfl
  | some read =>
    obtain ⟨flags, data⟩ := read
    by_cases hq : hasFlag flags 0x01 <;> by_cases hr : hasFlag flags 0x02 <;>
      simp [hq, hr]
    · cases hqo : readVint data with
      | none => simp [hqo]
      | some qo => cases readVint qo.2 <;> simp
    · cases readVint data <;> rfl
    · cases readVint data <;> rfl

section

variable (h : Window body off recEnd payload)

include h

theorem locatorOffsetAt_agrees {old : Int} :
    Agrees (At body recEnd) (locatorOffsetAt body present off recEnd old)
      (some (optionalOffset present old payload)) := by
  unfold locatorOffsetAt optionalOffset
  cases present with
  | false => exact .ok ⟨rfl, h⟩
  | true =>
    refine h.vintAt.attemptAt (fun hnone => ?_) fun v off' rest hsome hw => ?_
    · rw [hnone]
      exact .ok ⟨rfl, h⟩
    · rw [hsome]
      exact .ok ⟨rfl, hw⟩

theorem locatorAt_agrees (m : MainBlock) :
    Agrees Eq (locatorAt body off recEnd m) (some (parseLocator payload m)) := by
  rw [locatorAt, parseLocator_eq]
  refine h.vintAt.attemptAt (fun hnone => ?_) fun flags off' rest hsome hw => ?_
  · rw [hnone]
    exact .ok rfl
  · rw [hsome]
    refine (locatorOffsetAt_agrees hw).someAt fun off₁ hw₁ => ?_
    exact (locatorOffsetAt_agrees hw₁).someAt fun _ _ => .ok rfl

theorem metadataNameAt_agrees (present : Bool) (m : MainBlock) :
    Agrees (At body recEnd) (metadataNameAt body present off recEnd m)
      (some (if present then parseMetadataName payload m else (m, payload))) := by
  unfold metadataNameAt
  cases present with
  | false => exact .ok ⟨rfl, h⟩
  | true =>
    rw [if_pos rfl, if_pos rfl, parseMetadataName]
    refine h.vintAt.attemptAt (fun hnone => ?_) fun len off' rest hsome hw => ?_
    · rw [hnone]
      exact .ok ⟨rfl, h⟩
    · rw [hsome]
      dsimp only
      rw [hw.wsub_eq]
      split
      · next hroom =>
        rw [hw.loadBytes hroom]
        exact .ok ⟨rfl, hw.skip hroom⟩
      · exact .ok ⟨rfl, hw⟩

theorem metadataTimeAt_agrees (m : MainBlock) :
    Agrees Eq (metadataTimeAt body off recEnd m) (some (parseMetadataTime payload m)) := by
  unfold metadataTimeAt parseMetadataTime
  cases m.metadataIsUnixTime <;> cases m.metadataIsNanoseconds <;>
    simp only [Bool.false_eq_true, not_true_eq_false, not_false_eq_true, false_and, true_and,
      and_true, and_false, if_true, if_false] <;>
    exact leAt_agrees h (by decide) (fun _ => .ok rfl) (.ok rfl)

theorem metadataAt_agrees (m : MainBlock) :
    Agrees Eq (metadataAt body off recEnd m) (some (parseMetadata payload m)) := by
  rw [metadataAt, parseMetadata]
  refine h.vintAt.attemptAt (fun hnone => ?_) fun flags cur rest hsome hw => ?_
  · rw [hnone]
    exact .ok rfl
  · rw [hsome]
    refine (metadataNameAt_agrees hw _ _).someAt fun cur' hw' => ?_
    dsimp only
    split
    · exact metadataTimeAt_agrees hw' _
    · exact .ok rfl

theorem mainRecordAt_agrees (recSize : Nat) (type : UInt8) (m : MainBlock) :
    Agrees Eq (mainRecordAt body recSize type off recEnd m)
      (some
        (if type = mhextraLocator ∧ recSize ≥ 2 then parseLocator payload m
        else if type = mhextraMetadata then parseMetadata payload m
        else m)) := by
  unfold mainRecordAt
  split
  · exact locatorAt_agrees h m
  · split
    · exact metadataAt_agrees h m
    · exact .ok rfl

end

/-! ## The loop over the records -/

/-- What a record is given: its end is where the size says, clamped to the area, its type is
its first byte, and what follows it is where the next record starts. -/
theorem record_window {cur extraEnd recSize : Nat} {type : UInt8}
    (h : Window body cur extraEnd data) (htake : data.take recSize = type :: payload) :
    body.load cur = .ok type ∧
      Window body (wadd cur 1) (recEndAt recSize cur extraEnd) payload ∧
      Window body (recEndAt recSize cur extraEnd) extraEnd (data.drop recSize) ∧
      cur < recEndAt recSize cur extraEnd := by
  have hlen := h.length
  have hlt := h.lt
  have hlength : (data.take recSize).length = payload.length + 1 := by rw [htake]; rfl
  rw [length_take] at hlength
  have hend : recEndAt recSize cur extraEnd = cur + min recSize data.length := by
    unfold recEndAt
    rw [h.wsub_eq]
    split
    · next hle => rw [h.wadd_eq (by omega), Nat.min_eq_left hle]
    · next hgt => omega
  have hfirst := h.take (n := min recSize data.length) (Nat.min_le_right _ _)
  rw [← take_eq_take_min, htake] at hfirst
  obtain ⟨hload, hrest⟩ := hfirst.load
  have hnext := h.drop (n := min recSize data.length) (Nat.min_le_right _ _)
  rw [hend, h.wadd_eq (by decide)]
  refine ⟨hload, hrest, ?_, by omega⟩
  rcases Nat.le_total recSize data.length with hle | hge
  · rwa [Nat.min_eq_left hle] at hnext ⊢
  · rw [Nat.min_eq_right hge] at hnext ⊢
    rwa [drop_of_length_le hge, ← drop_of_length_le (Nat.le_refl data.length)]

/-- The loop over an extra area on its bytes; both parsers have this shape. -/
def areaLoop {α : Type}
    (record : Nat → UInt8 → List UInt8 → List UInt8 → List UInt8 → α → Option (α × List UInt8)) :
    Nat → List UInt8 → α → Option α
  | 0, _, a => some a
  | fuel + 1, area, a =>
    match readVint area with
    | none => some a
    | some (recSize, data) =>
      if recSize < 1 then some a
      else
        match data.take recSize with
        | [] => some a
        | type :: payload => do
            let raw := area.take (area.length - (data.drop recSize).length)
            let (a, rest) ← record recSize type payload raw (data.drop recSize) a
            areaLoop record fuel rest a

theorem parseExtras_eq_areaLoop (fuel : Nat) (area : List UInt8) (b : FileBlock) :
    parseExtras fuel area b = areaLoop parseRecord fuel area b := by
  induction fuel generalizing area b with
  | zero => rfl
  | succ fuel ih =>
    have hrest : parseExtras fuel = areaLoop parseRecord fuel :=
      funext fun area => funext fun b => ih area b
    rewrite [parseExtras, areaLoop, hrest]
    rfl

/-- One record of the main header on its bytes. -/
def mainRecord (recSize : Nat) (type : UInt8) (payload _raw rest : List UInt8) (m : MainBlock) :
    Option (MainBlock × List UInt8) :=
  some
    (if type = mhextraLocator ∧ recSize ≥ 2 then parseLocator payload m
      else if type = mhextraMetadata then parseMetadata payload m
      else m,
      rest)

theorem parseMainExtras_eq_areaLoop (fuel : Nat) (area : List UInt8) (m : MainBlock) :
    areaLoop mainRecord fuel area m = some (parseMainExtras fuel area m) := by
  induction fuel generalizing area m with
  | zero => rfl
  | succ fuel ih =>
    rw [areaLoop, parseMainExtras]
    cases readVint area with
    | none => rfl
    | some read =>
      obtain ⟨recSize, data⟩ := read
      dsimp only
      split
      · rfl
      · cases data.take recSize with
        | nil => rfl
        | cons type payload => exact ih _ _

/-- A record parser on offsets that agrees with one on bytes and does not go back. -/
def RecordAgrees {α : Type} (body : Buffer) (extraEnd : Nat)
    (recordAt : Nat → UInt8 → Nat → Nat → Nat → α → Except Failure (α × Nat))
    (record : Nat → UInt8 → List UInt8 → List UInt8 → List UInt8 → α → Option (α × List UInt8)) :
    Prop :=
  ∀ (recSize : Nat) (type : UInt8) (oldOff off recEnd : Nat) (payload raw rest : List UInt8)
    (a : α), Window body oldOff recEnd raw → Window body off recEnd payload →
    Window body recEnd extraEnd rest →
      Agrees (fun x y => At body extraEnd x y ∧ recEnd ≤ x.2)
        (recordAt recSize type oldOff off recEnd a) (record recSize type payload raw rest a)

section

variable {α : Type}
    {recordAt : Nat → UInt8 → Nat → Nat → Nat → α → Except Failure (α × Nat)}
    {record : Nat → UInt8 → List UInt8 → List UInt8 → List UInt8 → α → Option (α × List UInt8)}

theorem extrasAt_agrees {extraEnd : Nat} (hrecord : RecordAgrees body extraEnd recordAt record)
    (fuel : Nat) {off : Nat} {area : List UInt8} (h : Window body off extraEnd area)
    (hfuel : area.length ≤ fuel) (a : α) :
    Agrees Eq (extrasAt body recordAt extraEnd fuel off a) (areaLoop record fuel area a) := by
  induction fuel generalizing off area a with
  | zero =>
    have hnil : area = [] := length_eq_zero_iff.mp (Nat.le_zero.mp hfuel)
    rw [extrasAt, if_neg (Nat.not_lt.mpr (h.nil_iff.mp hnil))]
    exact .ok rfl
  | succ fuel ih =>
    rw [extrasAt, areaLoop]
    by_cases hoff : off < extraEnd
    · rw [if_pos hoff]
      refine h.vintAt.attemptAt (fun hnone => ?_) fun recSize cur data hsome hdata => ?_
      · rw [hnone]
        exact .ok rfl
      · have hless := readVint_length hsome
        have hlen := h.length
        have hlen' := hdata.length
        rw [hsome]
        dsimp only
        by_cases hsmall : recSize < 1
        · rw [if_pos hsmall, if_pos (Or.inr hsmall)]
          exact .ok rfl
        · rw [if_neg hsmall]
          cases htake : data.take recSize with
          | nil =>
            -- nothing is left of the area behind the size
            have hnil : data = [] := by
              rcases take_eq_nil_iff.mp htake with hzero | hnil
              · omega
              · exact hnil
            rw [if_pos (Or.inl (hdata.nil_iff.mp hnil))]
            exact .ok rfl
          | cons type payload =>
            obtain ⟨hload, hpayload, hnext, hcur⟩ := record_window hdata htake
            have hend := hnext.off_le
            rw [if_neg (by omega), hload]
            have hraw := h.upTo hnext (by omega)
            refine (hrecord recSize type off (wadd cur 1) _ payload _ _ a hraw hpayload
              hnext).bind fun ⟨a', next⟩ ⟨a'', rest⟩ hx => ?_
            obtain ⟨⟨rfl : a' = a'', hrest⟩, hle⟩ := hx
            have hlen'' := hrest.length
            rw [demand, if_pos (by omega)]
            exact ih hrest (by omega) a'
    · have hnil : area = [] := h.nil_iff.mpr (Nat.not_lt.mp hoff)
      rw [if_neg hoff, hnil]
      exact .ok rfl

theorem areaAt_agrees (hrecord : RecordAgrees body body.size recordAt record) {hasExtra : Bool}
    {extraSize : Nat} (hextra : hasExtra = false → extraSize = 0)
    (h : Window body off body.size data) (a : α) :
    Agrees Eq (areaAt body recordAt hasExtra extraSize off a)
      (if extraSize > 0 then
        if extraSize > data.length then none
        else areaLoop record extraSize (data.drop (data.length - extraSize)) a
      else some a) := by
  have hlen := h.length
  refine .ite ?_ (fun hpos => ?_) fun _ => .ok rfl
  · cases hasExtra with
    | false => simp [hextra rfl]
    | true => simp
  · refine .demand_not ?_ fun hroom => ?_
    · rw [h.wsub_eq]
      omega
    · have harea := h.drop (n := data.length - extraSize) (Nat.sub_le _ _)
      rw [CheckedReads.wsub_eq (Nat.lt_trans h.lt.2 (by decide)) (by omega)]
      rw [show off + (data.length - extraSize) = body.size - extraSize by omega] at harea
      exact extrasAt_agrees hrecord extraSize harea (by rw [length_drop]; omega) a

end

theorem mainRecord_agrees (extraEnd : Nat) :
    RecordAgrees body extraEnd
      (fun recSize type _ off recEnd m => do
        let m ← mainRecordAt body recSize type off recEnd m
        .ok (m, recEnd))
      mainRecord := by
  intro recSize type oldOff off recEnd payload raw rest m _ hpayload hrest
  refine (mainRecordAt_agrees hpayload recSize type m).bind_some fun m' hm => ?_
  exact .ok ⟨⟨hm, hrest⟩, Nat.le_refl _⟩

theorem parseMainHeaderAt_agrees (body : Buffer) :
    Agrees Eq (parseMainHeaderAt body) (parseMainHeader body.bytes) := by
  refine (Window.whole body).vintAt.bindAt fun type off₁ data₁ _ h₁ => ?_
  refine .demand_not (by simp) fun _ => ?_
  refine h₁.vintAt.bindAt fun flags off₂ data₂ _ h₂ => ?_
  refine (vintIfAt_agrees h₂).bindAt fun extraSize off₃ data₃ hextra h₃ => ?_
  refine h₃.vintAt.bindAt fun arcFlags off₄ data₄ _ h₄ => ?_
  refine (vintIfAt_agrees h₄).bindAt fun volNumber off₅ data₅ _ h₅ => ?_
  have harea := areaAt_agrees (mainRecord_agrees body.size) (readIf_absent hextra) h₅
    { arcFlags := arcFlags, volNumber := volNumber }
  simpa only [parseMainExtras_eq_areaLoop] using harea

/-! ## Records of a file header -/

section

variable (h : Window body off recEnd payload)

include h

theorem hashAt_agrees (b : FileBlock) :
    Agrees Eq (hashAt body off recEnd b) (some (parseHash payload b)) := by
  unfold hashAt parseHash
  rw [h.wsub_eq]
  cases payload with
  | nil => exact .ok rfl
  | cons hashType rest =>
    obtain ⟨hload, hrest⟩ := h.load
    rw [length_cons]
    dsimp only
    by_cases hroom : 32 ≤ rest.length
    · rw [if_pos (by omega), hload, ByteArrayOf.read, dif_pos hroom, ok_bind]
      split
      · rw [h.wadd_eq (by decide), arrayAt_eq hrest hroom]
        exact .ok rfl
      · exact .ok rfl
    · rw [if_neg (by omega), ByteArrayOf.read, dif_neg hroom]
      exact .ok rfl

theorem arrayAt_agrees {γ δ : Type} {S : γ → δ → Prop} {f : ByteArrayOf n → Except Failure γ}
    {g : ByteArrayOf n × List UInt8 → Option δ}
    (hn : n ≤ payload.length)
    (hf : ∀ bytes, Window body (wadd off n) recEnd (payload.drop n) →
      Agrees S (f bytes) (g (bytes, payload.drop n))) :
    Agrees S (arrayAt body n off >>= f) (ByteArrayOf.read n payload >>= g) := by
  rw [arrayAt_eq h hn, ByteArrayOf.read, dif_pos hn]
  exact hf _ (h.skip hn)

theorem pswCheckAt_agrees (hroom : 8 + 4 ≤ payload.length)
    (c : FileCrypt) : Agrees Eq (pswCheckAt body off c) (parsePswCheck c payload) := by
  refine arrayAt_agrees h (by omega) fun check h₁ => ?_
  refine arrayAt_agrees h₁ (by rw [length_drop]; omega) fun csum _ => ?_
  exact .ok rfl

theorem cryptAt_agrees (c : FileCrypt) :
    Agrees Eq (cryptAt body off recEnd c) (parseCrypt payload c) := by
  -- a record that ends before a field is refused like one whose field cannot be read
  have hmore : ∀ {off : Nat} {data : List UInt8} {f : Unit → Except Failure FileCrypt}
      {y : Option FileCrypt}, Window body off recEnd data → (data = [] → y = none) →
      (data ≠ [] → Agrees Eq (f ()) y) → Agrees Eq (demand (¬ off ≥ recEnd) >>= f) y := by
    intro off data f y hw hnil hgo
    have hiff := hw.nil_iff
    by_cases hdata : data = []
    · rw [demand, if_neg (not_not.mpr (hiff.mp hdata)), hnil hdata]
      rfl
    · rw [demand, if_pos (fun hge => hdata (hiff.mpr hge))]
      exact hgo hdata
  have hread : ∀ {data : List UInt8} {g : Nat × List UInt8 → Option FileCrypt},
      data = [] → (readVint data >>= g) = none := by
    rintro data g rfl
    rfl
  refine hmore h hread fun _ => ?_
  refine h.vintAt.bindAt fun version off₁ data₁ _ h₁ => ?_
  refine hmore h₁ hread fun _ => ?_
  refine h₁.vintAt.bindAt fun flags off₂ data₂ _ h₂ => ?_
  refine .demand_not (by rw [h₂.wsub_eq]) fun hroom => ?_
  cases data₂ with
  | nil => exact absurd (by simp) hroom
  | cons lg2Count data₃ =>
    rw [length_cons] at hroom
    obtain ⟨hload, h₃⟩ := h₂.load
    rw [hload, ok_bind, h₂.wadd_eq (n := 1) (by decide)]
    refine arrayAt_agrees h₃ (by omega) fun salt h₄ => ?_
    refine arrayAt_agrees h₄ (by rw [length_drop]; omega) fun initV h₅ => ?_
    split
    · next hcheck =>
      rw [if_pos hcheck] at hroom
      exact pswCheckAt_agrees h₅ (by rw [length_drop, length_drop]; omega) _
    · exact .ok rfl

theorem versionAt_agrees :
    Agrees Eq (versionAt body off recEnd) (parseVersion payload) := by
  refine h.vintAt.bindAt fun flags off₁ data₁ _ h₁ => ?_
  refine .demand_not (by simp) fun _ => ?_
  rw [demand, if_pos h₁.off_le, ok_bind]
  refine h₁.vintAt.bindAt fun version off₂ data₂ _ h₂ => ?_
  refine .demand ?_ fun _ => .ok rfl
  have hoff := h₂.off_le
  rw [h₂.nil_iff]
  omega

theorem redirAt_agrees :
    Agrees Eq (redirAt body off recEnd) (parseRedir payload) := by
  refine h.vintAt.bindAt fun type off₁ data₁ _ h₁ => ?_
  refine h₁.vintAt.bindAt fun flags off₂ data₂ _ h₂ => ?_
  refine h₂.vintAt.bindAt fun len off₃ data₃ _ h₃ => ?_
  refine .demand_not Iff.rfl fun _ => ?_
  exact loadBytes_agrees h₃ fun _ => .ok rfl

theorem versionOrRedirAt_agrees (b : FileBlock) :
    Agrees Eq (versionOrRedirAt body off recEnd b) (some (parseVersionOrRedir payload b)) := by
  rw [versionOrRedirAt, parseVersionOrRedir]
  refine (versionAt_agrees h).attempt_bind (fun hnone => ?_) fun version _ hsome heq => ?_
  · rw [hnone]
    refine (redirAt_agrees h).attempt_bind (fun hnone => ?_) fun redir _ hsome heq => ?_
    · rw [hnone]
      exact .ok rfl
    · rw [hsome, ← heq]
      exact .ok rfl
  · rw [hsome, ← heq]
    exact .ok rfl

/-! ### Times -/

theorem stampAt_agrees (present isUnix : Bool) (s : Stamp) :
    Agrees (At body recEnd) (stampAt body present isUnix s off recEnd)
      (some (readStamp present isUnix s payload)) := by
  cases present with
  | false => exact .ok ⟨rfl, h⟩
  | true =>
    cases isUnix <;>
      exact leAt_agrees h (by decide) (fun hw => .ok ⟨rfl, hw⟩) (.ok ⟨rfl, h⟩)

theorem nsAt_agrees (present : Bool) (s : Stamp) :
    Agrees (At body recEnd) (nsAt body present s off recEnd) (some (readNs present s payload)) := by
  unfold nsAt readNs
  cases present with
  | false => exact .ok ⟨rfl, h⟩
  | true =>
    simp only [true_and]
    exact leAt_agrees h (by decide) (fun hw => .ok ⟨rfl, hw⟩) (.ok ⟨rfl, h⟩)

theorem timesAt_agrees (flags : Nat) (t : FileTimes) :
    Agrees Eq (timesAt body flags off recEnd t) (some (parseTimes flags payload t)) := by
  rw [timesAt, parseTimes]
  refine (stampAt_agrees h _ _ t.mtime).someAt fun off₁ h₁ => ?_
  refine (stampAt_agrees h₁ _ _ t.ctime).someAt fun off₂ h₂ => ?_
  refine (stampAt_agrees h₂ _ _ t.atime).someAt fun off₃ h₃ => ?_
  dsimp only
  split
  · refine (nsAt_agrees h₃ _ _).someAt fun off₄ h₄ => ?_
    refine (nsAt_agrees h₄ _ _).someAt fun off₅ h₅ => ?_
    exact (nsAt_agrees h₅ _ _).someAt fun _ _ => .ok rfl
  · exact .ok rfl

/-- A record of the early prototype has room for its modification time. -/
theorem legacyTimesAt_agrees {flags : Nat}
    (hlegacy : isLegacyTimes flags payload = true) (t : FileTimes) :
    Agrees Eq (legacyTimesAt body flags off recEnd t)
      (some (parseLegacyTimes flags payload t)) := by
  simp only [isLegacyTimes, decide_eq_true_eq] at hlegacy
  obtain ⟨-, hmtime, -, hmod, hpos⟩ := hlegacy
  have hroom : 8 ≤ payload.length := by omega
  have hm : Agrees (At body recEnd) (legacyMtimeAt body (hasFlag flags 0x01) t.mtime off recEnd)
      (some ({ t.mtime with win := readLe (payload.take 8), hasNs := false },
        payload.drop 8)) := by
    rw [legacyMtimeAt, if_pos ⟨hmtime, (wadd_le_iff h (by decide)).mpr hroom⟩, h.readLeAt hroom]
    exact .ok ⟨rfl, h.skip hroom⟩
  rw [legacyTimesAt, parseLegacyTimes]
  simp only [readStamp, hmtime, hroom]
  refine (hmtime ▸ hm).someAt fun off₁ h₁ => ?_
  refine (stampAt_agrees h₁ _ _ t.ctime).someAt fun off₂ h₂ => ?_
  exact (stampAt_agrees h₂ _ _ t.atime).someAt fun _ _ => .ok rfl

theorem htimeAt_agrees (t : FileTimes) :
    Agrees Eq (htimeAt body off recEnd t) (some (parseHtime payload t)) := by
  rw [htimeAt, parseHtime]
  refine h.vintAt.attemptAt (fun hnone => ?_) fun flags cur rest hsome hw => ?_
  · rw [hnone]
    exact .ok rfl
  · have hlegacy : isLegacyAt flags cur recEnd = isLegacyTimes flags rest := by
      rw [isLegacyAt, isLegacyTimes, hw.wsub_eq]
    rw [hsome]
    dsimp only
    rw [hlegacy]
    split
    · next hyes => exact legacyTimesAt_agrees hw hyes t
    · exact timesAt_agrees hw flags t

/-! ### Payloads, owners and attributes -/

theorem subdataAt_agrees
    (hrest : Window body recEnd body.size rest) (b : FileBlock) :
    Agrees (fun x y => At body body.size x y ∧ recEnd ≤ x.2)
      (subdataAt body off recEnd body.size b)
      (if rest.length = 1 then some ({ b with subData := payload ++ rest }, [])
      else some ({ b with subData := payload }, rest)) := by
  have hlen := hrest.length
  have hle := hrest.off_le
  rw [subdataAt, if_pos h.off_le, h.wsub_eq, h.loadBytes (Nat.le_refl _), take_length, ok_bind,
    hrest.wsub_eq]
  by_cases hone : rest.length = 1
  · obtain ⟨last, rfl⟩ := length_eq_one_iff.mp hone
    obtain ⟨hload, hnil⟩ := hrest.load
    rw [if_pos hone, if_pos ⟨by omega, hone⟩, hload]
    have hend : recEnd + 1 = body.size := by omega
    exact .ok ⟨⟨rfl, hend ▸ hnil⟩, hle⟩
  · rw [if_neg hone, if_neg (fun hboth => hone hboth.2)]
    exact .ok ⟨⟨rfl, hrest⟩, Nat.le_refl _⟩

/-- The check of a name reads what the name's parser reads. -/
theorem ownerProbeAt_agrees (present : Bool) (old : List UInt8) :
    Agrees (fun x y => Window body x recEnd y.2) (ownerProbeAt body present off recEnd)
      (readOwnerNameIf present payload old) := by
  unfold ownerProbeAt readOwnerNameIf
  cases present with
  | false => exact .ok h
  | true =>
    rw [if_pos rfl, if_pos rfl, if_pos h.off_le, h.wsub_eq, readOwnerName]
    dsimp only
    rcases h.readVintAt with ⟨hnone, n, hread⟩ | ⟨len, rest, n, hsome, hread, hrest⟩
    · rw [hread, hnone]
      rfl
    · have hlen := h.length
      have hlen' := hrest.length
      have hle := hrest.off_le
      have hlt := hrest.lt
      rw [hread, hsome, ok_bind]
      dsimp only [bind_eq_bind, bind_some]
      by_cases hlong : len > 255
      · rw [if_pos hlong, demand, if_neg (by omega)]
        rfl
      · have hsum : wadd n len = n + len := CheckedReads.wadd_eq (by omega)
        rw [if_neg hlong, hsum]
        refine .demand (by omega) fun hroom => ?_
        rw [h.wadd_eq (by omega), ← Nat.add_assoc]
        exact .ok (hrest.drop hroom)

/-- A name that passed the check is read in full. -/
theorem ownerNameAt_agrees {old : List UInt8} {read : List UInt8 × List UInt8}
    (hread : readOwnerNameIf present payload old = some read) :
    Agrees (At body recEnd) (ownerNameAt body present off recEnd old) (some read) := by
  unfold ownerNameAt
  unfold readOwnerNameIf at hread
  cases present with
  | false =>
    obtain rfl := Option.some.inj hread
    exact .ok ⟨rfl, h⟩
  | true =>
    obtain ⟨⟨len, data⟩, hvint, hname⟩ := bind_eq_some_iff.mp hread
    dsimp only at hname
    split at hname
    · exact nomatch hname
    · rw [readBytes] at hname
      split at hname
      · next hroom =>
        obtain rfl := Option.some.inj hname
        refine h.vintAt.attemptAt (fun hnone => by rw [hnone] at hvint; exact nomatch hvint)
          fun len' off' rest hsome hrest => ?_
        obtain ⟨rfl, rfl⟩ := Prod.mk.inj (Option.some.inj (hvint.symm.trans hsome))
        dsimp only
        rw [if_pos hrest.off_le, hrest.wsub_eq, Nat.min_eq_left hroom, hrest.loadBytes hroom]
        exact .ok ⟨rfl, hrest.skip hroom⟩
      · exact nomatch hname

theorem ownerIdAt_agrees (present has : Bool) (id : Nat) :
    Agrees (fun x y => x.1 = y.1 ∧ x.2.1 = y.2.1 ∧ Window body x.2.2 recEnd y.2.2)
      (ownerIdAt body present has id off recEnd) (some (readOwnerId present has id payload)) := by
  unfold ownerIdAt readOwnerId
  cases present with
  | false => exact .ok ⟨rfl, rfl, h⟩
  | true =>
    refine h.vintAt.attemptAt (fun hnone => ?_) fun value off' rest hsome hw => ?_
    · rw [hnone]
      exact .ok ⟨rfl, rfl, h⟩
    · rw [hsome]
      exact .ok ⟨rfl, rfl, hw⟩

/-- Both names are probed, or the record is spoiled. -/
theorem ownerProbes_agrees (flags : Nat) (o : Owner) :
    Agrees (fun _ _ => True)
      (do
        let probeOff ← ownerProbeAt body (hasFlag flags 0x0001) off recEnd
        ownerProbeAt body (hasFlag flags 0x0002) probeOff recEnd)
      (do
        let (user, data) ← readOwnerNameIf (hasFlag flags 0x0001) payload o.user
        let (group, data) ← readOwnerNameIf (hasFlag flags 0x0002) data o.group
        some (user, group, data)) := by
  refine (ownerProbeAt_agrees h _ o.user).bind fun off₂ read h₂ => ?_
  obtain ⟨user, data₂⟩ := read
  dsimp only at h₂ ⊢
  have hgroup := ownerProbeAt_agrees h₂ (hasFlag flags 0x0002) o.group
  cases hread : readOwnerNameIf (hasFlag flags 0x0002) data₂ o.group with
  | none =>
    rw [hread] at hgroup
    exact hgroup
  | some read =>
    rw [hread] at hgroup
    obtain ⟨off₃, hoff, -⟩ := hgroup
    exact ⟨off₃, hoff, trivial⟩

theorem ownerAt_agrees (o : Owner) :
    Agrees Eq (ownerAt body off recEnd o) (some (parseOwner payload o)) := by
  rw [ownerAt, parseOwner]
  refine h.vintAt.attemptAt (fun hnone => ?_) fun flags off₁ data hsome h₁ => ?_
  · rw [hnone]
    exact .ok rfl
  · rw [hsome]
    dsimp only
    refine (ownerProbes_agrees h₁ flags o).attempt_bind (fun hnone => ?_) fun _ names hnames _ => ?_
    · rw [hnone]
      exact .ok rfl
    · obtain ⟨⟨user, data₂⟩, huser, hrest⟩ := bind_eq_some_iff.mp hnames
      obtain ⟨⟨group, data₃⟩, hgroup, hresult⟩ := bind_eq_some_iff.mp hrest
      obtain rfl := Option.some.inj hresult
      rw [hnames]
      refine (ownerNameAt_agrees h₁ huser).someAt fun off₂ h₂ => ?_
      refine (ownerNameAt_agrees h₂ hgroup).someAt fun off₃ h₃ => ?_
      refine (ownerIdAt_agrees h₃ _ _ _).bind_some fun uid hread => ?_
      obtain ⟨hhas, huid, h₄⟩ := hread
      refine (ownerIdAt_agrees h₄ _ _ _).bind_some fun gid hread => ?_
      obtain ⟨hhas', hgid, -⟩ := hread
      exact .ok (by rw [hhas, huid, hhas', hgid])

theorem xattrEntriesAt_agrees (count : Nat) (parsed : List FileXattr) :
    Agrees Eq (xattrEntriesAt body recEnd count off parsed)
      (parseXattrEntries count payload parsed) := by
  induction count generalizing off payload parsed with
  | zero =>
    have hoff := h.off_le
    refine .demand ?_ fun _ => .ok rfl
    rw [h.nil_iff]
    omega
  | succ count ih =>
    refine h.vintAt.bindAt fun nlen off₁ data₁ _ h₁ => ?_
    refine .demand_not Iff.rfl fun _ => ?_
    refine loadBytes_agrees h₁ fun h₂ => ?_
    refine h₂.vintAt.bindAt fun vlen off₃ data₃ _ h₃ => ?_
    refine .demand_not Iff.rfl fun _ => ?_
    refine loadBytes_agrees h₃ fun h₄ => ?_
    exact .demand_not Iff.rfl fun _ => ih h₄ _

theorem xattrsAt_agrees :
    Agrees Eq (xattrsAt body off recEnd) (parseXattrs payload) := by
  refine h.vintAt.bindAt fun flags off₁ data₁ _ h₁ => ?_
  refine .demand_not (by simp) fun _ => ?_
  refine h₁.vintAt.bindAt fun count off₂ data₂ _ h₂ => ?_
  exact .demand_not (by rw [h₂.wsub_eq]) fun _ => xattrEntriesAt_agrees h₂ count []

end

/-! ### One record -/

theorem unknownAt_agrees {oldOff : Nat} {raw : List UInt8} (hraw : Window body oldOff recEnd raw)
    (hrest : Window body recEnd body.size rest) (type : UInt8) (b : FileBlock) :
    Agrees (fun x y => At body body.size x y ∧ recEnd ≤ x.2)
      (unknownAt body type oldOff recEnd b)
      (some ({ b with unknownExtras := b.unknownExtras ++ [⟨type, raw⟩] }, rest)) := by
  rw [unknownAt, hraw.wsub_eq, hraw.loadBytes (Nat.le_refl _), take_length]
  exact .ok ⟨⟨rfl, hrest⟩, Nat.le_refl _⟩

theorem record_agrees : RecordAgrees body body.size (recordAt body) parseRecord := by
  intro recSize type oldOff off recEnd payload raw rest b hraw hpayload hrest
  have hstay : ∀ b : FileBlock, Agrees (fun x y => At body body.size x y ∧ recEnd ≤ x.2)
      (.ok (b, recEnd)) (some (b, rest)) := fun b => .ok ⟨⟨rfl, hrest⟩, Nat.le_refl _⟩
  refine .ite Iff.rfl (fun _ => ?_) fun _ => ?_
  · refine (hashAt_agrees hpayload b).bind_some fun b' hb => ?_
    exact hb ▸ hstay _
  refine .ite Iff.rfl (fun _ => ?_) fun _ => ?_
  · refine (cryptAt_agrees hpayload b.crypt).bind fun crypt _ hcrypt => ?_
    exact hcrypt ▸ hstay _
  refine .ite Iff.rfl (fun _ => ?_) fun _ => ?_
  · refine (versionOrRedirAt_agrees hpayload b).bind_some fun b' hb => ?_
    exact hb ▸ hstay _
  refine .ite Iff.rfl (fun _ => ?_) fun _ => ?_
  · refine (htimeAt_agrees hpayload b.times).bind_some fun times htimes => ?_
    exact htimes ▸ hstay _
  refine .ite Iff.rfl (fun _ => subdataAt_agrees hpayload hrest b) fun _ => ?_
  refine .ite Iff.rfl (fun _ => ?_) fun _ => ?_
  · refine (ownerAt_agrees hpayload b.owner).bind_some fun owner howner => ?_
    exact howner ▸ hstay _
  refine .ite Iff.rfl (fun _ => ?_) fun _ => unknownAt_agrees hraw hrest type b
  refine (xattrsAt_agrees hpayload).attempt_bind (fun hnone => ?_) fun xattrs _ hsome hx => ?_
  · rw [hnone]
    exact unknownAt_agrees hraw hrest type b
  · rw [hsome, ← hx]
    exact hstay _

/-! ## File headers -/

theorem packSizeAt_agrees (flags : Nat) (h : Window body off body.size data) :
    Agrees (At body body.size) (packSizeAt body flags off) (readPackSize flags data) := by
  refine .ite Iff.rfl (fun _ => ?_) fun _ => .ok ⟨rfl, h⟩
  refine h.vintAt.bindAt fun size off₁ data₁ _ h₁ => ?_
  exact .demand_not Iff.rfl fun _ => .ok ⟨rfl, h₁⟩

theorem parseFixedAt_agrees (body : Buffer) :
    Agrees
      (fun x y => x.1 = y.1 ∧ x.2.2.1 = y.2.1 ∧ (x.2.1 = false → x.2.2.1 = 0) ∧
        Window body x.2.2.2 body.size y.2.2)
      (parseFixedAt body) (parseFixed body.bytes) := by
  refine (Window.whole body).vintAt.bindAt fun type off₁ data₁ _ h₁ => ?_
  refine .demand_not Iff.rfl fun _ => ?_
  refine h₁.vintAt.bindAt fun flags off₂ data₂ _ h₂ => ?_
  refine (vintIfAt_agrees h₂).bindAt fun extraSize off₃ data₃ hextra h₃ => ?_
  refine (packSizeAt_agrees flags h₃).bindAt fun packSize off₄ data₄ _ h₄ => ?_
  refine h₄.vintAt.bindAt fun fileFlags off₅ data₅ _ h₅ => ?_
  refine h₅.vintAt.bindAt fun unpSize off₆ data₆ _ h₆ => ?_
  refine h₆.vintAt.bindAt fun attributes off₇ data₇ _ h₇ => ?_
  refine (le32IfAt_agrees h₇).bindAt fun utimeUnix off₈ data₈ _ h₈ => ?_
  refine (le32IfAt_agrees h₈).bindAt fun dataCrc32 off₉ data₉ _ h₉ => ?_
  refine h₉.vintAt.bindAt fun compInfo off₁₀ data₁₀ _ h₁₀ => ?_
  refine h₁₀.vintAt.bindAt fun hostOs off₁₁ data₁₁ _ h₁₁ => ?_
  refine h₁₁.vintAt.bindAt fun nameLen off₁₂ data₁₂ _ h₁₂ => ?_
  refine loadBytes_agrees h₁₂ fun h₁₃ => ?_
  exact .ok ⟨rfl, rfl, readIf_absent hextra, h₁₃⟩

theorem parseFileHeaderAt_agrees (body : Buffer) :
    Agrees Eq (parseFileHeaderAt body) (parseFileHeader body.bytes) := by
  refine (parseFixedAt_agrees body).bind
    fun ⟨b, hasExtra, extraSize, off⟩ ⟨b', extraSize', data⟩ ⟨hb, hsize, habsent, h⟩ => ?_
  obtain rfl : b = b' := hb
  obtain rfl : extraSize = extraSize' := hsize
  simp only [parseExtras_eq_areaLoop]
  exact areaAt_agrees record_agrees habsent h b

/-! ## Summary -/

/-- On every body both parsers end with the verdict of the parsers on bytes: no index they
read is outside the body, and no loop runs on. -/
theorem parseHeadersAt_eq (body : Buffer) :
    parseMainHeaderAt body = verdict (parseMainHeader body.bytes) ∧
      parseFileHeaderAt body = verdict (parseFileHeader body.bytes) :=
  ⟨(parseMainHeaderAt_agrees body).eq_of, (parseFileHeaderAt_agrees body).eq_of⟩

end HeaderReader
end OpenRar.Format
