import OpenRar.Recovery.ReedSolomon16

/-!
# Every fold kernel adds the same field products

A block of even length is a list of little-endian words.  `updateEcc` adds, in
every word, the field product of the coefficient and the data word, whichever
kernel the process selected: the byte tables and the nibble tables agree with
the direct product because multiplication by a constant distributes over xor.
-/

namespace OpenRar.Recovery

open BinaryField List

/-! ## Multiplication by a constant is linear -/

variable {b coeff half dataNum eccNum : Nat} {data ecc : List UInt8}

theorem gfMul_xor {c a : Nat} (hc : c < 65536) (ha : a < 65536) (hb : b < 65536) :
    gfMul c (a ^^^ b) = gfMul c a ^^^ gfMul c b := by
  have hab : a ^^^ b < 65536 := Nat.xor_lt_two_pow (n := 16) ha hb
  have hsum : gfMul c a ^^^ gfMul c b < 65536 :=
    Nat.xor_lt_two_pow (n := 16) (gfMul_spec hc ha).1 (gfMul_spec hc hb).1
  refine toGf_injective (gfMul_spec hc hab).1 hsum ?_
  have hxor : ∀ x y, toGf (x ^^^ y) = toGf x + toGf y := toGf_gfAdd
  rw [(gfMul_spec hc hab).2, hxor, hxor, (gfMul_spec hc ha).2, (gfMul_spec hc hb).2, mul_add]

theorem high_byte_mask (hb : b < 65536) : (b >>> 8) &&& 0xFF = b >>> 8 := by
  have hlt : b >>> 8 < 2 ^ 8 := by
    omega
  exact Nat.and_two_pow_sub_one_of_lt_two_pow hlt

theorem tableProduct_eq (hc : coeff < 65536) (hb : b < 65536) :
    tableProduct coeff b = gfMul coeff b := by
  have hhigh : ((b >>> 8) &&& 0xFF) <<< 8 < 65536 := by
    have hle : (b >>> 8) &&& 0xFF ≤ 0xFF := Nat.and_le_right
    omega
  have hlow : b &&& 0xFF < 65536 := by
    have hle : b &&& 0xFF ≤ 0xFF := Nat.and_le_right
    omega
  rw [tableProduct, ← gfMul_xor hc hlow hhigh, high_byte_mask hb, show 0xFF = 2 ^ 8 - 1 by decide,
    low_xor_high]

theorem nibbleLookup_eq {k : Nat} (hk : k < 65536) (hhalf : half < 256) :
    nibbleLookup k half = gfMul k half := by
  have hlow : half &&& 0x0F < 65536 := by
    have hle : half &&& 0x0F ≤ half := Nat.and_le_left
    omega
  have hhigh : (half >>> 4) <<< 4 < 65536 := by
    omega
  rw [nibbleLookup, ← gfMul_xor hk hlow hhigh, show 0x0F = 2 ^ 4 - 1 by decide,
    low_xor_high]

/-- Multiplying a byte by `coeff * x^8` is multiplying the shifted byte. -/
theorem gfMul_shifted (hc : coeff < 65536) (hhalf : half < 256) :
    gfMul (gfMul coeff 0x100) half = gfMul coeff (half <<< 8) := by
  have hshift : half <<< 8 < 65536 := by
    omega
  have hk := gfMul_spec hc (show 0x100 < 65536 by decide)
  have hhalf' : half < 65536 := by omega
  refine toGf_injective (gfMul_spec hk.1 hhalf').1 (gfMul_spec hc hshift).1 ?_
  rw [(gfMul_spec hk.1 hhalf').2, hk.2, (gfMul_spec hc hshift).2, mul_assoc]
  have heval : ∀ v < 2 ^ 8, toGf (v <<< 8) = alpha ^ 8 * toGf v := fun v hv =>
    wordEval_shiftLeft alpha (k := 8) hv (by decide)
  rw [heval half hhalf, show 0x100 = 1 <<< 8 by decide, heval 1 (by decide), toGf_one, mul_one]

theorem nibbleProduct_eq (hc : coeff < 65536) (hb : b < 65536) :
    nibbleProduct coeff b = gfMul coeff b := by
  have hlow : b &&& 0xFF < 256 := Nat.lt_succ_of_le Nat.and_le_right
  have hhigh : (b >>> 8) &&& 0xFF < 256 := Nat.lt_succ_of_le Nat.and_le_right
  have hk1 := (gfMul_spec hc (show 0x100 < 65536 by decide)).1
  have hsum : nibbleLookup coeff (b &&& 0xFF) ^^^
      nibbleLookup (gfMul coeff 0x100) ((b >>> 8) &&& 0xFF)
      = gfMul coeff b := by
    rw [nibbleLookup_eq hc hlow, nibbleLookup_eq hk1 hhigh, gfMul_shifted hc hhigh]
    exact tableProduct_eq hc hb
  have hbound := (gfMul_spec hc hb).1
  rw [nibbleProduct]
  simp only [← Nat.and_xor_distrib_right, ← Nat.shiftRight_xor_distrib, hsum]
  rw [high_byte_mask hbound]
  exact low_or_high _ 8

/-! ## Blocks as words -/

/-- The little-endian words of a block; an odd last byte is left out. -/
def toWords : List UInt8 → List Nat
  | b0 :: b1 :: block => (b0.toNat ||| (b1.toNat <<< 8)) :: toWords block
  | _ => []

theorem toWords_length : ∀ block : List UInt8, (toWords block).length = block.length / 2
  | [] => by simp [toWords]
  | [_] => by simp [toWords]
  | _ :: _ :: block => by
      simp only [toWords, length_cons, toWords_length block]
      omega

theorem word_eq (b0 b1 : UInt8) : b0.toNat ||| (b1.toNat <<< 8) = b0.toNat + 256 * b1.toNat := by
  rw [Nat.or_comm, ← Nat.shiftLeft_add_eq_or_of_lt b0.toNat_lt, Nat.shiftLeft_eq]
  omega

theorem word_lt (b0 b1 : UInt8) : b0.toNat ||| (b1.toNat <<< 8) < 65536 := by
  have h0 := b0.toNat_lt
  have h1 := b1.toNat_lt
  rw [word_eq]
  omega

theorem toWords_lt : ∀ block : List UInt8, ∀ w ∈ toWords block, w < 65536
  | [], _, hw => by simp [toWords] at hw
  | [_], _, hw => by simp [toWords] at hw
  | b0 :: b1 :: block, w, hw => by
      rcases mem_cons.mp hw with rfl | hw
      · exact word_lt b0 b1
      · exact toWords_lt block w hw

/-- Blocks of even length are determined by their words. -/
theorem toWords_injective : ∀ {a b : List UInt8}, a.length = b.length → Even a.length →
    toWords a = toWords b → a = b
  | [], [], _, _, _ => rfl
  | [_], _, _, heven, _ => by simp at heven
  | a0 :: a1 :: a, b0 :: b1 :: b, hlen, heven, h => by
      obtain ⟨hword, htail⟩ := List.cons.inj h
      rw [word_eq, word_eq] at hword
      have ha0 := a0.toNat_lt
      have hb0 := b0.toNat_lt
      have h0 : a0 = b0 := UInt8.toNat_inj.mp (by omega)
      have h1 : a1 = b1 := UInt8.toNat_inj.mp (by omega)
      have hrest := toWords_injective (by simpa using hlen)
        (by simpa [Nat.even_add_one] using heven) htail
      rw [h0, h1, hrest]

/-- A word stored as two bytes reads back as itself. -/
theorem store_word {p : Nat} (hp : p < 65536) :
    (UInt8.ofNat (p &&& 0xFF)).toNat ||| ((UInt8.ofNat ((p >>> 8) &&& 0xFF)).toNat <<< 8) = p := by
  have hlow : p &&& 0xFF < 256 := Nat.lt_succ_of_le Nat.and_le_right
  have hhigh : (p >>> 8) &&& 0xFF < 256 := Nat.lt_succ_of_le Nat.and_le_right
  rw [UInt8.toNat_ofNat_of_lt' hlow, UInt8.toNat_ofNat_of_lt' hhigh, high_byte_mask hp]
  exact low_or_high p 8

@[simp]
theorem foldWords_length (mul tailMul : Nat → Nat) (data ecc : List UInt8) :
    (foldWords mul tailMul data ecc).length = ecc.length := by
  fun_induction foldWords mul tailMul data ecc with
  | case1 => simp_all
  | case2 => rfl
  | case3 => rfl

/-- Induction over two blocks of the same even length, one word at a time. -/
@[elab_as_elim]
theorem words_induction {motive : List UInt8 → List UInt8 → Prop} (nil : motive [] [])
    (word : ∀ d0 d1 data e0 e1 ecc, motive data ecc →
      motive (d0 :: d1 :: data) (e0 :: e1 :: ecc)) :
    ∀ {data ecc : List UInt8}, data.length = ecc.length → Even ecc.length → motive data ecc
  | [], [], _, _ => nil
  | [_], [_], _, heven => by simp at heven
  | d0 :: d1 :: data, e0 :: e1 :: ecc, hlen, heven =>
    word d0 d1 data e0 e1 ecc (words_induction nil word (by simpa using hlen)
      (by simpa [Nat.even_add_one] using heven))

theorem toWords_foldWords {mul tailMul : Nat → Nat} (hmul : ∀ b < 65536, mul b < 65536)
    (hlen : data.length = ecc.length) (heven : Even ecc.length) :
    toWords (foldWords mul tailMul data ecc)
      = List.zipWith (fun d e => e ^^^ mul d) (toWords data) (toWords ecc) := by
  refine words_induction ?nil ?word hlen heven
  case nil => simp [foldWords, toWords]
  case word =>
    intro d0 d1 data e0 e1 ecc ih
    have hec : (e0.toNat ||| (e1.toNat <<< 8)) ^^^ mul (d0.toNat ||| (d1.toNat <<< 8)) < 65536 :=
      Nat.xor_lt_two_pow (n := 16) (word_lt e0 e1) (hmul _ (word_lt d0 d1))
    simp only [foldWords, toWords, zipWith_cons_cons, store_word hec, ih]

theorem foldWords_append (mul tailMul : Nat → Nat) {d₁ e₁ : List UInt8} (d₂ e₂ : List UInt8)
    (hlen : d₁.length = e₁.length) (heven : Even e₁.length) :
    foldWords mul tailMul (d₁ ++ d₂) (e₁ ++ e₂)
      = foldWords mul tailMul d₁ e₁ ++ foldWords mul tailMul d₂ e₂ := by
  refine words_induction ?nil ?word hlen heven
  case nil => simp [foldWords]
  case word =>
    intro d0 d1 data e0 e1 ecc ih
    simp [foldWords, ih]

/-- Products that agree on words fold blocks of even length alike. -/
theorem foldWords_congr {mul mul' : Nat → Nat} (tail tail' : Nat → Nat)
    (h : ∀ b < 65536, mul b = mul' b)
    (hlen : data.length = ecc.length) (heven : Even ecc.length) :
    foldWords mul tail data ecc = foldWords mul' tail' data ecc := by
  refine words_induction ?nil ?word hlen heven
  case nil => simp [foldWords]
  case word =>
    intro d0 d1 data e0 e1 ecc ih
    simp [foldWords, ih, h _ (word_lt d0 d1)]

/-! ## The dispatched fold -/

/-- What a fold starts from: slot zero clears the output unit. -/
def foldBase (dataNum : Nat) (ecc : List UInt8) : List UInt8 :=
  if dataNum = 0 then List.replicate ecc.length 0 else ecc

@[simp]
theorem foldBase_length (dataNum : Nat) (ecc : List UInt8) :
    (foldBase dataNum ecc).length = ecc.length := by
  unfold foldBase
  split <;> simp

theorem foldBase_foldBase (dataNum : Nat) (ecc : List UInt8) :
    foldBase dataNum (foldBase dataNum ecc) = foldBase dataNum ecc := by
  unfold foldBase
  split <;> simp

theorem foldWords_zero (hlen : data.length = ecc.length)
    (heven : Even ecc.length) : foldWords (gfMul 0) (gfMul 0) data ecc = ecc := by
  have hzero : ∀ b, gfMul 0 b = 0 := fun b => by simp [gfMul]
  refine toWords_injective (by simp) (by simpa using heven) ?_
  rw [toWords_foldWords (fun b _ => by simp [hzero b]) hlen heven]
  refine words_induction ?nil ?word hlen heven
  case nil => simp [toWords]
  case word => simp [toWords, hzero]

theorem updateEccScalar_eq (rs : ReedSolomon16) (hcoeff : rs.mx eccNum dataNum < 65536)
    (hlen : data.length = ecc.length) (heven : Even ecc.length) :
    rs.updateEccScalar dataNum eccNum data ecc
      = foldWords (gfMul (rs.mx eccNum dataNum)) (gfMul (rs.mx eccNum dataNum)) data
          (foldBase dataNum ecc) := by
  have hlen' : data.length = (foldBase dataNum ecc).length := by simpa using hlen
  have heven' : Even (foldBase dataNum ecc).length := by simpa using heven
  change (if rs.mx eccNum dataNum = 0 then foldBase dataNum ecc
    else if (foldBase dataNum ecc).length < 2048 then _ else _) = _
  split
  · next hzero => rw [hzero, foldWords_zero hlen' heven']
  · split
    · rfl
    · exact foldWords_congr _ _ (fun b hb => tableProduct_eq hcoeff hb) hlen' heven'

theorem FoldKernel.lanes_even {kernel : FoldKernel} {lanes : Nat}
    (h : kernel.lanes = some lanes) : Even lanes := by
  cases kernel <;> simp only [FoldKernel.lanes, Option.some.injEq, reduceCtorEq] at h <;>
    subst h <;> decide

/-- **Every kernel folds the direct products.** -/
theorem updateEcc_eq (rs : ReedSolomon16) (kernel : FoldKernel)
    (hcoeff : rs.mx eccNum dataNum < 65536)
    (hlen : data.length = ecc.length) (heven : Even ecc.length) :
    rs.updateEcc kernel dataNum eccNum data ecc
      = foldWords (gfMul (rs.mx eccNum dataNum)) (gfMul (rs.mx eccNum dataNum)) data
          (foldBase dataNum ecc) := by
  unfold ReedSolomon16.updateEcc
  split
  · exact updateEccScalar_eq rs hcoeff hlen heven
  · next lanes hlanes =>
    have hbase : (foldBase dataNum ecc).length = ecc.length := foldBase_length _ _
    change (if rs.mx eccNum dataNum = 0 then foldBase dataNum ecc
      else if lanes ≤ ecc.length then
        foldWords _ _ _ ((foldBase dataNum ecc).take _) ++
          foldWords _ _ _ ((foldBase dataNum ecc).drop _)
      else rs.updateEccScalar dataNum eccNum data (foldBase dataNum ecc)) = _
    split
    · next hzero =>
      rw [hzero, foldWords_zero (by rw [hbase, hlen]) (by rw [hbase]; exact heven)]
    · split
      · have hbody : Even (ecc.length / lanes * lanes) :=
          (FoldKernel.lanes_even hlanes).mul_left _
        set body := ecc.length / lanes * lanes
        have hle : body ≤ ecc.length := Nat.div_mul_le_self _ _
        have htake : (data.take body).length = ((foldBase dataNum ecc).take body).length := by
          simp [hlen]
        have htakeEven : Even ((foldBase dataNum ecc).take body).length := by
          simpa [Nat.min_eq_left hle] using hbody
        have hcongr : foldWords (nibbleProduct (rs.mx eccNum dataNum))
            (nibbleProduct (rs.mx eccNum dataNum)) (data.take body)
              ((foldBase dataNum ecc).take body)
            = foldWords (gfMul (rs.mx eccNum dataNum)) (gfMul (rs.mx eccNum dataNum))
              (data.take body) ((foldBase dataNum ecc).take body) :=
          foldWords_congr _ _ (fun b hb => nibbleProduct_eq hcoeff hb) htake htakeEven
        rw [hcongr, ← foldWords_append _ _ _ _ htake htakeEven, take_append_drop,
          take_append_drop]
      · rw [updateEccScalar_eq rs hcoeff (by rw [hbase, hlen]) (by rw [hbase]; exact heven),
          foldBase_foldBase]

end OpenRar.Recovery
