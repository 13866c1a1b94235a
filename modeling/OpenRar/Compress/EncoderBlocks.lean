import OpenRar.Compress.StreamDecode
import OpenRar.Compress.EncoderState

/-!
# Blocks of the encoder

The encoder counts the symbols of the tokens it collects, and a block is written from
the tokens and the counts.  A token whose symbols were counted has codes, and a block
of at most 32769 tokens stays far below the 16 MiB that its header can express, so
that writing it cannot fail.
-/

namespace OpenRar.Compress

open BitString BlockWriter CanonicalCode List Decompressor50 HuffmanBuilder

/-! ## Counted tokens have codes -/

/-- The symbols of a token have been counted. -/
def Counted (freq : Frequencies) (tok : Token) : Prop :=
  freq.ld.getD tok.symbol 0 ≠ 0 ∧
    match tok with
    | .match_ _ _ distSlot distExtra =>
      distSlot < 64 ∧ freq.dd.getD distSlot 0 ≠ 0 ∧
        (4 ≤ distBits distSlot → freq.ldd.getD (distExtra % 16) 0 ≠ 0)
    | .rep _ lenSlot _ => freq.rd.getD lenSlot 0 ≠ 0
    | _ => True

/-- The tokens of a block and the counts of their symbols. -/
structure Ledger (freq : Frequencies) (tokens : List Token) : Prop where
  sized : Sized freq
  counted : ∀ tok ∈ tokens, Counted freq tok

variable {freq : Frequencies} {tok : Token} {st st' : LzState} {tokens : List Token}

theorem Counted.codes (hsized : Sized freq) (h : Counted freq tok) :
    Codes (makeTables freq) tok := by
  have hgood := fun {xs : List Nat} (hlen : xs.length ≤ 2 ^ 15) =>
    buildLengths_good (m := 15) (by decide) hlen
  obtain ⟨hld, hrest⟩ := h
  refine ⟨(hgood (by rw [hsized.ld]; decide)).used _ hld, ?_⟩
  cases tok with
  | literal _ => trivial
  | lastLen => trivial
  | filter _ _ _ _ => trivial
  | rep index lenSlot lenExtra => exact (hgood (by rw [hsized.rd]; decide)).used _ hrest
  | match_ lenSlot lenExtra distSlot distExtra =>
    obtain ⟨hslot, hdd, hldd⟩ := hrest
    constructor
    · apply (hgood (by rw [length_take, hsized.dd]; decide)).used
      rwa [getD_eq_getElem?_getD, List.getElem?_take_of_lt hslot,
        ← getD_eq_getElem?_getD]
    · intro hbits
      exact (hgood (by rw [hsized.ldd]; decide)).used _ (hldd hbits)

/-! ## A block fits -/

theorem getD_buildLengths_le {xs : List Nat} (hlen : xs.length ≤ 2 ^ 15) (sym : Nat) :
    (buildLengths xs 15).getD sym 0 ≤ 15 := by
  have hgood := buildLengths_good (m := 15) (by decide) hlen
  by_cases hsym : sym < (buildLengths xs 15).length
  · rw [getD_eq_getElem _ _ hsym]
    exact hgood.bits _ (getElem_mem hsym)
  · rw [getD_eq_default _ _ (by omega)]
    exact Nat.zero_le _

theorem makeTables_le (hsized : Sized freq) (sym : Nat) :
    (makeTables freq).ld.getD sym 0 ≤ 15 ∧ (makeTables freq).dd.getD sym 0 ≤ 15 ∧
      (makeTables freq).ldd.getD sym 0 ≤ 15 ∧ (makeTables freq).rd.getD sym 0 ≤ 15 := by
  refine ⟨getD_buildLengths_le ?_ sym, getD_buildLengths_le ?_ sym,
    getD_buildLengths_le ?_ sym, getD_buildLengths_le ?_ sym⟩
  · rw [hsized.ld]
    decide
  · rw [length_take, hsized.dd]
    decide
  · rw [hsized.ldd]
    decide
  · rw [hsized.rd]
    decide

variable {m : Member} {win : Reach}

variable {slot : Nat} {f g : Frequencies}

theorem lenBits_le (h : slot < 44) : lenBits slot ≤ 9 := by
  unfold lenBits
  split <;> omega

theorem distBits_le (h : slot < 64) : distBits slot ≤ 30 := by
  unfold distBits
  split <;> omega

theorem filterByteCount_le (val : Nat) : filterByteCount val ≤ 4 := by
  unfold filterByteCount
  split_ifs <;> omega

/-- The same for slots and extra bits, with nothing asked of a filter token: its fields
are cut to their bits. -/
def Token.Slotted : Token → Prop
  | .filter _ _ _ _ => True
  | tok => tok.InRange

theorem Token.InRange.slotted (h : tok.InRange) : tok.Slotted := by
  cases tok <;> first | exact h | trivial

theorem Token.Slotted.bounded (h : tok.Slotted) : Token.Bounded tok := by
  cases tok with
  | literal _ => trivial
  | match_ _ _ _ _ => exact ⟨h.2.1, h.2.2.2⟩
  | rep _ _ _ => exact h.2.2
  | lastLen => trivial
  | filter _ _ _ _ => trivial

theorem Step.slotted (h : Step m win st tok st') :
    tok.Slotted := by
  cases h with
  | literal _ _ => trivial
  | match_ hlenSlot hlenExtra hdistSlot hdistExtra _ _ _ _ =>
    exact ⟨hlenSlot, hlenExtra, hdistSlot, hdistExtra⟩
  | rep hindex hlenSlot hlenExtra _ _ _ _ _ => exact ⟨hindex, hlenSlot, hlenExtra⟩
  | lastLen _ _ _ _ _ => trivial
  | filter _ _ _ _ _ _ _ _ => trivial

theorem Chain.slotted (h : Chain m win st tokens st') :
    ∀ tok ∈ tokens, tok.Slotted := by
  induction h with
  | nil =>
    intro tok htok
    cases htok
  | cons hstep _ ih => exact forall_mem_cons.mpr ⟨hstep.slotted, ih⟩

theorem Token.Slotted.tokenBits_length_le (h : tok.Slotted) (hsized : Sized freq) :
    (tokenBits (makeTables freq) tok).length ≤ 128 := by
  have hle := makeTables_le hsized
  cases tok with
  | literal b =>
    rw [tokenBits, codeword_length]
    exact le_trans (hle _).1 (by decide)
  | lastLen =>
    rw [tokenBits, codeword_length]
    exact le_trans (hle _).1 (by decide)
  | rep index lenSlot lenExtra =>
    have hld := (hle (258 + index)).1
    have hrd := (hle lenSlot).2.2.2
    have hbits := lenBits_le h.2.1
    simp only [tokenBits, length_append, codeword_length, ofNat_length]
    omega
  | match_ lenSlot lenExtra distSlot distExtra =>
    have hld := (hle (262 + lenSlot)).1
    have hdd := (hle distSlot).2.1
    have hldd := (hle (distExtra % 16)).2.2.1
    have hlen := lenBits_le h.1
    have hdist := distBits_le h.2.2.1
    have hextra : (distExtraBits (makeTables freq).ldd distSlot distExtra).length ≤ 45 := by
      unfold distExtraBits
      split
      · rw [length_append, ofNat_length, codeword_length]
        omega
      · rw [ofNat_length]
        omega
    simp only [tokenBits, length_append, codeword_length, ofNat_length]
    omega
  | filter blockStart blockLength type channels =>
    have hld := (hle 256).1
    have hstart := filterByteCount_le blockStart
    have hlength := filterByteCount_le blockLength
    simp only [tokenBits, length_append, codeword_length, ofNat_length,
      filterDataBits_length]
    split
    · rw [ofNat_length]
      omega
    · rw [length_nil]
      omega

theorem emitBitLengths_length_le (fuel : Nat) (lens : List Nat) :
    (emitBitLengths fuel lens).length ≤ 8 * fuel := by
  induction fuel generalizing lens with
  | zero => exact Nat.le_refl 0
  | succ fuel ih =>
    cases lens with
    | nil => exact Nat.zero_le _
    | cons len rest =>
      have hrest := ih rest
      have hdrop := fun n => ih ((len :: rest).drop n)
      unfold emitBitLengths
      dsimp only
      split_ifs
      · simp only [putBits, length_append, ofNat_length]
        omega
      · have := hdrop (min (1 + (rest.takeWhile (· == 0)).length) 17)
        simp only [putBits, length_append, ofNat_length]
        omega
      · simp only [putBits, length_append, ofNat_length]
        omega
      · simp only [putBits, length_append, ofNat_length]
        omega

theorem runItem_bits (short long chunk : Nat) : (runItem short long chunk).bits ≤ 7 := by
  unfold runItem
  split
  · exact Nat.le_refl 7
  · exact Nat.le_of_lt (by decide : 3 < 7)

/-- There are not more items than entries, and their extra bits are few. -/
theorem makeTableItems_size (fuel : Nat) (previous : Option Nat) (table : List Nat) :
    (makeTableItems fuel previous table).length ≤ fuel ∧
      ∀ item ∈ makeTableItems fuel previous table, item.bits ≤ 7 := by
  induction fuel generalizing previous table with
  | zero => exact ⟨Nat.le_refl 0, fun item hitem => by cases hitem⟩
  | succ fuel ih =>
    cases table with
    | nil => exact ⟨Nat.zero_le _, fun item hitem => by cases hitem⟩
    | cons v rest =>
      have hcons : ∀ (item : TableItem) (previous : Option Nat) (table : List Nat),
          item.bits ≤ 7 →
          (item :: makeTableItems fuel previous table).length ≤ fuel + 1 ∧
            ∀ x ∈ item :: makeTableItems fuel previous table, x.bits ≤ 7 := by
        intro item previous table hitem
        obtain ⟨hlen, hbits⟩ := ih previous table
        refine ⟨by rw [length_cons]; omega, fun x hx => ?_⟩
        rcases mem_cons.mp hx with rfl | hx
        · exact hitem
        · exact hbits x hx
      unfold makeTableItems
      dsimp only
      split_ifs
      · exact hcons _ _ _ (runItem_bits _ _ _)
      · exact hcons _ _ _ (Nat.zero_le _)
      · exact hcons _ _ _ (runItem_bits _ _ _)
      · exact hcons _ _ _ (Nat.zero_le _)

theorem flatMap_length_le {α β : Type*} {f : α → List β} {xs : List α} {bound : Nat}
    (h : ∀ x ∈ xs, (f x).length ≤ bound) : (xs.flatMap f).length ≤ bound * xs.length := by
  induction xs with
  | nil => exact Nat.zero_le _
  | cons x xs ih =>
    have hx := h x mem_cons_self
    have hrest := ih fun y hy => h y (mem_cons_of_mem _ hy)
    rw [flatMap_cons, length_append, length_cons, Nat.mul_succ]
    omega

theorem emitTable_length_le (table : List Nat) :
    (emitTable table).length ≤ 160 + 22 * table.length := by
  set items := makeTableItems table.length none table with hitems
  obtain ⟨hcount, hbits⟩ := makeTableItems_size table.length none table
  rw [← hitems] at hcount hbits
  have hfirst := emitBitLengths_length_le 20 (buildLengths (itemFreq items) 15)
  have hsecond : (items.flatMap fun item =>
      putCode (buildLengths (itemFreq items) 15)
        (buildCodes (buildLengths (itemFreq items) 15)) item.sym
        ++ putBits item.extra item.bits).length ≤ 22 * items.length := by
    apply flatMap_length_le
    intro item hitem
    have hextra := hbits item hitem
    have hcode := getD_buildLengths_le
      (show (itemFreq items).length ≤ 2 ^ 15 by simp [itemFreq]) item.sym
    simp only [putCode, putBits, length_append, ofNat_length]
    omega
  unfold emitTable
  rw [length_append, ← hitems]
  omega

/-- **A block of the encoder can be written.** -/
theorem exists_writeBlock_slotted (hrange : ∀ tok ∈ tokens, tok.Slotted) (hsized : Sized freq)
    (hcount : tokens.length ≤ 32769) (lastBlock : Bool) :
    ∃ bytes, writeBlock freq tokens lastBlock = some bytes := by
  have htable := emitTable_length_le (tableLengths (makeTables freq))
  rw [(tableLengths_good hsized).1] at htable
  have htokens : (tokens.flatMap (tokenBits (makeTables freq))).length ≤ 128 * tokens.length :=
    flatMap_length_le fun tok htok => (hrange tok htok).tokenBits_length_le hsized
  rw [← emitTokens_eq _ fun tok htok => (hrange tok htok).bounded] at htokens
  have hsize : (toBytes (blockBits freq tokens)).length < 0x1000000 := by
    rw [toBytes_length, blockBits, length_append]
    omega
  unfold writeBlock
  dsimp only
  split
  · exact ⟨_, rfl⟩
  · rw [if_neg (by omega)]
    exact ⟨_, rfl⟩

/-- The same for the tokens of a chain. -/
theorem exists_writeBlock (hchain : Chain m win st tokens st') (hsized : Sized freq)
    (hcount : tokens.length ≤ 32769) (lastBlock : Bool) :
    ∃ bytes, writeBlock freq tokens lastBlock = some bytes :=
  exists_writeBlock_slotted hchain.slotted hsized hcount lastBlock

/-! ## Blocks that were written -/

/-- A sequence of written blocks, none of them the last. -/
inductive Blocks (m : Member) (win : Reach) (st : LzState) : List UInt8 → LzState → Prop
  | nil : Blocks m win st [] st
  | snoc {st' st'' : LzState} {out bytes : List UInt8} {freq : Frequencies} {tokens : List Token}
      (hprev : Blocks m win st out st') (hblock : BlockStep m win st' freq tokens st'')
      (hwrite : writeBlock freq tokens false = some bytes) : Blocks m win st (out ++ bytes) st''

theorem Blocks.stream {st'' : LzState} {out rest : List UInt8} (h : Blocks m win st out st')
    (hrest : Stream m win st' rest st'') : Stream m win st (out ++ rest) st'' := by
  induction h generalizing rest with
  | nil => exact hrest
  | snoc _ hblock hwrite ih =>
    rw [append_assoc]
    exact ih (.cons hblock hwrite hrest)

theorem Ledger.blockStep (h : Ledger freq tokens) (hchain : Chain m win st tokens st') :
    BlockStep m win st freq tokens st' where
  sized := h.sized
  chain := hchain
  codes := fun tok htok => (h.counted tok htok).codes h.sized

/-! ## Counting -/

namespace Compressor50

@[simp]
theorem bump_length (freq : List Nat) (i : Nat) : (bump freq i).length = freq.length := by
  unfold bump
  split
  · exact length_set
  · rfl

variable {i j v : Nat}

theorem getD_set_ne_zero {freq : List Nat} (hv : v ≠ 0) (h : freq.getD j 0 ≠ 0) :
    (freq.set i v).getD j 0 ≠ 0 := by
  rw [getD_eq_getElem?_getD, List.getElem?_set]
  split_ifs with hij hlt
  · exact hv
  · rw [getD_eq_default _ _ (by omega)] at h
    exact absurd rfl h
  · rwa [← getD_eq_getElem?_getD]

theorem getD_set_self {freq : List Nat} (hi : i < freq.length) : (freq.set i v).getD i 0 = v := by
  rw [getD_eq_getElem _ _ (by rwa [length_set]), getElem_set_self]

theorem bump_mono {freq : List Nat} (h : freq.getD j 0 ≠ 0) : (bump freq i).getD j 0 ≠ 0 := by
  unfold bump
  split
  · exact getD_set_ne_zero (Nat.succ_ne_zero _) h
  · exact h

theorem bump_self {freq : List Nat} (hi : i < freq.length) : (bump freq i).getD i 0 ≠ 0 := by
  unfold bump
  split
  · rw [getD_set_self hi]
    exact Nat.succ_ne_zero _
  · omega

end Compressor50

/-- Counts that were set stay set. -/
structure Grown (f g : Frequencies) : Prop where
  sized : Sized f → Sized g
  ld : ∀ s, f.ld.getD s 0 ≠ 0 → g.ld.getD s 0 ≠ 0
  dd : ∀ s, f.dd.getD s 0 ≠ 0 → g.dd.getD s 0 ≠ 0
  ldd : ∀ s, f.ldd.getD s 0 ≠ 0 → g.ldd.getD s 0 ≠ 0
  rd : ∀ s, f.rd.getD s 0 ≠ 0 → g.rd.getD s 0 ≠ 0

theorem Counted.grown {tok : Token} (hgrown : Grown f g) (h : Counted f tok) : Counted g tok := by
  obtain ⟨hld, hrest⟩ := h
  refine ⟨hgrown.ld _ hld, ?_⟩
  cases tok with
  | literal _ => trivial
  | lastLen => trivial
  | filter _ _ _ _ => trivial
  | rep _ _ _ => exact hgrown.rd _ hrest
  | match_ _ _ _ _ =>
    exact ⟨hrest.1, hgrown.dd _ hrest.2.1, fun hbits => hgrown.ldd _ (hrest.2.2 hbits)⟩

theorem Ledger.snoc {tokens : List Token} {tok : Token} (h : Ledger f tokens)
    (hgrown : Grown f g) (htok : Sized g → Counted g tok) :
    Ledger g (tokens ++ [tok]) where
  sized := hgrown.sized h.sized
  counted := by
    intro t ht
    rcases mem_append.mp ht with ht | ht
    · exact (h.counted t ht).grown hgrown
    · rw [mem_singleton.mp ht]
      exact htok (hgrown.sized h.sized)

namespace Compressor50

theorem initFreq_ledger : Ledger initFreq [] where
  sized := ⟨length_replicate, length_replicate, length_replicate,
    length_replicate⟩
  counted := fun tok htok => by cases htok

theorem grown_bump (f : Frequencies) (i : Nat) : Grown f { f with ld := bump f.ld i } :=
  ⟨fun hs => ⟨(bump_length _ _).trans hs.ld, hs.dd, hs.ldd, hs.rd⟩,
    fun _ => bump_mono, fun _ => id, fun _ => id, fun _ => id⟩

variable {c : Compressor50}

section

variable (h : Ledger c.freq c.tokens)
include h

theorem addLiteral_ledger (b : UInt8) : Ledger (c.addLiteral b).freq (c.addLiteral b).tokens := by
  apply h.snoc
  · exact grown_bump _ _
  · intro hsized
    have hb : b.toNat < 256 := UInt8.toNat_lt b
    exact ⟨bump_self (show b.toNat < c.freq.ld.length by rw [h.sized.ld]; omega), trivial⟩

theorem addLastLen_ledger : Ledger c.addLastLen.freq c.addLastLen.tokens := by
  apply h.snoc
  · exact grown_bump _ _
  · intro hsized
    exact ⟨bump_self (by rw [h.sized.ld]; decide), trivial⟩

theorem addFilter_ledger (blockLength type channels : Nat) :
    Ledger (c.addFilter blockLength type channels).freq
      (c.addFilter blockLength type channels).tokens := by
  apply h.snoc
  · exact ⟨fun hs => ⟨length_set.trans hs.ld, hs.dd, hs.ldd, hs.rd⟩,
      fun s hs => getD_set_ne_zero (Nat.succ_ne_zero _) hs, fun _ hs => hs, fun _ hs => hs,
      fun _ hs => hs⟩
  · intro hsized
    refine ⟨?_, trivial⟩
    rw [Token.symbol, addFilter, getD_set_self (by rw [h.sized.ld]; decide)]
    exact Nat.succ_ne_zero _

theorem addRep_ledger {index length : Nat} (hindex : index < 4)
    (hslot : (lengthToSlot length).1 < 44) :
    Ledger (c.addRep index length).freq (c.addRep index length).tokens := by
  apply h.snoc
  · exact ⟨fun hs => ⟨(bump_length _ _).trans hs.ld, hs.dd, hs.ldd,
      (bump_length _ _).trans hs.rd⟩, fun s hs => bump_mono hs, fun _ hs => hs, fun _ hs => hs,
      fun _ hs => bump_mono hs⟩
  · intro hsized
    exact ⟨bump_self (show 258 + index < c.freq.ld.length by rw [h.sized.ld]; omega),
      bump_self (by rw [h.sized.rd]; exact hslot)⟩

theorem addMatch_ledger {length distance : Nat}
    (hlenSlot : (lengthToSlot (min (length - lengthIncrement distance) maxLzMatch)).1 < 44)
    (hdistSlot : (distanceToSlot distance).1 < 64)
    (hbits : (distanceToSlot distance).2.2 = distBits (distanceToSlot distance).1) :
    Ledger (c.addMatch length distance).1.freq (c.addMatch length distance).1.tokens := by
  unfold addMatch
  dsimp only
  split
  · exact h
  · apply h.snoc
    · refine ⟨fun hs => ⟨(bump_length _ _).trans hs.ld, (bump_length _ _).trans hs.dd, ?_, hs.rd⟩,
        fun s hs => bump_mono hs, fun _ hs => bump_mono hs, fun s hs => ?_, fun _ hs => hs⟩
      · dsimp only
        split
        · exact (bump_length _ _).trans hs.ldd
        · exact hs.ldd
      · dsimp only
        split
        · exact bump_mono hs
        · exact hs
    · intro hsized
      refine ⟨bump_self (show 262 + _ < c.freq.ld.length by rw [h.sized.ld]; omega), hdistSlot,
        bump_self (by rw [h.sized.dd]; omega), fun hfour => ?_⟩
      rw [if_pos (by rw [hbits]; exact hfour)]
      exact bump_self (by rw [h.sized.ldd]; exact Nat.mod_lt _ (by decide))

end

end Compressor50

end OpenRar.Compress
