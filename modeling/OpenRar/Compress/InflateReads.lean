import OpenRar.Compress.InflateTables

/-!
# Reading a valid DEFLATE stream

What the bit reader and the table reader do on bits that were written as RFC 1951 says:
fields, symbols, and the header of a dynamic block.  A reader is described by the bits it
stands before; together with the bits it has consumed they always make the whole input.
-/

namespace OpenRar.Compress

open CanonicalCode List InflateTable InflateInput

namespace InflateInput

/-- The reader stands before `bits`, with `total` bits of input in all. -/
structure At (r : InflateInput) (total : Nat) (bits : List Bool) : Prop where
  sound : r.Sound
  intact : r.truncated = false
  whole : r.consumedBits + bits.length = total
  bits : r.bits = bits

theorem start_at (source : List UInt8) :
    At (start source) (8 * source.length) (LsbBits.ofBytes source) where
  sound := start_sound source
  intact := rfl
  whole := by simp [start]
  bits := start_bits source

variable {r : InflateInput} {total : Nat} {rest : List Bool}

theorem At.taken {taken : List Bool} (h : At r total (taken ++ rest)) {count : Nat}
    (hcount : taken.length = count) {r' : InflateInput} (h' : Taken r count r') :
    At r' total rest where
  sound := h'.sound
  intact := h'.truncated.trans h.intact
  whole := by
    have := h.whole
    rw [length_append, hcount] at this
    rw [h'.consumed]
    omega
  bits := by rw [h'.bits, h.bits, drop_left' hcount]

section

variable {count value : Nat} (h : At r total (LsbBits.ofNat count value ++ rest))
    (hcount : count ≤ 57) (hvalue : value < 2 ^ count)
include h hcount hvalue

theorem At.getBits : (r.getBits count).1 = value ∧ At (r.getBits count).2 total rest := by
  obtain ⟨hread, htaken⟩ := getBits_ofNat h.sound hcount hvalue h.bits
  exact ⟨hread, h.taken (LsbBits.ofNat_length count value) htaken⟩

theorem At.field : ∃ r', r.field count = .ok (value, r') ∧ At r' total rest := by
  obtain ⟨hread, hat⟩ := h.getBits hcount hvalue
  refine ⟨_, ?_, hat⟩
  rw [InflateInput.field, hat.intact, ← hread]
  rfl

end

section Symbols

variable {lengths : List Nat} {s : Nat}

theorem lt_length_of_used (hused : lengths.getD s 0 ≠ 0) : s < lengths.length := by
  by_contra hge
  exact hused (getD_eq_default _ _ (Nat.not_lt.mp hge))

section

variable (husable : Deflate.Usable lengths) (hused : lengths.getD s 0 ≠ 0)
    (h : At r total (codeword lengths s ++ rest))
include husable hused h

theorem At.resolve : ∃ r', (tablesOf lengths).resolve r = ((lengths.getD s 0, s), r') ∧
      lengths.getD s 0 ≤ r'.realBits ∧ At (r'.consume (lengths.getD s 0)) total rest := by
  obtain ⟨hentry, hrefill, hheld⟩ :=
    resolve_codeword husable (lt_length_of_used hused) hused h.sound h.bits
  refine ⟨_, Prod.ext hentry rfl, hrefill.sound.real.symm ▸ hheld, ?_⟩
  exact h.taken (codeword_length lengths s) (hrefill.taken (consume_taken hrefill.sound hheld))

theorem At.nextSymbol :
    ∃ r', (tablesOf lengths).nextSymbol r = (some s, r') ∧ At r' total rest := by
  obtain ⟨r', hread, htaken⟩ :=
    nextSymbol_codeword husable (lt_length_of_used hused) hused h.sound h.bits
  exact ⟨r', hread, h.taken (codeword_length lengths s) htaken⟩

end

end Symbols

/-! ## The code-length code -/

theorem At.readClenLengths {clen : List Nat} (hbits : ∀ l ∈ clen, l < 8) {order lens : List Nat}
    (h : At r total (order.flatMap (fun sym => LsbBits.ofNat 3 (clen.getD sym 0)) ++ rest)) :
    ∃ r', readClenLengths order lens r
        = .ok (order.foldl (fun lens sym => lens.set sym (clen.getD sym 0)) lens, r') ∧
      At r' total rest := by
  induction order generalizing lens r with
  | nil => exact ⟨r, rfl, h⟩
  | cons sym order ih =>
    have hvalue : clen.getD sym 0 < 2 ^ 3 := by
      rcases Nat.lt_or_ge sym clen.length with hlt | hge
      · rw [getD_eq_getElem _ _ hlt]
        exact hbits _ (getElem_mem hlt)
      · rw [getD_eq_default _ _ hge]
        decide
    obtain ⟨r1, hread, h1⟩ := h.field (by decide) hvalue
    obtain ⟨r2, hloop, h2⟩ := @ih r1 (lens.set sym (clen.getD sym 0)) h1
    refine ⟨r2, ?_, h2⟩
    rw [readClenLengths, hread]
    exact hloop

theorem foldl_set_length (f : Nat → Nat) (order lens : List Nat) :
    (order.foldl (fun lens sym => lens.set sym (f sym)) lens).length = lens.length := by
  induction order generalizing lens with
  | nil => rfl
  | cons sym order ih => rw [foldl_cons, ih, length_set]

theorem foldl_set_getElem? (f : Nat → Nat) {order lens : List Nat} {i : Nat}
    (hi : i < lens.length) :
    (order.foldl (fun lens sym => lens.set sym (f sym)) lens)[i]?
      = if i ∈ order then some (f i) else lens[i]? := by
  induction order generalizing lens with
  | nil => simp
  | cons sym order ih =>
    rw [foldl_cons, ih (by simpa using hi)]
    by_cases hlater : i ∈ order
    · simp [hlater]
    · by_cases hnow : i = sym
      · subst hnow
        simp [hi]
      · simp [hnow, Ne.symm hnow]

/-- The lengths that are transmitted, and zeros for the others. -/
theorem clen_eq {clen : List Nat} (hcount : clen.length = 19) {hclen : Nat}
    (hwritten : ∀ sym ∈ codeLengthOrder.drop hclen, clen.getD sym 0 = 0) :
    (codeLengthOrder.take hclen).foldl (fun lens sym => lens.set sym (clen.getD sym 0))
      (List.replicate 19 0) = clen := by
  refine ext_getElem? fun i => ?_
  rcases Nat.lt_or_ge i 19 with hi | hi
  · rw [foldl_set_getElem? _ (by simpa using hi)]
    have hvalue : clen[i]? = some (clen.getD i 0) := by
      rw [getD_eq_getElem _ _ (hcount ▸ hi), List.getElem?_eq_getElem (hcount ▸ hi)]
    split
    · exact hvalue.symm
    · rename_i hnot
      -- every symbol stands somewhere in the order
      have hall : ∀ i < 19, i ∈ codeLengthOrder := by decide
      have hmem := hall i hi
      rw [← take_append_drop hclen codeLengthOrder, mem_append] at hmem
      rw [hvalue, hwritten i (hmem.resolve_left hnot), List.getElem?_replicate, if_pos hi]
  · rw [List.getElem?_eq_none (by rw [foldl_set_length]; simpa using hi),
      List.getElem?_eq_none (by omega)]

/-! ## The code lengths -/

theorem At.readRepeat {base count extra total' have_ : Nat}
    (h : At r total (LsbBits.ofNat count extra ++ rest)) (hcount : count ≤ 57)
    (hextra : extra < 2 ^ count) (hfit : have_ + (base + extra) ≤ total') :
    ∃ r', r.readRepeat base count total' have_ = .ok (base + extra, r') ∧ At r' total rest := by
  obtain ⟨r', hread, hat⟩ := h.field hcount hextra
  refine ⟨r', ?_, hat⟩
  rw [InflateInput.readRepeat, hread]
  simp [Except.bind, if_neg (Nat.not_lt.mpr hfit)]

theorem length_le_expand (lens : List Nat) (items : List Deflate.Item) :
    lens.length ≤ (Deflate.expand lens items).length := by
  induction items generalizing lens with
  | nil => exact le_rfl
  | cons item items ih =>
    have := ih (lens ++ item.lengths (lens.getLastD 0))
    rw [length_append] at this
    rw [Deflate.expand]
    omega

theorem lengths_pos (prev : Nat) (item : Deflate.Item) : 0 < (item.lengths prev).length := by
  cases item <;> simp [Deflate.Item.lengths]

theorem getLastD_append_replicate (lens : List Nat) {n : Nat} (hn : n ≠ 0) (v : Nat) :
    (lens ++ List.replicate n v).getLastD 0 = v := by
  obtain ⟨n, rfl⟩ := Nat.exists_eq_succ_of_ne_zero hn
  rw [replicate_succ', ← append_assoc, getLastD_concat]

/-- **The code-length loop reads the lengths that the items stand for.** -/
theorem At.readLengths {clen : List Nat} (husable : Deflate.Usable clen) {total' fuel : Nat}
    {lens : List Nat} {items : List Deflate.Item} (hlegal : Deflate.LegalItems clen lens items)
    (hcount : (Deflate.expand lens items).length = total')
    (h : At r total (items.flatMap (Deflate.Header.itemBits clen) ++ rest))
    (hfuel : total' ≤ lens.length + fuel) :
    ∃ r', readLengths (tablesOf clen) total' fuel (lens.getLastD 0) lens r
        = .ok (Deflate.expand lens items, r') ∧ At r' total rest := by
  induction items generalizing lens fuel r with
  | nil =>
    have hdone : lens.length ≥ total' := hcount.ge
    refine ⟨r, ?_, h⟩
    cases fuel with
    | zero => rfl
    | succ fuel => rw [readLengths, if_pos hdone, Deflate.expand]
  | cons item items ih =>
    obtain ⟨⟨hkind, hused, hextra⟩, hrest⟩ := hlegal
    have hle := length_le_expand (lens ++ item.lengths (lens.getLastD 0)) items
    rw [length_append] at hle
    have hpos := lengths_pos (lens.getLastD 0) item
    rw [Deflate.expand] at hcount
    have hmore : ¬ lens.length ≥ total' := by omega
    obtain ⟨fuel, rfl⟩ : ∃ n, fuel = n + 1 := ⟨fuel - 1, by omega⟩
    rw [flatMap_cons, Deflate.Header.itemBits, append_assoc, append_assoc] at h
    obtain ⟨r1, hresolve, hheld, h1⟩ := h.resolve husable hused
    have hstep := fun {r2 : InflateInput} h2 => @ih r2 fuel (lens ++ item.lengths (lens.getLastD 0))
      hrest hcount h2 (by rw [length_append]; omega)
    -- a repeat is checked against the lengths that are still to come
    have hagain : ∀ {base count extra v : Nat}, item.code.2 = (count, extra) →
        item.lengths (lens.getLastD 0) = List.replicate (base + extra) v → count ≤ 57 →
        base ≠ 0 → ∃ r2, ((r1.consume (clen.getD item.code.1 0)).readRepeat base count total'
          lens.length).bind (fun q => readLengths (tablesOf clen) total' fuel v
            (lens ++ List.replicate q.1 v) q.2)
          = .ok (Deflate.expand (lens ++ item.lengths (lens.getLastD 0)) items, r2) ∧
            At r2 total rest := by
      intro base count extra v hcode hlengths hbits hbase
      rw [hcode] at h1 hextra
      rw [hlengths] at hle hcount hstep ⊢
      rw [length_replicate, hcount] at hle
      obtain ⟨r2, hrepeat, h2⟩ := h1.readRepeat hbits hextra hle
      obtain ⟨r3, hloop, h3⟩ := hstep h2
      rw [getLastD_append_replicate _ (by omega)] at hloop
      exact ⟨r3, by rw [hrepeat]; exact hloop, h3⟩
    rw [readLengths, if_neg hmore, Deflate.expand]
    simp only [hresolve, if_neg hused, if_neg (Nat.not_lt.mpr hheld)]
    cases item with
    | length l =>
      obtain ⟨r2, hloop, h2⟩ := hstep h1
      rw [Deflate.Item.lengths, getLastD_concat] at hloop
      exact ⟨r2, (if_pos hkind).trans hloop, h2⟩
    | copyPrevious extra =>
      have hne : ¬ lens.length = 0 := fun hzero => hkind (length_eq_zero_iff.mp hzero)
      rw [if_neg hne]
      exact hagain rfl rfl (by decide) (by decide)
    | zeros extra => exact hagain rfl rfl (by decide) (by decide)
    | manyZeros extra => exact hagain rfl rfl (by decide) (by decide)

/-! ## The header -/

theorem At.readCodeLengths {header : Deflate.Header} (hvalid : header.Valid)
    (hdist : header.hdist ≤ 30) (h : At r total (header.bits ++ rest)) :
    ∃ r', r.readCodeLengths = .ok ((header.litLen, header.dist), r') ∧ At r' total rest := by
  obtain ⟨hlitLow, hlitHigh⟩ := hvalid.hlit
  obtain ⟨hdistLow, -⟩ := hvalid.hdist
  obtain ⟨hclenLow, hclenHigh⟩ := hvalid.hclen
  simp only [Deflate.Header.bits, append_assoc] at h
  obtain ⟨r1, hread1, h1⟩ := h.field (by decide) (by omega)
  obtain ⟨r2, hread2, h2⟩ := h1.field (by decide) (by omega)
  obtain ⟨r3, hread3, h3⟩ := h2.field (by decide) (by omega)
  obtain ⟨r4, hclen, h4⟩ := @At.readClenLengths r3 total _ header.clen hvalid.clenBits _
    (List.replicate 19 0) h3
  rw [show Deflate.codeLengthOrder = codeLengthOrder from rfl,
    clen_eq hvalid.clenCount hvalid.clenWritten] at hclen
  have husable := hvalid.clenCode.usable
  have hbuild := @build_usable header.clen husable
    (by rw [hvalid.clenCount]; decide) false fun _ => hvalid.clenCode.2
  obtain ⟨r5, hlengths, h5⟩ := h4.readLengths husable hvalid.items hvalid.count
    (show _ ≤ ([] : List Nat).length + (header.hlit + header.hdist) by simp)
  refine ⟨r5, ?_, h5⟩
  have hlit : header.hlit - 257 + 257 = header.hlit := Nat.sub_add_cancel hlitLow
  have hdist' : header.hdist - 1 + 1 = header.hdist := Nat.sub_add_cancel hdistLow
  have hclen' : header.hclen - 4 + 4 = header.hclen := Nat.sub_add_cancel hclenLow
  have hsmall : ¬ (header.hlit > 286 ∨ header.hdist > 30) := by omega
  simp only [getLastD_nil] at hlengths
  simp only [InflateInput.readCodeLengths, hread1, hread2, hread3, Except.bind, hlit, hdist',
    hclen', if_neg hsmall, hclen, hbuild, hlengths]
  rfl

theorem count_usedLengths {lens : List Nat} {l : Nat} (hl : l ≠ 0) :
    (Deflate.usedLengths lens).count l = lens.count l :=
  count_filter (by simpa using hl)

/-- The codes of the format pass the checks. -/
theorem acceptTables_valid {litLengths distLengths : List Nat}
    (hlit : Deflate.LitLenCode litLengths) (hdist : Deflate.DistCode distLengths)
    (hlitLow : 257 ≤ litLengths.length) (hlitHigh : litLengths.length ≤ 288)
    (hdistHigh : distLengths.length ≤ 288) :
    acceptTables litLengths distLengths
      = some (tablesOf litLengths, tablesOf distLengths) := by
  rw [acceptTables, build_usable hlit.usable hlitHigh (by simp),
    build_usable hdist.usable hdistHigh (by simp)]
  simp only [Option.bind_some]
  rw [if_neg, if_neg]
  · rintro ⟨hincomplete, hone, hsome⟩
    rcases hdist with hcomplete | hnone | hsingle
    · exact hincomplete (decide_eq_true hcomplete.2)
    · refine hsome fun l hl => ?_
      have hpos : l ≠ 0 := by
        rintro rfl
        simp at hl
      rw [tablesOf_counts, ← count_usedLengths hpos, hnone, count_nil]
    · refine hone ?_
      rw [tablesOf_counts, ← count_usedLengths (by decide), hsingle]
      rfl
  · rintro ⟨hincomplete, hbad⟩
    rcases hlit with hcomplete | ⟨hsingle, hend⟩
    · exact hincomplete (decide_eq_true hcomplete.2)
    · rcases hbad with hone | hshort | hnoEnd | ⟨l, hl, hlong⟩
      · refine hone ?_
        rw [tablesOf_counts, ← count_usedLengths (by decide), hsingle]
        rfl
      · omega
      · exact hnoEnd hend
      · have hl2 : 2 ≤ l := by
          rw [mem_range'_1] at hl
          exact hl.1
        refine hlong ?_
        rw [tablesOf_counts, ← count_usedLengths (by omega), hsingle,
          count_singleton, if_neg (by simp; omega)]

/-- **A valid dynamic header gives the tables of its codes.** -/
theorem At.readDynamicTables {header : Deflate.Header} (hvalid : header.Valid)
    (hdist : header.hdist ≤ 30) (h : At r total (header.bits ++ rest)) :
    ∃ r', r.readDynamicTables
        = .ok ((tablesOf header.litLen, tablesOf header.dist), r') ∧
      At r' total rest := by
  obtain ⟨r', hread, hat⟩ := h.readCodeLengths hvalid hdist
  have hcount := hvalid.count
  obtain ⟨hlitLow, hlitHigh⟩ := hvalid.hlit
  have haccept := acceptTables_valid hvalid.litLenCode hvalid.distCode
    (by rw [Deflate.Header.litLen, length_take]; omega)
    (by rw [Deflate.Header.litLen, length_take]; omega)
    (by rw [Deflate.Header.dist, length_drop]; omega)
  refine ⟨r', ?_, hat⟩
  simp [InflateInput.readDynamicTables, hread, Except.bind, haccept]

end InflateInput

end OpenRar.Compress
