import OpenRar.Compress.BlockWriter

/-!
# Reading a written block

The decoder reads back what the block writer puts in front of the tokens: the
block header and the description of the code tables.
-/

namespace OpenRar.Compress

open BitString CanonicalCode BlockWriter List Option HuffmanBuilder

namespace Decompressor50

/-! ## The lengths of the length code -/

theorem take_run {v : Nat} {rest : List Nat} {n : Nat}
    (h : n ≤ 1 + (rest.takeWhile (· == v)).length) :
    (v :: rest).take n = List.replicate n v := by
  cases n with
  | zero => rfl
  | succ n =>
    have hextends : rest.take n = (rest.takeWhile (· == v)).take n := by
      conv_lhs => rw [← takeWhile_append_dropWhile (p := (· == v)) (l := rest)]
      rw [take_append_of_le_length (by omega)]
    rw [take_succ_cons, replicate_succ, hextends, List.cons.injEq]
    refine ⟨rfl, eq_replicate_iff.mpr ⟨by rw [length_take]; omega, ?_⟩⟩
    intro x hx
    have hbeq := mem_takeWhile_imp (mem_of_mem_take hx)
    exact eq_of_beq hbeq

theorem run_le_length (v : Nat) (rest : List Nat) :
    1 + (rest.takeWhile (· == v)).length ≤ (v :: rest).length := by
  have hle := (takeWhile_sublist (· == v) (l := rest)).length_le
  rw [length_cons]
  omega

variable {table xs : List Nat} {freq : Frequencies} {dataSize bitSize : Nat}

theorem readBitLengths_done (fuel : Nat) (reader : BitReader)
    (h : 20 ≤ table.length) : readBitLengths fuel table reader = some (table, reader) := by
  cases fuel with
  | zero => rfl
  | succ fuel => rw [readBitLengths, if_pos h]

theorem readBitLengths_bits {fuelE fuelD : Nat} (rest : List Bool)
    (consumed : Nat) (truncated : Bool) (hbits : ∀ l ∈ xs, l ≤ 15)
    (hsize : table.length + xs.length = 20) (hfuelE : xs.length ≤ fuelE)
    (hfuelD : xs.length ≤ fuelD) :
    readBitLengths fuelD table ⟨emitBitLengths fuelE xs ++ rest, consumed, truncated⟩
      = some (table ++ xs,
          ⟨rest, consumed + (emitBitLengths fuelE xs).length, truncated⟩) := by
  induction fuelE generalizing fuelD xs table consumed with
  | zero =>
    obtain rfl := length_eq_zero_iff.mp (Nat.le_zero.mp hfuelE)
    rw [readBitLengths_done _ _ (by simpa using hsize.ge), append_nil]
    rfl
  | succ fuelE ih =>
    cases xs with
    | nil =>
      rw [readBitLengths_done _ _ (by simpa using hsize.ge), append_nil]
      rfl
    | cons l xs =>
      have hl := hbits l mem_cons_self
      have htail : ∀ l ∈ xs, l ≤ 15 := fun x hx => hbits x (mem_cons_of_mem _ hx)
      simp only [length_cons] at hsize hfuelE hfuelD
      obtain ⟨fuel, rfl⟩ : ∃ fuel, fuelD = fuel + 1 := ⟨fuelD - 1, by omega⟩
      have hstep : ∀ c, readBitLengths fuel (table ++ [l])
          ⟨emitBitLengths fuelE xs ++ rest, c, truncated⟩
          = some (table ++ l :: xs, ⟨rest, c + (emitBitLengths fuelE xs).length, truncated⟩) := by
        intro c
        rw [ih c htail (by simp only [length_append, length_singleton]; omega)
          (by omega) (by omega), append_assoc, singleton_append]
      rw [readBitLengths, if_neg (by omega), emitBitLengths]
      by_cases hfifteen : l = 15
      · -- an escaped fifteen
        simp only [if_pos hfifteen, putBits, append_assoc]
        rw [readField_ofNat _ _ _ (by decide) (by decide)]
        simp only [bind_eq_bind, bind_some]
        rw [readField_ofNat _ _ _ (by decide) (by decide)]
        simp only [bind_some, if_true]
        rw [hfifteen] at hstep
        rw [hstep]
        simp only [hfifteen, length_append, ofNat_length, Nat.add_assoc]
      by_cases hzero : l = 0
      · have hrun := run_le_length 0 xs
        simp only [length_cons] at hrun
        simp only
        split_ifs with hlong
        · -- a run of zeros
          simp only [putBits, append_assoc]
          generalize hcount : min (1 + (xs.takeWhile (· == 0)).length) 17 = run at hlong ⊢
          have hfield : run - 2 < 2 ^ 4 := by omega
          rw [readField_ofNat _ _ _ (by decide) (by decide)]
          simp only [bind_eq_bind, bind_some, if_true]
          rw [readField_ofNat _ _ _ (by decide) hfield]
          simp only [bind_some, if_neg (show ¬ run - 2 = 0 by omega),
            Nat.sub_add_cancel (show 2 ≤ run by omega)]
          have htake : (l :: xs).take run = List.replicate run 0 := by
            rw [hzero]
            exact take_run (by omega)
          have hlen : (table ++ List.replicate run 0).length ≤ 20 := by
            simp only [length_append, length_replicate]
            omega
          rw [take_of_length_le hlen, ih _
            (fun x hx => hbits x (mem_of_mem_drop hx))
            (by simp only [length_append, length_replicate, length_drop,
              length_cons]; omega)
            (by simp only [length_drop, length_cons]; omega)
            (by simp only [length_drop, length_cons]; omega),
            append_assoc, ← htake, take_append_drop]
          simp only [length_append, ofNat_length, Nat.add_assoc]
        · simp only [putBits, append_assoc]
          rw [readField_ofNat _ _ _ (by decide) (by decide)]
          simp only [bind_eq_bind, bind_some, if_neg (show ¬ (0 : Nat) = 15 by decide)]
          rw [hzero] at hstep
          rw [hstep, hzero]
          simp [Nat.add_assoc]
      · simp only [if_neg hfifteen, if_neg hzero, putBits, append_assoc]
        rw [readField_ofNat _ _ _ (by decide) (by omega)]
        simp only [bind_eq_bind, bind_some, if_neg hfifteen]
        rw [hstep]
        simp [Nat.add_assoc]

/-! ## The code lengths -/

theorem readCodeLengths_done {bd : HuffmanDecoder} {size : Nat} (fuel : Nat)
    (reader : BitReader) (h : size ≤ table.length) :
    readCodeLengths bd size fuel table reader = some (table, reader) := by
  cases fuel with
  | zero => rfl
  | succ fuel => rw [readCodeLengths, if_pos h]

/-- The bits of an item. -/
def itemBits (lenBd : List Nat) (item : TableItem) : List Bool :=
  codeword lenBd item.sym ++ ofNat item.bits item.extra

theorem runItem_sym (short long chunk : Nat) :
    (runItem short long chunk).sym = if chunk ≥ 11 then long else short := by
  rw [runItem]
  split <;> rfl

/-- The repeat count behind a run symbol is that of the item. -/
theorem readRunLength_bits {short long chunk : Nat} (hne : short ≠ long) (hmin : 3 ≤ chunk)
    (hmax : chunk ≤ 138) (rest : List Bool) (consumed : Nat) (truncated : Bool) :
    readRunLength ((runItem short long chunk).sym ≠ short)
        ⟨ofNat (runItem short long chunk).bits (runItem short long chunk).extra ++ rest, consumed,
          truncated⟩
      = some (chunk, ⟨rest, consumed + (runItem short long chunk).bits, truncated⟩) := by
  unfold runItem readRunLength
  by_cases hlong : chunk ≥ 11
  · simp only [if_pos hlong, ne_eq, hne.symm, not_false_eq_true, decide_true, if_true]
    rw [readField_ofNat _ _ _ (by decide) (by omega)]
    simp [Nat.sub_add_cancel hlong]
  · simp only [if_neg hlong, ne_eq, not_true_eq_false, decide_false, Bool.false_eq_true, if_false]
    rw [readField_ofNat _ _ _ (by decide) (by omega)]
    simp [Nat.sub_add_cancel hmin]

section Items

variable {lenBd : List Nat} {bd : HuffmanDecoder}

variable {item : TableItem} {table xs : List Nat} {v n size : Nat}

theorem readItem (hbuild : HuffmanDecoder.build lenBd = some bd) (hsize : lenBd.length = 20)
    (hsym : item.sym < 20) (hused : lenBd.getD item.sym 0 ≠ 0)
    (rest : List Bool) (consumed : Nat) :
    bd.decode ⟨itemBits lenBd item ++ rest, consumed, false⟩
        = (item.sym, ⟨ofNat item.bits item.extra ++ rest, consumed + lenBd.getD item.sym 0, false⟩)
      ∧ ¬ (BitReader.mk (itemBits lenBd item ++ rest) consumed false).bitsRemaining < 1 := by
  constructor
  · rw [itemBits, append_assoc]
    exact HuffmanDecoder.decode_codeword hbuild (by rw [hsize]; exact hsym) hused _ _ _
  · rw [BitReader.bitsRemaining, itemBits, length_append, length_append, codeword_length]
    omega

theorem runChunk_bounds {r : Nat} (h : 3 ≤ r) :
    3 ≤ runChunk r ∧ runChunk r ≤ 138 ∧ runChunk r ≤ r := by
  unfold runChunk
  split <;> omega

/-- An item that stands for `n` entries `v` behind a table. -/
inductive Stands (table : List Nat) : TableItem → Nat → Nat → Prop
  | single {v : Nat} (hv : v < 16) : Stands table ⟨v, 0, 0⟩ v 1
  | again {v n : Nat} (hlast : table.getLast? = some v) (hmin : 3 ≤ n) (hmax : n ≤ 138) :
      Stands table (runItem 16 17 n) v n
  | zeros {n : Nat} (hmin : 3 ≤ n) (hmax : n ≤ 138) : Stands table (runItem 18 19 n) 0 n

theorem itemBits_length (lenBd : List Nat) (item : TableItem) :
    (itemBits lenBd item).length = lenBd.getD item.sym 0 + item.bits := by
  rw [itemBits, length_append, codeword_length, ofNat_length]

theorem Stands.sym_lt (h : Stands table item v n) : item.sym < 20 := by
  cases h with
  | single hv => exact Nat.lt_of_lt_of_le hv (by decide)
  | again _ _ _ =>
    rw [runItem_sym]
    split <;> decide
  | zeros _ _ =>
    rw [runItem_sym]
    split <;> decide

/-- The decoder appends what an item stands for. -/
theorem readCodeLengths_item (hbuild : HuffmanDecoder.build lenBd = some bd)
    (hbd : lenBd.length = 20)
    (h : Stands table item v n) (hused : lenBd.getD item.sym 0 ≠ 0) (hopen : table.length < size)
    (fuel : Nat) (rest : List Bool) (consumed : Nat) :
    readCodeLengths bd size (fuel + 1) table ⟨itemBits lenBd item ++ rest, consumed, false⟩
      = readCodeLengths bd size fuel ((table ++ List.replicate n v).take size)
          ⟨rest, consumed + (itemBits lenBd item).length, false⟩ := by
  obtain ⟨hread, hmore⟩ := readItem hbuild hbd h.sym_lt hused rest consumed
  rw [readCodeLengths, if_neg (Nat.not_le.mpr hopen), if_neg hmore, itemBits_length]
  simp only [hread]
  cases h with
  | single hv =>
    simp only [if_pos hv, ofNat, nil_append, replicate_one, Nat.add_zero]
    rw [take_of_length_le (by simpa using hopen)]
  | @again v n hlast hmin hmax =>
    have hrange : ¬ (runItem 16 17 n).sym < 16 ∧ (runItem 16 17 n).sym < 18 := by
      rw [runItem_sym]
      split <;> decide
    have hne : ¬ table.length = 0 := by
      intro hzero
      rw [length_eq_zero_iff.mp hzero] at hlast
      cases hlast
    have hprevious : table.getLastD 0 = v := by
      rw [getLastD_eq_getLast?, hlast]
      rfl
    simp only [if_neg hrange.1, if_pos hrange.2]
    rw [readRunLength_bits (by decide) hmin hmax]
    simp only [bind_eq_bind, bind_some, if_neg hne, hprevious, Nat.add_assoc]
  | @zeros n hmin hmax =>
    have hrange : ¬ (runItem 18 19 n).sym < 16 ∧ ¬ (runItem 18 19 n).sym < 18 := by
      rw [runItem_sym]
      split <;> decide
    simp only [if_neg hrange.1, if_neg hrange.2]
    rw [readRunLength_bits (by decide) hmin hmax]
    simp [Nat.add_assoc]

/-- The writer takes the entries off in runs that its items stand for. -/
theorem makeTableItems_cons (fuel : Nat) (table : List Nat) (hv : v ≤ 15) :
    ∃ item n, makeTableItems (fuel + 1) table.getLast? (v :: xs)
        = item :: makeTableItems fuel (some v) ((v :: xs).drop n) ∧
      1 ≤ n ∧ n ≤ (v :: xs).length ∧ (v :: xs).take n = List.replicate n v ∧
      Stands table item v n := by
  have hlength := run_le_length v xs
  have hsingle : ∃ item n, (⟨v, 0, 0⟩ : TableItem) :: makeTableItems fuel (some v) xs
        = item :: makeTableItems fuel (some v) ((v :: xs).drop n) ∧
      1 ≤ n ∧ n ≤ (v :: xs).length ∧ (v :: xs).take n = List.replicate n v ∧
      Stands table item v n :=
    ⟨⟨v, 0, 0⟩, 1, rfl, le_rfl, by simp, rfl, .single (by omega)⟩
  rw [makeTableItems]
  split_ifs with hzero hlong hagain
  · obtain ⟨hmin, hmax, hle⟩ := runChunk_bounds hlong
    subst hzero
    exact ⟨_, _, rfl, by omega, by omega, take_run hle, .zeros hmin hmax⟩
  · exact hsingle
  · obtain ⟨hmin, hmax, hle⟩ := runChunk_bounds hagain.2
    exact ⟨_, _, rfl, by omega, by omega, take_run hle, .again hagain.1 hmin hmax⟩
  · exact hsingle

/-- **The decoder reads the code lengths that the items describe.** -/
theorem readCodeLengths_bits (hbuild : HuffmanDecoder.build lenBd = some bd)
    (hbd : lenBd.length = 20) {fuelE fuelD : Nat} (rest : List Bool)
    (consumed : Nat) (hbits : ∀ l ∈ xs, l ≤ 15) (hsize : table.length + xs.length = size)
    (hfuelE : xs.length ≤ fuelE) (hfuelD : xs.length ≤ fuelD)
    (hused : ∀ item ∈ makeTableItems fuelE table.getLast? xs, lenBd.getD item.sym 0 ≠ 0) :
    readCodeLengths bd size fuelD table
        ⟨(makeTableItems fuelE table.getLast? xs).flatMap (itemBits lenBd) ++ rest, consumed, false⟩
      = some (table ++ xs, ⟨rest, consumed
          + ((makeTableItems fuelE table.getLast? xs).flatMap (itemBits lenBd)).length, false⟩) := by
  induction fuelE generalizing fuelD xs table consumed with
  | zero =>
    obtain rfl := length_eq_zero_iff.mp (Nat.le_zero.mp hfuelE)
    rw [readCodeLengths_done _ _ (by simpa using hsize.ge), append_nil]
    rfl
  | succ fuelE ih =>
    cases xs with
    | nil =>
      rw [readCodeLengths_done _ _ (by simpa using hsize.ge), append_nil]
      rfl
    | cons v xs =>
      obtain ⟨item, n, hitems, hn, hle, htake, hstands⟩ :=
        @makeTableItems_cons xs v fuelE table (hbits v mem_cons_self)
      have hlast : (table ++ List.replicate n v).getLast? = some v := by
        obtain ⟨k, rfl⟩ : ∃ k, n = k + 1 := ⟨n - 1, by omega⟩
        rw [replicate_succ', ← append_assoc, List.getLast?_concat]
      have hwhole : (table ++ List.replicate n v).take size = table ++ List.replicate n v :=
        take_of_length_le (by
          simp only [length_append, length_replicate]
          omega)
      obtain ⟨fuel, rfl⟩ : ∃ fuel, fuelD = fuel + 1 :=
        ⟨fuelD - 1, by rw [length_cons] at hfuelD; omega⟩
      rw [hitems] at hused ⊢
      rw [length_cons] at hfuelE hfuelD
      have hstep := @ih (table ++ List.replicate n v) ((v :: xs).drop n) fuel
        (consumed + (itemBits lenBd item).length)
        (fun x hx => hbits x (mem_of_mem_drop hx))
        (by
          simp only [length_append, length_replicate, length_drop]
          omega)
        (by rw [length_drop, length_cons]; omega)
        (by rw [length_drop, length_cons]; omega)
        (by
          rw [hlast]
          exact fun item hitem => hused item (mem_cons_of_mem _ hitem))
      rw [hlast] at hstep
      rw [flatMap_cons, append_assoc, readCodeLengths_item hbuild hbd hstands
        (hused item mem_cons_self) (by rw [length_cons] at hsize; omega), hwhole, hstep,
        append_assoc, ← htake, take_append_drop, length_append, Nat.add_assoc]

end Items

/-! ## The description -/

theorem makeTableItems_sym_lt (fuel : Nat) (table : List Nat) (hbits : ∀ l ∈ xs, l ≤ 15) :
    ∀ item ∈ makeTableItems fuel table.getLast? xs, item.sym < 20 := by
  induction fuel generalizing table xs with
  | zero =>
    intro item hitem
    cases hitem
  | succ fuel ih =>
    cases xs with
    | nil =>
      intro item hitem
      cases hitem
    | cons v xs =>
      obtain ⟨first, n, hitems, -, -, -, hstands⟩ :=
        @makeTableItems_cons xs v fuel table (hbits v mem_cons_self)
      intro item hitem
      rw [hitems, mem_cons] at hitem
      rcases hitem with rfl | hitem
      · exact hstands.sym_lt
      · exact ih [v] (fun x hx => hbits x (mem_of_mem_drop hx)) item hitem

theorem itemFreq_ne_zero {items : List TableItem} {item : TableItem} (h : item ∈ items)
    (hsym : item.sym < 20) : (itemFreq items).getD item.sym 0 ≠ 0 := by
  rw [itemFreq, getD_eq_getElem _ _ (by simpa using hsym), getElem_map,
    getElem_range]
  exact (count_pos_iff.mpr (mem_map_of_mem h)).ne'

/-- Lengths that the builder makes are accepted by the decoder. -/
theorem exists_build {freq : List Nat} (hsize : freq.length ≤ 306) :
    ∃ decoder, HuffmanDecoder.build (buildLengths freq 15) = some decoder := by
  have hgood := buildLengths_good (m := 15) (by decide)
    (hsize.trans (by decide))
  exact HuffmanDecoder.build_isSome
    ⟨by rw [hgood.count]; exact hsize, hgood.bits, hgood.fits⟩

/-- **The description of the code tables is read back.** -/
theorem readDescription_bits (hsize : table.length = 430)
    (hbits : ∀ l ∈ table, l ≤ 15) (rest : List Bool) (consumed : Nat) :
    readDescription false ⟨emitTable table ++ rest, consumed, false⟩
      = some (table, ⟨rest, consumed + (emitTable table).length, false⟩) := by
  set items := makeTableItems table.length none table
  set lenBd := buildLengths (itemFreq items) 15 with hlenBd
  have hfreq : (itemFreq items).length = 20 := by simp [itemFreq]
  have hgood : GoodLengths (itemFreq items) 15 _ :=
    buildLengths_good (by decide) (by rw [hfreq]; decide)
  have hcount : lenBd.length = 20 := hgood.count.trans hfreq
  obtain ⟨bd, hbuild⟩ := exists_build (show (itemFreq items).length ≤ 306 by rw [hfreq]; decide)
  have hbitsOf : items.flatMap (fun item => putCode lenBd (buildCodes lenBd) item.sym
      ++ putBits item.extra item.bits) = items.flatMap (itemBits lenBd) := by
    simp only [putCode_eq]
    rfl
  have hemit : emitTable table = emitBitLengths 20 lenBd ++ items.flatMap (itemBits lenBd) := by
    rw [← hbitsOf]
    rfl
  have hlengths := @readBitLengths_bits [] lenBd 20 20 (items.flatMap (itemBits lenBd) ++ rest)
    consumed false hgood.bits (by rw [hcount]; rfl) hcount.le hcount.le
  have hcodes := @readCodeLengths_bits lenBd bd [] table 430 hbuild hcount table.length 430 rest
    (consumed + (emitBitLengths 20 lenBd).length) hbits (by rw [hsize]; rfl) le_rfl hsize.le
    (fun item hitem => hgood.used _ (itemFreq_ne_zero hitem
      (makeTableItems_sym_lt table.length [] hbits item hitem)))
  rw [hemit, append_assoc, readDescription, hlengths]
  simp only [bind_eq_bind, bind_some, nil_append]
  rw [hbuild]
  simp only [length_append, ← Nat.add_assoc]
  exact hcodes

/-- The tables of a frequency record. -/
structure Sized (freq : Frequencies) : Prop where
  ld : freq.ld.length = 306
  dd : freq.dd.length = 80
  ldd : freq.ldd.length = 16
  rd : freq.rd.length = 44

theorem buildTables_tableLengths (h : Sized freq) :
    ∃ tables, buildTables false (tableLengths (makeTables freq)) = some tables ∧
      TablesOf (makeTables freq) tables := by
  have hdd : (freq.dd.take 64).length = 64 := by rw [length_take, h.dd]; rfl
  have hgood : ∀ fs : List Nat, fs.length ≤ 306 →
      (buildLengths fs 15).length = fs.length := fun fs hfs =>
    (buildLengths_good (m := 15) (by decide) (hfs.trans (by decide))).count
  have hld := (hgood freq.ld h.ld.le).trans h.ld
  have hddLen := (hgood (freq.dd.take 64) (by omega)).trans hdd
  have hldd := (hgood freq.ldd (by rw [h.ldd]; decide)).trans h.ldd
  have hrd := (hgood freq.rd (by rw [h.rd]; decide)).trans h.rd
  obtain ⟨ld, hbuildLd⟩ := exists_build h.ld.le
  obtain ⟨dd, hbuildDd⟩ := exists_build (show (freq.dd.take 64).length ≤ 306 by omega)
  obtain ⟨ldd, hbuildLdd⟩ := exists_build (show freq.ldd.length ≤ 306 by rw [h.ldd]; decide)
  obtain ⟨rd, hbuildRd⟩ := exists_build (show freq.rd.length ≤ 306 by rw [h.rd]; decide)
  refine ⟨⟨ld, dd, ldd, rd⟩, ?_, hbuildLd, hbuildDd, hbuildLdd, hbuildRd, hld, hddLen, hldd, hrd⟩
  have hdrop1 : (tableLengths (makeTables freq)).drop 306 = (makeTables freq).dd
      ++ ((makeTables freq).ldd ++ (makeTables freq).rd) := drop_left' hld
  have hdrop2 : (tableLengths (makeTables freq)).drop (306 + 64)
      = (makeTables freq).ldd ++ (makeTables freq).rd := by
    rw [← drop_drop, hdrop1]
    exact drop_left' hddLen
  have hdrop3 : (tableLengths (makeTables freq)).drop (306 + 64 + 16) = (makeTables freq).rd := by
    rw [← drop_drop, hdrop2]
    exact drop_left' hldd
  have htake1 : (tableLengths (makeTables freq)).take 306 = (makeTables freq).ld :=
    take_left' hld
  have htake2 : ((makeTables freq).dd ++ ((makeTables freq).ldd ++ (makeTables freq).rd)).take 64
      = (makeTables freq).dd := take_left' hddLen
  have htake3 : ((makeTables freq).ldd ++ (makeTables freq).rd).take 16
      = (makeTables freq).ldd := take_left' hldd
  have htake4 : (makeTables freq).rd.take 44 = (makeTables freq).rd := take_of_length_le hrd.le
  unfold buildTables
  simp only [distanceCodes, Bool.false_eq_true, if_false, hdrop1, hdrop2, hdrop3, htake1, htake2,
    htake3, htake4]
  simp [makeTables, hbuildLd, hbuildDd, hbuildLdd, hbuildRd]

theorem tableLengths_good (h : Sized freq) : (tableLengths (makeTables freq)).length = 430 ∧
      ∀ l ∈ tableLengths (makeTables freq), l ≤ 15 := by
  have hgood : ∀ fs : List Nat, fs.length ≤ 306 →
      GoodLengths fs 15 (buildLengths fs 15) := fun fs hfs =>
    buildLengths_good (by decide) (hfs.trans (by decide))
  have hld := hgood freq.ld h.ld.le
  have hdd := hgood (freq.dd.take 64) (by rw [length_take, h.dd]; decide)
  have hldd := hgood freq.ldd (by rw [h.ldd]; decide)
  have hrd := hgood freq.rd (by rw [h.rd]; decide)
  constructor
  · simp only [tableLengths, makeTables, length_append, hld.count, hdd.count, hldd.count,
      hrd.count, length_take, h.ld, h.dd, h.ldd, h.rd]
    decide
  · intro l hl
    simp only [tableLengths, mem_append] at hl
    rcases hl with hl | hl | hl | hl
    · exact hld.bits l hl
    · exact hdd.bits l hl
    · exact hldd.bits l hl
    · exact hrd.bits l hl


/-! ## The header -/

/-- Number of bytes of the size field. -/
def sizeBytes (dataSize : Nat) : Nat :=
  if dataSize < 0x100 then 1 else if dataSize < 0x10000 then 2 else 3

/-- The flag byte of a block. -/
def blockFlags (dataSize bitSize : Nat) (lastBlock : Bool) : Nat :=
  0x80 ||| (if lastBlock then 0x40 else 0) ||| (sizeBytes dataSize - 1) <<< 3 ||| (bitSize - 1)

theorem sizeBytes_cases (dataSize : Nat) :
    sizeBytes dataSize = 1 ∨ sizeBytes dataSize = 2 ∨ sizeBytes dataSize = 3 := by
  unfold sizeBytes
  split_ifs <;> simp

theorem sizeBytes_lt (h : dataSize < 0x1000000) : dataSize < 256 ^ sizeBytes dataSize := by
  unfold sizeBytes
  split_ifs <;> omega

theorem flags_fields : ∀ count ∈ [1, 2, 3], ∀ bitSize ∈ List.range' 1 8, ∀ lastBlock : Bool,
    let flags := 0x80 ||| (if lastBlock then 0x40 else 0) ||| (count - 1) <<< 3 ||| (bitSize - 1)
    flags < 256 ∧ flags / 8 % 4 + 1 = count ∧ flags % 8 + 1 = bitSize ∧
      flags.testBit 6 = lastBlock ∧ flags.testBit 7 = true := by
  decide

theorem blockFlags_fields (dataSize : Nat) (hmin : 1 ≤ bitSize)
    (hmax : bitSize ≤ 8) (lastBlock : Bool) :
    blockFlags dataSize bitSize lastBlock < 256 ∧
      blockFlags dataSize bitSize lastBlock / 8 % 4 + 1 = sizeBytes dataSize ∧
      blockFlags dataSize bitSize lastBlock % 8 + 1 = bitSize ∧
      (blockFlags dataSize bitSize lastBlock).testBit 6 = lastBlock ∧
      (blockFlags dataSize bitSize lastBlock).testBit 7 = true :=
  flags_fields (sizeBytes dataSize) (by simpa using sizeBytes_cases dataSize) bitSize
    (mem_range'_1.mpr ⟨hmin, by omega⟩) lastBlock

theorem ofBytes_size (dataSize count : Nat) (hcount : count = 1 ∨ count = 2 ∨ count = 3) :
    ofBytes (([dataSize, dataSize >>> 8, dataSize >>> 16].take count).map UInt8.ofNat)
      = byteFieldBits count dataSize := by
  have hbyte : ∀ n : Nat, ofNat 8 (UInt8.ofNat n).toNat = ofNat 8 (n % 256) := by
    intro n
    rw [UInt8.toNat_ofNat']
  rcases hcount with rfl | rfl | rfl <;>
    simp [ofBytes_cons, byteFieldBits, Nat.shiftRight_eq_div_pow, Nat.div_div_eq_div_mul]

theorem ofBytes_blockHeader (dataSize : Nat) (hmin : 1 ≤ bitSize)
    (hmax : bitSize ≤ 8) (lastBlock : Bool) :
    ofBytes (blockHeader dataSize bitSize lastBlock)
      = ofNat 8 (blockFlags dataSize bitSize lastBlock)
        ++ (ofNat 8 ((0x5A ^^^ blockFlags dataSize bitSize lastBlock ^^^ dataSize
          ^^^ dataSize >>> 8 ^^^ dataSize >>> 16) % 256)
        ++ byteFieldBits (sizeBytes dataSize) dataSize) := by
  have hflags := (blockFlags_fields dataSize hmin hmax lastBlock).1
  have hheader : blockHeader dataSize bitSize lastBlock
      = UInt8.ofNat (blockFlags dataSize bitSize lastBlock)
        :: UInt8.ofNat ((0x5A ^^^ blockFlags dataSize bitSize lastBlock ^^^ dataSize
          ^^^ dataSize >>> 8 ^^^ dataSize >>> 16) % 256)
        :: ([dataSize, dataSize >>> 8, dataSize >>> 16].take (sizeBytes dataSize)).map UInt8.ofNat :=
    rfl
  rw [hheader, ofBytes_cons, ofBytes_cons, ofBytes_size _ _ (sizeBytes_cases dataSize),
    UInt8.toNat_ofNat_of_lt' hflags, UInt8.toNat_ofNat_of_lt' (Nat.mod_lt _ (by decide))]

theorem alignByte_padding (rest : List Bool) (consumed : Nat) :
    BitReader.alignByte ⟨List.replicate (padding consumed) false ++ rest, consumed, false⟩
      = ⟨rest, consumed + padding consumed, false⟩ := by
  unfold BitReader.alignByte padding
  by_cases haligned : consumed % 8 = 0
  · simp [haligned]
  · rw [if_pos haligned, show (8 - consumed % 8) % 8 = 8 - consumed % 8 by omega]
    exact BitReader.consumeBits_append _ _ _ _ (by rw [length_replicate])

/-- The header of a written block. -/
def headerOf (dataSize bitSize consumed : Nat) (lastBlock : Bool) : BlockHeader where
  blockSize := dataSize
  blockBitSize := bitSize
  blockStart := (consumed + 16 + 8 * sizeBytes dataSize) / 8
  headerSize := 2 + sizeBytes dataSize
  lastBlockInFile := lastBlock
  tablePresent := true

theorem readBlockHeader_bits (hsize : dataSize < 0x1000000)
    (hmin : 1 ≤ bitSize) (hmax : bitSize ≤ 8) (lastBlock : Bool) (rest : List Bool)
    (consumed : Nat) :
    readBlockHeader ⟨List.replicate (padding consumed) false
        ++ (ofBytes (blockHeader dataSize bitSize lastBlock) ++ rest), consumed, false⟩
      = some (headerOf dataSize bitSize (consumed + padding consumed) lastBlock,
          ⟨rest, consumed + padding consumed + 16 + 8 * sizeBytes dataSize, false⟩) := by
  obtain ⟨hflags, hcount, hbits, hlast, htable⟩ := blockFlags_fields dataSize hmin hmax lastBlock
  have hthree := sizeBytes_cases dataSize
  rw [readBlockHeader, alignByte_padding, ofBytes_blockHeader dataSize hmin hmax lastBlock]
  rw [if_neg (by
    simp only [BitReader.bitsRemaining, length_append, ofNat_length]
    omega)]
  simp only [append_assoc]
  rw [readField_ofNat _ _ _ (by decide) hflags]
  simp only [bind_eq_bind, bind_some]
  rw [hcount, if_neg (by omega), readField_ofNat _ _ _ (by decide)
    (show _ % 256 < 2 ^ 8 from Nat.mod_lt _ (by decide))]
  simp only [bind_some]
  rw [readByteField_bits _ _ _ (sizeBytes_lt hsize)]
  simp [Nat.shiftRight_eq_div_pow, hbits, hlast, htable, headerOf, BitReader.bytePos]

/-! ## A block -/

theorem emitTable_length_pos : 0 < (emitTable table).length := by
  set lenBd := buildLengths (itemFreq (makeTableItems table.length none table)) 15
  have hfreq : (itemFreq (makeTableItems table.length none table)).length = 20 := by
    simp [itemFreq]
  have hcount : lenBd.length = 20 :=
    (buildLengths_good (m := 15) (by decide)
      (by rw [hfreq]; decide)).count.trans hfreq
  have hpos : 0 < (emitBitLengths 20 lenBd).length := by
    cases hcase : lenBd with
    | nil => rw [hcase] at hcount; cases hcount
    | cons l rest =>
      rw [emitBitLengths]
      dsimp only
      split_ifs <;> simp [putBits]
  rw [emitTable, length_append]
  exact Nat.lt_of_lt_of_le hpos (Nat.le_add_right _ _)

/-- A block as the decoder finds it: its header, and the tables of its tokens. -/
structure BlockRead (d : Decompressor50) (lens : CodeLengths) (lastBlock : Bool)
    (tokenEnd : Nat) (d' : Decompressor50) (header : BlockHeader) : Prop where
  tables : TablesOf lens d'.tables
  decoder : d' = { d with tables := d'.tables, tablesReady := true }
  last : header.lastBlockInFile = lastBlock
  present : header.tablePresent = true
  endBit : blockEndBit header = tokenEnd

/-- **The decoder reads a written block up to its tokens**, and the padding behind
the tokens leads to the next byte. -/
theorem nextBlock_writeBlock (hsized : Sized freq) {tokens : List Token}
    (hbounded : ∀ tok ∈ tokens, Token.Bounded tok) {lastBlock : Bool} {bytes : List UInt8}
    (hwrite : writeBlock freq tokens lastBlock = some bytes) {d : Decompressor50}
    (hflavour : d.useExtraDist = false) (rest : List Bool) (consumed : Nat) :
    ∃ d' header start,
      nextBlock d ⟨List.replicate (padding consumed) false ++ (ofBytes bytes ++ rest), consumed,
          false⟩
        = some (d', header, ⟨tokens.flatMap (tokenBits (makeTables freq))
          ++ (List.replicate (padding (start
            + (tokens.flatMap (tokenBits (makeTables freq))).length)) false ++ rest), start,
              false⟩) ∧
      BlockRead d (makeTables freq) lastBlock
        (start + (tokens.flatMap (tokenBits (makeTables freq))).length) d' header ∧
      (tokens.flatMap (tokenBits (makeTables freq))).length + padding (start
          + (tokens.flatMap (tokenBits (makeTables freq))).length)
        < padding consumed + 8 * bytes.length := by
  have hemit := emitTokens_eq (makeTables freq) hbounded
  obtain ⟨htableSize, htableBits⟩ := tableLengths_good hsized
  obtain ⟨tables, hbuild, htables⟩ := buildTables_tableLengths hsized
  have hbits : blockBits freq tokens = emitTable (tableLengths (makeTables freq))
      ++ tokens.flatMap (tokenBits (makeTables freq)) := by
    rw [← hemit]
    rfl
  have htablePos := @emitTable_length_pos (tableLengths (makeTables freq))
  have hlen : (blockBits freq tokens).length = (emitTable (tableLengths (makeTables freq))).length
      + (tokens.flatMap (tokenBits (makeTables freq))).length := by
    rw [hbits, length_append]
  -- the size fields of the written block
  generalize hn : (blockBits freq tokens).length = n at hlen
  unfold writeBlock at hwrite
  simp only [toBytes_length, hn] at hwrite
  rw [if_neg (by omega)] at hwrite
  split at hwrite
  · cases hwrite
  next hsmall =>
  generalize hbitSize : min (max (n - ((n + 7) / 8 - 1) * 8) 1) 8 = bitSize at hwrite
  generalize hdataSize : (n + 7) / 8 = dataSize at hwrite hbitSize hsmall
  obtain rfl := Option.some.inj hwrite
  have hpadding : padding consumed = (8 - consumed % 8) % 8 := rfl
  have hstart : (consumed + padding consumed + 16 + 8 * sizeBytes dataSize) % 8 = 0 := by omega
  generalize hstartAt : consumed + padding consumed + 16 + 8 * sizeBytes dataSize = dataStart
  have hheader := readBlockHeader_bits (show dataSize < 0x1000000 by omega)
    (show 1 ≤ bitSize by omega) (show bitSize ≤ 8 by omega) lastBlock
    (ofBytes (toBytes (blockBits freq tokens)) ++ rest) consumed
  rw [hstartAt] at hheader
  have hpad : padding (dataStart + (emitTable (tableLengths (makeTables freq))).length
      + (tokens.flatMap (tokenBits (makeTables freq))).length) = padding n := by
    unfold padding
    omega
  have hread := readDescription_bits htableSize htableBits
    (tokens.flatMap (tokenBits (makeTables freq)) ++ (List.replicate (padding n) false ++ rest))
  refine ⟨{ d with tables := tables, tablesReady := true },
    headerOf dataSize bitSize (consumed + padding consumed) lastBlock,
    dataStart + (emitTable (tableLengths (makeTables freq))).length, ?_,
    ⟨htables, rfl, rfl, rfl, ?_⟩, ?_⟩
  · rw [hpad, nextBlock, ofBytes_append, append_assoc, hheader]
    simp only [bind_eq_bind, bind_some]
    rw [readTables, if_neg (by simp only [headerOf, not_true_eq_false, false_or]; omega), hflavour,
      ofBytes_toBytes, hn, hbits, append_assoc, append_assoc, hread]
    simp [hbuild]
  · have hne : ¬ (headerOf dataSize bitSize (consumed + padding consumed) lastBlock).blockSize
        = 0 := by
      simp only [headerOf]
      omega
    rw [blockEndBit, if_neg hne]
    simp only [headerOf]
    omega
  · rw [hpad, length_append, toBytes_length, hn]
    unfold padding
    omega

end Decompressor50

end OpenRar.Compress
