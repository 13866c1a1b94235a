import OpenRar.Foundation.BitString

/-!
# Canonical prefix codes

A canonical code is given by the list of its code lengths; length zero marks an
unused symbol.  Symbols of one length take consecutive codes in symbol order,
and the codes of one length follow those of the shorter lengths.

The module gives the arithmetic that a table-driven decoder relies on: the codes
of length at most `i`, read as left-aligned fractions, fill an initial segment
that ends at `upper i`.  Counting loops that hand out positions or codes are
covered by `assign` and `fillSymbols`.
-/

namespace CanonicalCode

open List Function

variable (ls : List Nat)

/-- End of the codes of length at most `i`, in units of `2⁻ⁱ`. -/
def upper : Nat → Nat
  | 0 => 0
  | i + 1 => 2 * upper i + ls.count (i + 1)

/-- Number of earlier symbols with the same code length. -/
def rank (s : Nat) : Nat := (ls.take s).count (ls.getD s 0)

/-- The code of a symbol. -/
def codeOf (s : Nat) : Nat :=
  2 * upper ls (ls.getD s 0 - 1) + rank ls s

/-- The bits of the code of a symbol. -/
def codeword (s : Nat) : List Bool :=
  BitString.ofNat (ls.getD s 0) (codeOf ls s)

/-- Number of used symbols with a code shorter than `l`. -/
def start : Nat → Nat
  | 0 => 0
  | l + 1 => start l + if l = 0 then 0 else ls.count l

/-- No length has more codes than fit. -/
def Fits (maxBits : Nat) : Prop :=
  ∀ i ≤ maxBits, upper ls i ≤ 2 ^ i

instance (maxBits : Nat) : Decidable (Fits ls maxBits) :=
  inferInstanceAs (Decidable (∀ i ≤ maxBits, upper ls i ≤ 2 ^ i))

variable {ls} {s : Nat}

theorem toNat_codeword (hcode : codeOf ls s < 2 ^ ls.getD s 0) :
    BitString.toNat (codeword ls s) = codeOf ls s :=
  BitString.toNat_ofNat hcode

@[simp]
theorem codeword_length (ls : List Nat) (s : Nat) : (codeword ls s).length = ls.getD s 0 :=
  BitString.ofNat_length _ _

theorem rank_lt (hs : s < ls.length) :
    rank ls s < ls.count (ls.getD s 0) := by
  have hsplit : ls.take s ++ ls.getD s 0 :: ls.drop (s + 1) = ls := by
    rw [getD_eq_getElem _ _ hs, cons_getElem_drop_succ, take_append_drop]
  have hcount : ls.count (ls.getD s 0)
      = rank ls s + ((ls.drop (s + 1)).count (ls.getD s 0) + 1) := by
    rw [rank, ← count_cons_self, ← count_append, hsplit]
  omega

theorem codeOf_lt_upper (hs : s < ls.length) (hused : ls.getD s 0 ≠ 0) :
    codeOf ls s < upper ls (ls.getD s 0) := by
  have hrank := rank_lt hs
  obtain ⟨l, hl⟩ := Nat.exists_eq_succ_of_ne_zero hused
  rw [hl] at hrank
  rw [codeOf, hl, upper]
  simp only [Nat.succ_eq_add_one, Nat.add_sub_cancel] at hrank ⊢
  omega

theorem codeOf_lt_two_pow {maxBits : Nat} (hfits : Fits ls maxBits) (hs : s < ls.length)
    (hused : ls.getD s 0 ≠ 0) (hmax : ls.getD s 0 ≤ maxBits) :
    codeOf ls s < 2 ^ ls.getD s 0 :=
  (codeOf_lt_upper hs hused).trans_le (hfits _ hmax)

variable {i l sym t : Nat} {next num : Nat → Nat} {bits : List Bool}

/-- Left-aligned, the ends of the code ranges ascend. -/
theorem upper_scaled_le (ls : List Nat) {j m : Nat} (hij : i ≤ j) (hjm : j ≤ m) :
    upper ls i * 2 ^ (m - i) ≤ upper ls j * 2 ^ (m - j) := by
  induction j, hij using Nat.le_induction with
  | base => exact le_rfl
  | succ j hij ih =>
    refine (ih (by omega)).trans ?_
    rw [show m - j = (m - (j + 1)) + 1 by omega, pow_succ, upper]
    calc upper ls j * (2 ^ (m - (j + 1)) * 2)
        = (2 * upper ls j) * 2 ^ (m - (j + 1)) := by ring
      _ ≤ (2 * upper ls j + ls.count (j + 1)) * 2 ^ (m - (j + 1)) :=
          Nat.mul_le_mul_right _ (Nat.le_add_right _ _)

section Window

variable {ls : List Nat} {s m : Nat} {window : Nat}

/-- A window of `m` bits that starts with the code of `s`: it lies below the end
of the codes of its own length. -/
theorem window_lt_upper (hs : s < ls.length) (hused : ls.getD s 0 ≠ 0)
    (hwindow : window / 2 ^ (m - ls.getD s 0) = codeOf ls s) :
    window < upper ls (ls.getD s 0) * 2 ^ (m - ls.getD s 0) := by
  rw [← Nat.div_lt_iff_lt_mul (by positivity), hwindow]
  exact codeOf_lt_upper hs hused

/-- The window lies at or above the end of every shorter range. -/
theorem upper_le_window (hm : ls.getD s 0 ≤ m)
    (hwindow : window / 2 ^ (m - ls.getD s 0) = codeOf ls s) {i : Nat}
    (hi : i < ls.getD s 0) : upper ls i * 2 ^ (m - i) ≤ window := by
  refine (upper_scaled_le ls (show i ≤ ls.getD s 0 - 1 by omega) (by omega)).trans ?_
  have hle : codeOf ls s * 2 ^ (m - ls.getD s 0) ≤ window := by
    rw [← hwindow]
    exact Nat.div_mul_le_self _ _
  refine le_trans ?_ hle
  rw [show m - (ls.getD s 0 - 1) = (m - ls.getD s 0) + 1 by omega, pow_succ, codeOf]
  calc upper ls (ls.getD s 0 - 1) * (2 ^ (m - ls.getD s 0) * 2)
      = (2 * upper ls (ls.getD s 0 - 1)) * 2 ^ (m - ls.getD s 0) := by ring
    _ ≤ _ := Nat.mul_le_mul_right _ (Nat.le_add_right _ _)

theorem window_offset (hused : ls.getD s 0 ≠ 0) (hm : ls.getD s 0 ≤ m)
    (hwindow : window / 2 ^ (m - ls.getD s 0) = codeOf ls s) :
    (window - upper ls (ls.getD s 0 - 1) * 2 ^ (m - (ls.getD s 0 - 1)))
        / 2 ^ (m - ls.getD s 0) = rank ls s := by
  have hscale : upper ls (ls.getD s 0 - 1) * 2 ^ (m - (ls.getD s 0 - 1))
      = 2 ^ (m - ls.getD s 0) * (2 * upper ls (ls.getD s 0 - 1)) := by
    rw [show m - (ls.getD s 0 - 1) = (m - ls.getD s 0) + 1 by omega, pow_succ]
    ring
  rw [hscale, Nat.sub_mul_div, hwindow, codeOf]
  omega

end Window

/-! ## Counting loops -/

/-- Hand out consecutive numbers per length, in symbol order. -/
def assign (next : Nat → Nat) : List Nat → List Nat
  | [] => []
  | l :: ls => next l :: assign (Function.update next l (next l + 1)) ls

@[simp]
theorem assign_length (next : Nat → Nat) (ls : List Nat) :
    (assign next ls).length = ls.length := by
  induction ls generalizing next with
  | nil => rfl
  | cons l ls ih => simp [assign, ih]

theorem rank_cons_succ (l : Nat) (ls : List Nat) (s : Nat) :
    rank (l :: ls) (s + 1) = rank ls s + if l = ls.getD s 0 then 1 else 0 := by
  simp [rank, count_cons]

theorem assign_getD (next : Nat → Nat) (ls : List Nat) {s : Nat} (hs : s < ls.length) :
    (assign next ls).getD s 0 = next (ls.getD s 0) + rank ls s := by
  induction ls generalizing next s with
  | nil => simp at hs
  | cons l ls ih =>
    cases s with
    | zero => simp [assign, rank]
    | succ s =>
      rw [assign, getD_cons_succ, ih _ (by simpa using hs), getD_cons_succ,
        rank_cons_succ]
      by_cases h : l = ls.getD s 0
      · rw [if_pos h, ← h, update_self]
        omega
      · rw [if_neg h, update_of_ne (Ne.symm h)]
        omega

/-- Write the used symbols to the numbers that the loop hands out, the first
symbol being `sym`. -/
def fillSymbols (next : Nat → Nat) (num : Nat → Nat) (sym : Nat) : List Nat → Nat → Nat
  | [] => num
  | l :: ls =>
    if l = 0 then fillSymbols next num (sym + 1) ls
    else
      fillSymbols (Function.update next l (next l + 1)) (Function.update num (next l) sym)
        (sym + 1) ls

/-- The ranges that the loop still hands out do not meet. -/
def Disjoint (next : Nat → Nat) (ls : List Nat) : Prop :=
  ∀ l l' a b, l ≠ 0 → l' ≠ 0 → a < ls.count l → b < ls.count l' →
    next l + a = next l' + b → l = l' ∧ a = b

private theorem disjoint_tail {ls : List Nat}
    (h : Disjoint next (l :: ls)) : Disjoint (Function.update next l (next l + 1)) ls := by
  intro p q a b hp hq ha hb heq
  have shift : ∀ r c, c < ls.count r → ∃ c', c' < (l :: ls).count r ∧
      Function.update next l (next l + 1) r + c = next r + c' ∧
      c' = c + if r = l then 1 else 0 := by
    intro r c hc
    refine ⟨_, ?_, ?_, rfl⟩
    · rw [count_cons]
      by_cases hrl : r = l
      · simp [hrl] at hc ⊢
        omega
      · simp [hrl]
        omega
    · by_cases hrl : r = l
      · subst hrl
        simp
        omega
      · simp [hrl]
  obtain ⟨a', ha', haeq, ha''⟩ := shift p a ha
  obtain ⟨b', hb', hbeq, hb''⟩ := shift q b hb
  obtain ⟨rfl, hab⟩ := h p q a' b' hp hq ha' hb' (by rw [← haeq, ← hbeq, heq])
  omega

private theorem fillSymbols_outside {ls : List Nat} {p : Nat}
    (h : ∀ l a, l ≠ 0 → a < ls.count l → next l + a ≠ p) :
    fillSymbols next num sym ls p = num p := by
  induction ls generalizing next num sym with
  | nil => rfl
  | cons l ls ih =>
    rw [fillSymbols]
    by_cases hl : l = 0
    · rw [if_pos hl]
      refine ih fun r a hr ha => h r a hr ?_
      rw [count_cons]
      omega
    · rw [if_neg hl, ih, update_of_ne]
      · have := h l 0 hl (by simp)
        omega
      · intro r a hr ha
        by_cases hrl : r = l
        · subst hrl
          rw [update_self]
          have := h r (a + 1) hr (by rw [count_cons_self]; omega)
          omega
        · rw [update_of_ne hrl]
          refine h r a hr ?_
          rw [count_cons]
          omega

/-- **The counting loop stores every used symbol at its own place.** -/
theorem fillSymbols_eq {ls : List Nat}
    (hdisj : Disjoint next ls) {s : Nat} (hs : s < ls.length) (hused : ls.getD s 0 ≠ 0) :
    fillSymbols next num sym ls (next (ls.getD s 0) + rank ls s) = sym + s := by
  induction ls generalizing next num sym s with
  | nil => simp at hs
  | cons l ls ih =>
    have htail := disjoint_tail hdisj
    cases s with
    | zero =>
      simp only [getD_cons_zero] at hused
      simp only [getD_cons_zero, rank, take_zero, count_nil, Nat.add_zero]
      rw [fillSymbols, if_neg hused, fillSymbols_outside, update_self]
      intro r a hr ha heq
      by_cases hrl : r = l
      · subst hrl
        rw [update_self] at heq
        omega
      · rw [update_of_ne hrl] at heq
        have hcount : a < (l :: ls).count r := by rw [count_cons]; omega
        exact hrl (hdisj r l a 0 hr hused hcount (by simp) (by omega)).1
    | succ s =>
      simp only [getD_cons_succ] at hused ⊢
      have hs' : s < ls.length := by simpa using hs
      rw [fillSymbols, rank_cons_succ]
      by_cases hl : l = 0
      · rw [if_pos hl, if_neg (by rw [hl]; exact Ne.symm hused)]
        have hdisj' : Disjoint next ls := by
          intro p q a b hp hq ha hb
          exact hdisj p q a b hp hq (by rw [count_cons]; omega)
            (by rw [count_cons]; omega)
        simp only [Nat.add_zero]
        rw [ih hdisj' hs' hused]
        omega
      · rw [if_neg hl]
        have hpos : next (ls.getD s 0) + (rank ls s + if l = ls.getD s 0 then 1 else 0)
            = Function.update next l (next l + 1) (ls.getD s 0) + rank ls s := by
          by_cases h : l = ls.getD s 0
          · rw [if_pos h, ← h, update_self]
            omega
          · rw [if_neg h, update_of_ne (Ne.symm h)]
            omega
        rw [hpos, ih htail hs' hused]
        omega

theorem start_add_count_le (ls : List Nat) {l' : Nat} (hl : l ≠ 0) (h : l < l') :
    start ls l + ls.count l ≤ start ls l' := by
  induction l', h using Nat.le_induction with
  | base => simp [start, hl]
  | succ l' _ ih => exact ih.trans (Nat.le_add_right _ _)

/-- Ranges that begin at `start` do not meet. -/
theorem start_disjoint (ls : List Nat) : Disjoint (start ls) ls := by
  intro l l' a b hl hl' ha hb heq
  rcases lt_trichotomy l l' with h | rfl | h
  · have := start_add_count_le ls hl h
    omega
  · exact ⟨rfl, by omega⟩
  · have := start_add_count_le ls hl' h
    omega

theorem start_add_rank_lt_length {ls : List Nat} {s : Nat} (hs : s < ls.length)
    (hused : ls.getD s 0 ≠ 0) : start ls (ls.getD s 0) + rank ls s < ls.length := by
  have hrank := rank_lt hs
  have hbound : ∀ l, start ls (l + 1) ≤ (ls.filter fun x => x ≠ 0 ∧ x ≤ l).length := by
    intro l
    induction l with
    | zero => simp [start]
    | succ l ih =>
      rw [start, if_neg (by omega)]
      have hsplit : (ls.filter fun x => x ≠ 0 ∧ x ≤ l + 1).length
          = (ls.filter fun x => x ≠ 0 ∧ x ≤ l).length + ls.count (l + 1) := by
        clear ih hs hused hrank
        induction ls with
        | nil => rfl
        | cons x xs ihx =>
          by_cases h1 : x ≠ 0 ∧ x ≤ l
          · have h2 : x ≠ 0 ∧ x ≤ l + 1 := ⟨h1.1, by omega⟩
            have h3 : ¬ x = l + 1 := by omega
            simp [h1.1, h1.2, h2.2, h3] at ihx ⊢
            omega
          · by_cases h3 : x = l + 1
            · subst h3
              simp at ihx ⊢
              omega
            · have h2 : ¬ (x ≠ 0 ∧ x ≤ l + 1) := by omega
              simp [h1, h2, h3] at ihx ⊢
              omega
      omega
  have hle := hbound (ls.getD s 0)
  rw [start, if_neg hused] at hle
  have := length_filter_le (fun x => decide (x ≠ 0 ∧ x ≤ ls.getD s 0)) ls
  omega

/-! ## The Kraft sum -/

/-- Share of a code length in the Kraft sum, in units of the longest code; unused
symbols have none. -/
def kraftShare (maxBits l : Nat) : Nat := if l = 0 then 0 else 2 ^ (maxBits - l)

/-- The Kraft sum of a list of code lengths. -/
def kraft (maxBits : Nat) (ls : List Nat) : Nat := (ls.map (kraftShare maxBits)).sum

theorem sum_indicator (ls : List Nat) (l : Nat) :
    (ls.map fun x => if x = l then 1 else 0).sum = ls.count l := by
  induction ls with
  | nil => rfl
  | cons x ls ih =>
    rw [map_cons, sum_cons, count_cons, ih, Nat.add_comm]
    simp

/-- The codes up to length `i` take the share of the symbols with these lengths. -/
theorem upper_scaled_eq (ls : List Nat) {m : Nat} (him : i ≤ m) : upper ls i * 2 ^ (m - i)
      = (ls.map fun l => if l ≤ i then kraftShare m l else 0).sum := by
  induction i with
  | zero =>
    rw [upper, Nat.zero_mul, eq_comm, sum_eq_zero]
    intro x hx
    obtain ⟨l, -, rfl⟩ := mem_map.mp hx
    by_cases hl : l = 0 <;> simp [kraftShare]
  | succ i ih =>
    have hpow : 2 ^ (m - i) = 2 * 2 ^ (m - (i + 1)) := by
      rw [← pow_succ', show m - (i + 1) + 1 = m - i by omega]
    have hsplit : ∀ l : Nat, (if l ≤ i + 1 then kraftShare m l else 0)
        = (if l ≤ i then kraftShare m l else 0)
          + (if l = i + 1 then 1 else 0) * 2 ^ (m - (i + 1)) := by
      intro l
      rcases Nat.lt_trichotomy l (i + 1) with hlt | heq | hgt
      · simp [show l ≤ i + 1 by omega, show l ≤ i by omega, hlt.ne]
      · simp [heq, kraftShare]
      · simp [show ¬ l ≤ i + 1 by omega, show ¬ l ≤ i by omega, hgt.ne']
    have hcount : (ls.map fun l => (if l = i + 1 then 1 else 0) * 2 ^ (m - (i + 1))).sum
        = ls.count (i + 1) * 2 ^ (m - (i + 1)) := by
      rw [sum_map_mul_right]
      congr 1
      exact sum_indicator ls (i + 1)
    simp only [hsplit, sum_map_add, ← ih (by omega), hcount, upper, hpow]
    ring

/-- **A Kraft sum of at most one leaves room for every code.** -/
theorem fits_of_kraft {ls : List Nat} {m : Nat} (h : kraft m ls ≤ 2 ^ m) : Fits ls m := by
  intro i him
  have hle : upper ls i * 2 ^ (m - i) ≤ 2 ^ i * 2 ^ (m - i) := by
    rw [upper_scaled_eq ls him, ← pow_add, Nat.add_sub_cancel' him]
    refine (sum_le_sum ?_).trans h
    intro l _
    split
    · exact le_rfl
    · exact Nat.zero_le _
  exact Nat.le_of_mul_le_mul_right hle (by positivity)

/-! ## Code words in a stream -/

theorem rank_lt_rank {ls : List Nat} {s : Nat} (hst : s < t) (ht : t < ls.length)
    (hlen : ls.getD s 0 = ls.getD t 0) : rank ls s < rank ls t := by
  have hs : s < ls.length := hst.trans ht
  have hsplit : ls.take t = ls.take s ++ (ls.drop s).take (t - s) := by
    rw [← take_add, Nat.add_sub_cancel' hst.le]
  have hmem : ls.getD s 0 ∈ (ls.drop s).take (t - s) := by
    rw [getD_eq_getElem _ _ hs, mem_take_iff_getElem]
    exact ⟨0, by rw [length_drop]; omega, by simp⟩
  have hpos := count_pos_iff.mpr hmem
  rw [rank, rank, hsplit, count_append, hlen]
  rw [hlen] at hpos
  omega

/-- The first `m` bits of a stream; behind its end they are zero. -/
def lookahead (m : Nat) (bits : List Bool) : List Bool := (bits ++ List.replicate m false).take m

@[simp]
theorem lookahead_length (m : Nat) (bits : List Bool) : (lookahead m bits).length = m := by
  simp [lookahead]

theorem take_lookahead {m k : Nat} (hk : k ≤ m) (bits : List Bool) :
    (lookahead m bits).take k = lookahead k bits := by
  rw [lookahead, lookahead, take_take, Nat.min_eq_left hk, take_append, take_append,
    take_replicate, take_replicate]
  congr 2
  omega

theorem lookahead_append {m : Nat} {word : List Bool} (hword : word.length = m)
    (rest : List Bool) : lookahead m (word ++ rest) = word := by
  rw [lookahead, append_assoc, take_left' hword]

/-- The window of a stream that starts with a code word. -/
theorem lookahead_codeword {ls : List Nat} {s m : Nat} (hcode : codeOf ls s < 2 ^ ls.getD s 0)
    (hm : ls.getD s 0 ≤ m)
    (hstarts : lookahead (ls.getD s 0) bits = codeword ls s) :
    BitString.toNat (lookahead m bits) / 2 ^ (m - ls.getD s 0) = codeOf ls s := by
  have htake := BitString.toNat_take (lookahead m bits) (ls.getD s 0)
  rw [lookahead_length, take_lookahead hm, hstarts, toNat_codeword hcode] at htake
  exact htake.symm

/-- **Code words are found in one way only**: a stream begins with the code word of one
symbol at most. -/
theorem codeword_unique {ls : List Nat} {m s : Nat} (hfits : Fits ls m) (hs : s < ls.length)
    (hsused : ls.getD s 0 ≠ 0) (hsm : ls.getD s 0 ≤ m) (ht : t < ls.length)
    (htused : ls.getD t 0 ≠ 0) (htm : ls.getD t 0 ≤ m)
    (hws : lookahead (ls.getD s 0) bits = codeword ls s)
    (hwt : lookahead (ls.getD t 0) bits = codeword ls t) : s = t := by
  replace hws := lookahead_codeword (codeOf_lt_two_pow hfits hs hsused hsm) hsm hws
  replace hwt := lookahead_codeword (codeOf_lt_two_pow hfits ht htused htm) htm hwt
  have hsle := window_lt_upper hs hsused hws
  have htle := window_lt_upper ht htused hwt
  have hlen : ls.getD s 0 = ls.getD t 0 := by
    rcases Nat.lt_trichotomy (ls.getD s 0) (ls.getD t 0) with h | h | h
    · have := upper_le_window htm hwt h
      omega
    · exact h
    · have := upper_le_window hsm hws h
      omega
  have hrank : rank ls s = rank ls t := by
    rw [← window_offset hsused hsm hws, ← window_offset htused htm hwt, hlen]
  rcases Nat.lt_trichotomy s t with h | h | h
  · have := rank_lt_rank h ht hlen
    omega
  · exact h
  · have := rank_lt_rank h hs hlen.symm
    omega

end CanonicalCode
