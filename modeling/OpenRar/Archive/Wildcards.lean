import OpenRar.Archive.PathNames

/-!
# Masks

`wildcard_match` (`io/path_util.cpp`), by which a deletion selects the entries.  The matcher
keeps the last star it passed and, on a mismatch, lets that star take one more byte.

The language of a mask is `Glob`.  The matcher tries a literal match before it looks for a
star, so a star in the text is taken by a star of the mask as a byte like any other.  What it
decides is `Reads`: readings of the text in which a star of the mask that comes to stand at a
star of the text takes this one byte, and any other star whatever it likes.
-/

namespace OpenRar.Archive

open List

def asterisk : UInt8 := 42
def question : UInt8 := 63

/-- `eq` of `wildcard_match` -/
def eqChar (caseSensitive : Bool) (a b : UInt8) : Bool :=
  if caseSensitive then a = b else toLower a = toLower b

/-- The loop of `wildcard_match`, on what is left of the mask and of the text.  The last star
is the mask after it and the text from where it was tried last. -/
def wildcardLoop (cs : Bool) : Nat → Name → Name → Option (Name × Name) → Bool
  | 0, _, _, _ => false
  | _ + 1, p, [], _ => (p.dropWhile (· = asterisk)).isEmpty
  | fuel + 1, p, c :: t, star =>
    if p.head?.any fun a => a = question || eqChar cs a c then wildcardLoop cs fuel p.tail t star
    else if p.head? = some asterisk then
      wildcardLoop cs fuel p.tail (c :: t) (some (p.tail, c :: t))
    else star.elim false fun (q, u) => wildcardLoop cs fuel q u.tail (some (q, u.tail))

/-- The steps left: the attempt under way, and one for every place of the last star. -/
def wildcardCost (p t : Name) (star : Option (Name × Name)) : Nat :=
  let (q, u) := star.getD (p, t)
  p.length + t.length + u.length * (q.length + u.length)

/-- `wildcard_match` -/
def wildcardMatch (pattern text : Name) (caseSensitive : Bool) : Bool :=
  wildcardLoop caseSensitive (wildcardCost pattern text none + 1) pattern text none

/-- The texts that a mask stands for. -/
def Glob (cs : Bool) : Name → Name → Prop
  | [], t => t = []
  | a :: p, t =>
    if a = asterisk then ∃ w, w <:+ t ∧ Glob cs p w
    else ∃ c w, t = c :: w ∧ (a = question ∨ eqChar cs a c = true) ∧ Glob cs p w

variable {cs : Bool} {p q t u w : Name}

theorem eqChar_asterisk {c : UInt8} : eqChar cs asterisk c = true ↔ c = asterisk := by
  cases cs <;> revert c <;> decide +kernel

theorem glob_star : Glob cs (asterisk :: p) t ↔ ∃ w, w <:+ t ∧ Glob cs p w := by
  rw [Glob, if_pos rfl]

theorem glob_cons {a : UInt8} (h : a ≠ asterisk) : Glob cs (a :: p) t ↔
    ∃ c w, t = c :: w ∧ (a = question ∨ eqChar cs a c = true) ∧ Glob cs p w := by
  rw [Glob, if_neg h]

/-- The texts that a mask reads if a star that stands at a star takes this byte alone. -/
def Reads (cs : Bool) : Name → Name → Prop
  | [], t => t = []
  | a :: p, t =>
    if a = asterisk then ∃ w, w <:+ t ∧ (t.head? = some asterisk → w = t.tail) ∧ Reads cs p w
    else ∃ c w, t = c :: w ∧ (a = question ∨ eqChar cs a c = true) ∧ Reads cs p w

theorem reads_star : Reads cs (asterisk :: p) t ↔
    ∃ w, w <:+ t ∧ (t.head? = some asterisk → w = t.tail) ∧ Reads cs p w := by
  rw [Reads, if_pos rfl]

theorem reads_cons {a : UInt8} (h : a ≠ asterisk) : Reads cs (a :: p) t ↔
    ∃ c w, t = c :: w ∧ (a = question ∨ eqChar cs a c = true) ∧ Reads cs p w := by
  rw [Reads, if_neg h]

theorem Reads.glob (h : Reads cs p t) : Glob cs p t := by
  induction p generalizing t with
  | nil => exact h
  | cons a p ih =>
    by_cases ha : a = asterisk
    · subst ha
      obtain ⟨w, hw, -, hread⟩ := reads_star.mp h
      exact glob_star.mpr ⟨w, hw, ih hread⟩
    · obtain ⟨c, w, ht, hc, hread⟩ := (reads_cons ha).mp h
      exact (glob_cons ha).mpr ⟨c, w, ht, hc, ih hread⟩

/-- Over a text without a star there is nothing to avoid. -/
theorem Glob.reads (ht : asterisk ∉ t) (h : Glob cs p t) : Reads cs p t := by
  induction p generalizing t with
  | nil => exact h
  | cons a p ih =>
    by_cases ha : a = asterisk
    · subst ha
      obtain ⟨w, hw, hglob⟩ := glob_star.mp h
      refine reads_star.mpr ⟨w, hw, fun hhead => ?_, ih (fun hmem => ht (hw.mem hmem)) hglob⟩
      exact absurd (mem_of_mem_head? hhead) ht
    · obtain ⟨c, w, rfl, hc, hglob⟩ := (glob_cons ha).mp h
      exact (reads_cons ha).mpr ⟨c, w, rfl, hc, ih (fun hmem => ht (mem_cons_of_mem c hmem)) hglob⟩

theorem reads_nil : Reads cs p [] ↔ p.dropWhile (· = asterisk) = [] := by
  induction p with
  | nil => simp [Reads]
  | cons a p ih =>
    by_cases ha : a = asterisk
    · subst ha
      simp [reads_star, ih]
    · simp [reads_cons ha, ha]

/-- The test of the literal branch. -/
def hits (cs : Bool) (a c : UInt8) : Bool := a = question || eqChar cs a c

/-- The literal branch takes a star only with a star. -/
theorem hits_asterisk {c : UInt8} : hits cs asterisk c = true ↔ c = asterisk := by
  rw [hits, Bool.or_eq_true, eqChar_asterisk]
  exact or_iff_right (by decide)

theorem reads_hit {a c : UInt8} (h : hits cs a c = true) :
    Reads cs (a :: p) (c :: t) ↔ Reads cs p t := by
  by_cases ha : a = asterisk
  · subst ha
    obtain rfl := hits_asterisk.mp h
    rw [reads_star]
    constructor
    · rintro ⟨w, -, hw, hread⟩
      obtain rfl : w = t := hw rfl
      exact hread
    · exact fun hread => ⟨t, suffix_cons _ t, fun _ => rfl, hread⟩
  · have hc : a = question ∨ eqChar cs a c = true := by simpa [hits] using h
    simp [reads_cons ha, hc]

/-- The attempt under way is at `p` and `t`: the last star's mask `q`, tried on `u`, has used up
`m` on the bytes `s`, where a star of `m` took a star. -/
def Tracked (p t : Name) : Option (Name × Name) → Prop
  | none => True
  | some (q, u) => ∃ m s, q = m ++ p ∧ u = s ++ t ∧
      Forall₂ (fun a c => a = asterisk → c = asterisk) m s

/-- The last star can still take more. -/
def Later (cs : Bool) : Option (Name × Name) → Prop
  | none => False
  | some (q, u) => u ≠ [] ∧ ∃ w, w <:+ u.tail ∧ Reads cs q w

theorem Tracked.start : Tracked q u (some (q, u)) := ⟨[], [], rfl, rfl, .nil⟩

theorem Tracked.next {a c : UInt8} {star} (h : Tracked (a :: p) (c :: t) star)
    (ha : a = asterisk → c = asterisk) : Tracked p t star := by
  obtain _ | ⟨q, u⟩ := star
  · trivial
  · obtain ⟨m, s, rfl, rfl, hm⟩ := h
    exact ⟨m ++ [a], s ++ [c], by simp, by simp, rel_append hm (.cons ha .nil)⟩

/-- A part of a mask that was matched on `s`, where its stars took stars, takes no less when it
is matched further on: at the same place it takes the same, and it never falls back. -/
theorem Reads.behind {m s : Name} (hm : Forall₂ (fun a c => a = asterisk → c = asterisk) m s)
    (hw : w <:+ s ++ t) (h : Reads cs (m ++ p) w) : ∃ v, v <:+ t ∧ Reads cs p v := by
  induction hm generalizing w with
  | nil => exact ⟨w, hw, h⟩
  | @cons a c m s hac _ ih =>
    rw [cons_append] at h
    by_cases ha : a = asterisk
    · subst ha
      obtain ⟨v, hv, hhead, hread⟩ := reads_star.mp h
      obtain rfl := hac rfl
      rcases suffix_cons_iff.mp hw with rfl | hw
      · exact ih (hhead rfl ▸ suffix_rfl) hread
      · exact ih (hv.trans hw) hread
    · obtain ⟨d, v, rfl, -, hread⟩ := (reads_cons ha).mp h
      rcases suffix_cons_iff.mp hw with heq | hw
      · obtain ⟨-, rfl⟩ := cons.inj heq
        exact ih suffix_rfl hread
      · exact ih ((suffix_cons d v).trans hw) hread

/-- What the last star could still take, the rest of the mask takes from here on. -/
theorem Tracked.of_later {star} (h : Tracked p t star) (hl : Later cs star) :
    ∃ v, v <:+ t ∧ Reads cs p v := by
  obtain _ | ⟨q, u⟩ := star
  · exact hl.elim
  · obtain ⟨m, s, rfl, rfl, hm⟩ := h
    obtain ⟨-, w, hw, hread⟩ := hl
    exact hread.behind hm (hw.trans (tail_suffix _))

theorem later_tail (hu : u ≠ []) :
    Later cs (some (q, u)) ↔ Reads cs q u.tail ∨ Later cs (some (q, u.tail)) := by
  obtain _ | ⟨c, _ | ⟨d, u⟩⟩ := u
  · exact absurd rfl hu
  · simp [Later]
  · simp [Later, suffix_cons_iff]

theorem Tracked.length_le {star} (h : Tracked p t star) :
    p.length ≤ (star.getD (p, t)).1.length ∧ t.length ≤ (star.getD (p, t)).2.length := by
  obtain _ | ⟨q, u⟩ := star
  · exact ⟨Nat.le_refl _, Nat.le_refl _⟩
  · obtain ⟨m, s, rfl, rfl, -⟩ := h
    simp

theorem wildcardCost_next {a c : UInt8} {star} :
    wildcardCost p t star < wildcardCost (a :: p) (c :: t) star := by
  obtain _ | ⟨q, u⟩ := star
  · simp only [wildcardCost, Option.getD_none, length_cons, Nat.succ_mul, Nat.mul_add]
    omega
  · simp only [wildcardCost, Option.getD_some, length_cons]
    omega

theorem wildcardCost_star {a : UInt8} {star} (h : Tracked (a :: p) t star) :
    wildcardCost p t (some (p, t)) < wildcardCost (a :: p) t star := by
  have hle := h.length_le
  have := Nat.mul_le_mul hle.2 (Nat.add_le_add hle.1 hle.2)
  simp only [wildcardCost, Option.getD_some, length_cons, Nat.mul_add] at *
  omega

theorem wildcardCost_tail {c : UInt8} (hu : u ≠ []) :
    wildcardCost q u.tail (some (q, u.tail)) < wildcardCost p (c :: t) (some (q, u)) := by
  obtain _ | ⟨d, u⟩ := u
  · exact absurd rfl hu
  · simp only [wildcardCost, Option.getD_some, length_cons, tail_cons, Nat.succ_mul, Nat.mul_add]
    omega

/-- The loop finds a reading from here or from a later place of the last star. -/
theorem wildcardLoop_iff (fuel : Nat) {star} (hstar : Tracked p t star)
    (hfuel : wildcardCost p t star < fuel) :
    wildcardLoop cs fuel p t star = true ↔ Reads cs p t ∨ Later cs star := by
  induction fuel generalizing p t star with
  | zero => omega
  | succ fuel ih =>
    obtain _ | ⟨c, t⟩ := t
    · rw [wildcardLoop, List.isEmpty_iff, ← @reads_nil cs, or_iff_left_of_imp]
      intro hlater
      obtain ⟨v, hv, hread⟩ := hstar.of_later hlater
      exact suffix_nil.mp hv ▸ hread
    · -- without a reading from here the loop goes back to the last star
      have hback (hno : ¬ Reads cs p (c :: t)) :
          star.elim false (fun (q, u) => wildcardLoop cs fuel q u.tail (some (q, u.tail))) = true ↔
            Reads cs p (c :: t) ∨ Later cs star := by
        rw [or_iff_right hno]
        obtain _ | ⟨q, u⟩ := star
        · simp [Later]
        · have hu : u ≠ [] := by
            rintro rfl
            simpa using hstar.length_le.2
          have hcost := wildcardCost_tail hu (p := p) (q := q) (t := t) (c := c)
          rw [later_tail hu]
          exact ih .start (by omega)
      obtain _ | ⟨a, p⟩ := p
      · exact hback (by simp [Reads])
      · rw [wildcardLoop, head?_cons, Option.any_some, tail_cons, ← hits]
        by_cases hhit : hits cs a c = true
        · have hcost := @wildcardCost_next p t a c star
          rw [if_pos hhit, reads_hit hhit]
          refine ih (hstar.next ?_) (by omega)
          rintro rfl
          exact hits_asterisk.mp hhit
        · rw [if_neg hhit]
          by_cases ha : a = asterisk
          · subst ha
            have hc : c ≠ asterisk := fun hc => hhit (hits_asterisk.mpr hc)
            have hfree : Reads cs (asterisk :: p) (c :: t) ↔ ∃ w, w <:+ c :: t ∧ Reads cs p w := by
              simp [reads_star, hc]
            have hcost := wildcardCost_star hstar
            -- earlier stars need no second look: what they could still take, the new star takes
            have hlater : Later cs star → Reads cs (asterisk :: p) (c :: t) := by
              intro hl
              obtain ⟨v, hv, hread⟩ := hstar.of_later hl
              obtain ⟨w, hw, -, hread⟩ := reads_star.mp hread
              exact hfree.mpr ⟨w, hw.trans hv, hread⟩
            rw [if_pos rfl, or_iff_left_of_imp hlater, hfree, ih .start (by omega)]
            simp [Later, suffix_cons_iff]
          · rw [if_neg (by simpa using ha)]
            refine hback fun h => hhit ?_
            obtain ⟨d, w, heq, hd, -⟩ := (reads_cons ha).mp h
            obtain ⟨rfl, -⟩ := cons.inj heq
            simpa [hits] using hd

theorem wildcardMatch_reads (pattern text : Name) (cs : Bool) :
    wildcardMatch pattern text cs = true ↔ Reads cs pattern text :=
  (@wildcardLoop_iff cs pattern text _ none trivial (Nat.lt_succ_self _)).trans (or_iff_left id)

/-- **The matcher is right on a mask and a text** exactly if a text of the language has a reading
in which every star of the mask that stands at a star takes this byte alone; on a text without
a star it always is. -/
theorem wildcardMatch_glob_iff (pattern text : Name) (cs : Bool) :
    ((wildcardMatch pattern text cs = true ↔ Glob cs pattern text) ↔
      (Glob cs pattern text → Reads cs pattern text)) ∧
    (asterisk ∉ text → (wildcardMatch pattern text cs = true ↔ Glob cs pattern text)) := by
  rw [wildcardMatch_reads]
  exact ⟨⟨Iff.mpr, fun h => ⟨Reads.glob, h⟩⟩, fun ht => ⟨Reads.glob, Glob.reads ht⟩⟩

/-- The mask `*b` misses the text `*ab`. -/
theorem wildcardMatch_star_literal :
    wildcardMatch (ascii ['*', 'b']) (ascii ['*', 'a', 'b']) true = false ∧
      Glob true (ascii ['*', 'b']) (ascii ['*', 'a', 'b']) := by
  refine ⟨by decide, glob_star.mpr ⟨ascii ['b'], ⟨ascii ['*', 'a'], rfl⟩, ?_⟩⟩
  exact (glob_cons (by decide)).mpr ⟨_, _, rfl, .inr (by decide), rfl⟩

end OpenRar.Archive
