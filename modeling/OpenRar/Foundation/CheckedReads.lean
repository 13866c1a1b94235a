import Mathlib

/-!
# Reads with checked indices

A program that reads a byte buffer through offsets is written in `Except Failure`: a read
at an index outside the buffer is a `fault`, a loop that outlives its bound is `stuck`, and
`refused` is the program's own verdict on its input.  Offsets are 64-bit unsigned numbers
and their sums and differences wrap, as `wadd` and `wsub` say.

`Safe` says of such a program that it neither faults nor gets stuck, and what holds of its
result; `whileDo` is its loop.  `Agrees` compares such a program with one that takes its
input from the front of a list: both succeed with related results, or both refuse, and
neither faults.  `Window` relates an offset and an end to the list of the bytes between them.
The rules compose along `bind`, so that a proof that a parser never leaves its buffer follows
the parser's text.
-/

namespace OpenRar.CheckedReads

open List

/-! ## Arithmetic of offsets -/

/-- A sum of 64-bit unsigned numbers. -/
def wadd (a b : Nat) : Nat := (a + b) % 2 ^ 64

/-- A difference of 64-bit unsigned numbers. -/
def wsub (a b : Nat) : Nat := (a + 2 ^ 64 - b) % 2 ^ 64

theorem wadd_eq {a b : Nat} (h : a + b < 2 ^ 64) : wadd a b = a + b := Nat.mod_eq_of_lt h

theorem wsub_eq {a b : Nat} (ha : a < 2 ^ 64) (h : b ≤ a) : wsub a b = a - b := by
  unfold wsub
  omega

/-! ## Buffers -/

/-- A byte array; an object in memory is smaller than half the address space. -/
structure Buffer where
  bytes : List UInt8
  bounded : bytes.length < 2 ^ 63

/-- How a run ends without a result. -/
inductive Failure where
  /-- a read outside the buffer -/
  | fault
  /-- a loop that did not end within its bound -/
  | stuck
  /-- the input was turned down -/
  | refused
deriving DecidableEq

namespace Buffer

def size (buf : Buffer) : Nat := buf.bytes.length

/-- One byte. -/
def load (buf : Buffer) (i : Nat) : Except Failure UInt8 :=
  match buf.bytes[i]? with
  | some b => .ok b
  | none => .error .fault

/-- `n` bytes from `off` on. -/
def loadBytes (buf : Buffer) : Nat → Nat → Except Failure (List UInt8)
  | _, 0 => .ok []
  | off, n + 1 => do
      let b ← buf.load off
      let rest ← buf.loadBytes (off + 1) n
      .ok (b :: rest)

theorem load_eq {buf : Buffer} {i : Nat} (h : i < buf.size) :
    buf.load i = .ok (buf.bytes.get ⟨i, h⟩) := by
  rw [load, List.getElem?_eq_getElem h]
  rfl

theorem loadBytes_eq (buf : Buffer) {off n : Nat} (h : off + n ≤ buf.size) :
    buf.loadBytes off n = .ok ((buf.bytes.drop off).take n) := by
  induction n generalizing off with
  | zero => simp [loadBytes]
  | succ n ih =>
    have hoff : off < buf.bytes.length := by
      rw [size] at h
      omega
    rw [loadBytes, load_eq hoff, ih (by omega), drop_eq_getElem_cons hoff]
    rfl

theorem loadBytes_fault {buf : Buffer} {off n : Nat} (hn : n ≠ 0) (h : buf.size < off + n) :
    buf.loadBytes off n = .error .fault := by
  induction n generalizing off with
  | zero => exact absurd rfl hn
  | succ n ih =>
    rw [loadBytes, load]
    cases hb : buf.bytes[off]? with
    | none => rfl
    | some b =>
      have hoff : off < buf.size := (List.getElem?_eq_some_iff.mp hb).1
      rw [ih (by omega) (by omega)]
      rfl

end Buffer

/-- The part of a run that may be refused without ending it. -/
def attempt {α : Type} : Except Failure α → Except Failure (Option α)
  | .ok a => .ok (some a)
  | .error .refused => .ok none
  | .error e => .error e

theorem ok_bind {α β : Type} (a : α) (f : α → Except Failure β) : (Except.ok a >>= f) = f a := rfl

/-- A test of the input. -/
def demand (p : Prop) [Decidable p] : Except Failure Unit :=
  if p then .ok () else .error .refused

theorem bind_ok {α β : Type} {x : Except Failure α} {f : α → Except Failure β} {b : β}
    (h : (x >>= f) = .ok b) : ∃ a, x = .ok a ∧ f a = .ok b := by
  cases x with
  | error e => exact nomatch h
  | ok a => exact ⟨a, rfl, h⟩

theorem demand_ok {p : Prop} [Decidable p] {β : Type} {f : Unit → Except Failure β} {b : β}
    (h : (demand p >>= f) = .ok b) : p ∧ f () = .ok b := by
  rw [demand] at h
  split at h
  · next hp => exact ⟨hp, h⟩
  · exact nomatch h

/-! ## Programs that stay inside -/

/-- The run ends with a result of which `P` holds, or it refuses. -/
def Safe {α : Type} (P : α → Prop) : Except Failure α → Prop
  | .ok a => P a
  | .error e => e = .refused

namespace Safe

variable {α β : Type} {P : α → Prop} {Q : β → Prop}

theorem bind {x : Except Failure α} {f : α → Except Failure β} (h : Safe P x)
    (hf : ∀ a, P a → Safe Q (f a)) : Safe Q (x >>= f) := by
  cases x with
  | ok a => exact hf a h
  | error e => exact h

theorem demand {p : Prop} [Decidable p] {f : Unit → Except Failure β} (hf : p → Safe Q (f ())) :
    Safe Q (CheckedReads.demand p >>= f) := by
  rw [CheckedReads.demand]
  by_cases hp : p
  · rw [if_pos hp]
    exact hf hp
  · rw [if_neg hp]
    rfl

theorem ne_fault {x : Except Failure α} (h : Safe P x) : x ≠ .error .fault := by
  rintro rfl
  exact nomatch (show Failure.fault = Failure.refused from h)

end Safe

/-! ## Loops -/

section Loops

variable {σ : Type} (more : σ → Prop) [DecidablePred more] (step : σ → Except Failure σ)

/-- `while (more(s)) s = step(s)`, for `fuel` turns at most. -/
def whileDo : Nat → σ → Except Failure σ
  | 0, s => if more s then .error .stuck else .ok s
  | fuel + 1, s => if more s then step s >>= whileDo fuel else .ok s

/-- The states that a loop comes to. -/
inductive Turns : σ → σ → Prop where
  | refl (s : σ) : Turns s s
  | turn {s next t : σ} : more s → step s = .ok next → Turns next t → Turns s t

variable {s t : σ} {fuel : Nat}

variable {more step} in
omit [DecidablePred more] in
theorem Turns.snoc {next : σ} (h : Turns more step s t) (ht : more t) (hnext : step t = .ok next) :
    Turns more step s next := by
  induction h with
  | refl s => exact .turn ht hnext (.refl next)
  | turn hmore hstep _ ih => exact .turn hmore hstep (ih ht hnext)

/-- With fuel for every turn a loop fails exactly where one of its turns does. -/
theorem whileDo_error_iff {measure : σ → Nat} (hpos : ∀ s, more s → 0 < measure s)
    (hstep : ∀ s next, more s → step s = .ok next → measure next < measure s)
    (hfuel : measure s ≤ fuel) (e : Failure) :
    whileDo more step fuel s = .error e ↔
      ∃ t, Turns more step s t ∧ more t ∧ step t = .error e := by
  -- a state in which the loop ends comes to no other
  have hend : ∀ {s t : σ}, ¬ more s → Turns more step s t → ¬ more t := by
    intro s t hs hturns
    cases hturns with
    | refl => exact hs
    | turn hmore => exact absurd hmore hs
  induction fuel generalizing s with
  | zero =>
    have hs : ¬ more s := fun hmore => by have := hpos s hmore; omega
    rw [whileDo, if_neg hs]
    constructor
    · intro h
      exact nomatch h
    · rintro ⟨t, hturns, hmore, _⟩
      exact absurd hmore (hend hs hturns)
  | succ fuel ih =>
    rw [whileDo]
    by_cases hs : more s
    · rw [if_pos hs]
      cases hnext : step s with
      | error e' =>
        constructor
        · intro h
          cases h
          exact ⟨s, .refl s, hs, hnext⟩
        · rintro ⟨t, hturns, _, ht⟩
          cases hturns with
          | refl =>
            rw [hnext] at ht
            exact ht
          | turn _ hok => exact nomatch hnext.symm.trans hok
      | ok next =>
        have hless := hstep s next hs hnext
        have hrun := ih (s := next) (by omega)
        refine hrun.trans ?_
        constructor
        · rintro ⟨t, hturns, ht⟩
          exact ⟨t, .turn hs hnext hturns, ht⟩
        · rintro ⟨t, hturns, hmore, ht⟩
          cases hturns with
          | refl => exact nomatch hnext.symm.trans ht
          | turn _ hok hrest =>
            cases hnext.symm.trans hok
            exact ⟨t, hrest, hmore, ht⟩
    · rw [if_neg hs]
      constructor
      · intro h
        exact nomatch h
      · rintro ⟨t, hturns, hmore, _⟩
        exact absurd hmore (hend hs hturns)

end Loops

/-! ## Agreement with a parser on lists -/

/-- The verdict of a parser on lists. -/
def verdict {β : Type} : Option β → Except Failure β
  | some b => .ok b
  | none => .error .refused

/-- The run ends with a result related to the parser's, or both refuse. -/
def Agrees {α β : Type} (R : α → β → Prop) (x : Except Failure α) (y : Option β) : Prop :=
  match y with
  | none => x = .error .refused
  | some b => ∃ a, x = .ok a ∧ R a b

namespace Agrees

variable {α β γ δ : Type} {R : α → β → Prop} {S : γ → δ → Prop}

variable {b : β} {y : Option β} {f : α → Except Failure γ} {z : Option δ}

theorem ok {a : α} (h : R a b) : Agrees R (.ok a) (some b) := ⟨a, rfl, h⟩

theorem refused : Agrees R (.error .refused) none := rfl

theorem bind {x : Except Failure α} {g : β → Option δ}
    (h : Agrees R x y) (hf : ∀ a b, R a b → Agrees S (f a) (g b)) :
    Agrees S (x >>= f) (y >>= g) := by
  cases y with
  | none =>
    rw [show x = .error .refused from h]
    exact refused
  | some b =>
    obtain ⟨a, rfl, hab⟩ := h
    exact hf a b hab

section

variable {p q : Prop} [Decidable p] [Decidable q]

theorem ite {x x' : Except Failure α} {y y' : Option β}
    (hpq : p ↔ q) (hpos : q → Agrees R x y) (hneg : ¬ q → Agrees R x' y') :
    Agrees R (if p then x else x') (if q then y else y') := by
  by_cases hq : q
  · rw [if_pos hq, if_pos (hpq.mpr hq)]
    exact hpos hq
  · rw [if_neg hq, if_neg (fun hp => hq (hpq.mp hp))]
    exact hneg hq

variable {y : Option δ} {f : Unit → Except Failure γ}

theorem demand (hpq : p ↔ q) (h : q → Agrees S (f ()) y) :
    Agrees S (CheckedReads.demand p >>= f) (if q then y else none) := by
  rw [CheckedReads.demand]
  by_cases hq : q
  · rw [if_pos hq, if_pos (hpq.mpr hq)]
    exact h hq
  · rw [if_neg hq, if_neg (fun hp => hq (hpq.mp hp))]
    exact refused

theorem demand_not (hpq : p ↔ ¬ q) (h : ¬ q → Agrees S (f ()) y) :
    Agrees S (CheckedReads.demand p >>= f) (if q then none else y) := by
  rw [← ite_not]
  exact demand hpq h

end

/-- A part that cannot refuse. -/
theorem bind_some {x : Except Failure α}
    (h : Agrees R x (some b)) (hf : ∀ a, R a b → Agrees S (f a) z) : Agrees S (x >>= f) z := by
  obtain ⟨a, rfl, hab⟩ := h
  exact hf a hab

/-- What is tried is there exactly when the parser finds it. -/
theorem attempt_bind {x : Except Failure α} {f : Option α → Except Failure γ} (h : Agrees R x y)
    (hnone : y = none → Agrees S (f none) z)
    (hsome : ∀ a b, y = some b → R a b → Agrees S (f (some a)) z) :
    Agrees S (CheckedReads.attempt x >>= f) z := by
  cases y with
  | none =>
    rw [show x = .error .refused from h]
    exact hnone rfl
  | some b =>
    obtain ⟨a, rfl, hab⟩ := h
    exact hsome a b rfl hab

/-- An equal result. -/
theorem eq_of {x : Except Failure β} (h : Agrees Eq x y) : x = verdict y := by
  cases y with
  | none => exact h
  | some b =>
    obtain ⟨a, rfl, rfl⟩ := h
    rfl

end Agrees

/-! ## Windows -/

/-- The bytes from `off` up to `stop`. -/
structure Window (buf : Buffer) (off stop : Nat) (data : List UInt8) : Prop where
  off_le : off ≤ stop
  stop_le : stop ≤ buf.size
  data_eq : data = (buf.bytes.drop off).take (stop - off)

namespace Window

variable {buf : Buffer} {off stop : Nat} {data : List UInt8}

theorem whole (buf : Buffer) : Window buf 0 buf.size buf.bytes where
  off_le := Nat.zero_le _
  stop_le := Nat.le_refl _
  data_eq := by simp [Buffer.size]

theorem between (hoff : off ≤ stop) (hstop : stop ≤ buf.size) :
    Window buf off stop ((buf.bytes.drop off).take (stop - off)) :=
  ⟨hoff, hstop, rfl⟩

section

variable (h : Window buf off stop data)
include h

theorem length : data.length = stop - off := by
  have hstop := h.stop_le
  rw [Buffer.size] at hstop
  rw [h.data_eq, length_take, length_drop]
  omega

/-- No offset of a window comes near the end of the number range. -/
theorem lt : off < 2 ^ 63 ∧ stop < 2 ^ 63 := by
  have hbuf := buf.bounded
  have hstop := h.stop_le
  have hoff := h.off_le
  rw [Buffer.size] at hstop
  exact ⟨by omega, by omega⟩

theorem wsub_eq : wsub stop off = data.length := by
  rw [h.length]
  exact CheckedReads.wsub_eq (Nat.lt_trans h.lt.2 (by decide)) h.off_le

variable {n : Nat}

theorem wadd_eq (hn : n < 2 ^ 63) : wadd off n = off + n :=
  CheckedReads.wadd_eq (by have := h.lt; omega)

theorem drop (hn : n ≤ data.length) : Window buf (off + n) stop (data.drop n) := by
  have hlen := h.length
  refine ⟨by have := h.off_le; omega, h.stop_le, ?_⟩
  rw [h.data_eq, drop_take, drop_drop, Nat.sub_sub]

/-- An offset moved on by bytes that are there does not wrap. -/
theorem skip (hn : n ≤ data.length) : Window buf (wadd off n) stop (data.drop n) := by
  have hlt := h.lt
  have hlen := h.length
  rw [h.wadd_eq (by omega)]
  exact h.drop hn

theorem take (hn : n ≤ data.length) : Window buf off (off + n) (data.take n) := by
  have hlen := h.length
  have hstop := h.stop_le
  have hoff := h.off_le
  refine ⟨Nat.le_add_right _ _, by omega, ?_⟩
  rw [h.data_eq, take_take, Nat.add_sub_cancel_left]
  congr 1
  omega

/-- The window from an earlier offset on to the end of a later one. -/
theorem upTo {mid : Nat} {rest : List UInt8} (hrest : Window buf mid stop rest) (hmid : off ≤ mid) :
    Window buf off mid (data.take (data.length - rest.length)) := by
  have hlen := h.length
  have hlen' := hrest.length
  have hle := hrest.off_le
  have htake := h.take (n := data.length - rest.length) (Nat.sub_le _ _)
  rwa [show off + (data.length - rest.length) = mid by omega] at htake

end

theorem load {b : UInt8} {rest : List UInt8} (h : Window buf off stop (b :: rest)) :
    buf.load off = .ok b ∧ Window buf (off + 1) stop rest := by
  have hlen := h.length
  have hstop := h.stop_le
  rw [length_cons] at hlen
  have hoff : off < buf.size := by omega
  refine ⟨?_, by simpa using h.drop (n := 1) (by simp)⟩
  have hdata := h.data_eq
  rw [drop_eq_getElem_cons hoff, show stop - off = (stop - off - 1) + 1 by omega,
    take_succ_cons] at hdata
  rw [Buffer.load_eq hoff]
  exact congrArg Except.ok (List.cons.inj hdata).1.symm

theorem loadBytes (h : Window buf off stop data) {n : Nat} (hn : n ≤ data.length) :
    buf.loadBytes off n = .ok (data.take n) := by
  have hlen := h.length
  have hstop := h.stop_le
  have hoff := h.off_le
  rw [buf.loadBytes_eq (by omega), h.data_eq, take_take]
  congr 2
  omega

theorem nil_iff (h : Window buf off stop data) : data = [] ↔ stop ≤ off := by
  rw [← length_eq_zero_iff, h.length]
  omega

end Window

/-- A value and a cursor, against a value and the bytes that are left. -/
def At {α : Type} (buf : Buffer) (stop : Nat) (x : α × Nat) (y : α × List UInt8) : Prop :=
  x.1 = y.1 ∧ Window buf x.2 stop y.2

namespace Agrees

variable {α γ δ : Type} {S : γ → δ → Prop} {buf : Buffer} {stop : Nat}

section

variable {x : Except Failure (α × Nat)}

variable {y : Option (α × List UInt8)} {f : α × Nat → Except Failure γ} {z : Option δ}

/-- A field, and what is read behind it. -/
theorem bindAt {g : α × List UInt8 → Option δ} (h : Agrees (At buf stop) x y)
    (hf : ∀ a off rest, y = some (a, rest) → Window buf off stop rest →
      Agrees S (f (a, off)) (g (a, rest))) : Agrees S (x >>= f) (y >>= g) := by
  cases y with
  | none =>
    rw [show x = .error .refused from h]
    exact refused
  | some b =>
    obtain ⟨⟨a, off⟩, rfl, hab, hwindow⟩ := h
    obtain ⟨a', rest⟩ := b
    obtain rfl : a = a' := hab
    exact hf a off rest rfl hwindow

/-- A field that is always found. -/
theorem someAt {b : α × List UInt8} (h : Agrees (At buf stop) x (some b))
    (hf : ∀ off, Window buf off stop b.2 → Agrees S (f (b.1, off)) z) : Agrees S (x >>= f) z := by
  obtain ⟨⟨a, off⟩, rfl, hab, hwindow⟩ := h
  obtain rfl : a = b.1 := hab
  exact hf off hwindow

/-- A field that may be missing. -/
theorem attemptAt {f : Option (α × Nat) → Except Failure γ} (h : Agrees (At buf stop) x y)
    (hnone : y = none → Agrees S (f none) z)
    (hsome : ∀ a off rest, y = some (a, rest) → Window buf off stop rest →
      Agrees S (f (some (a, off))) z) : Agrees S (CheckedReads.attempt x >>= f) z := by
  refine h.attempt_bind hnone fun ⟨a, off⟩ ⟨a', rest⟩ hy hab => ?_
  obtain ⟨rfl : a = a', hwindow⟩ := hab
  exact hsome a off rest hy hwindow

end

end Agrees

end OpenRar.CheckedReads
