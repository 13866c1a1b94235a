import Mathlib

/-!
# The Gregorian calendar from 1970 on

A count is split into a number of whole periods and a rest; years and months are the periods
of days, and days, hours and minutes are fixed periods of seconds.  `gmtime` splits, `timegm`
adds up, and `timegm_gmtime` says that the second undoes the first.
-/

namespace Calendar

/-! ## Periods -/

/-- How many whole periods of lengths `len k`, `len (k + 1)`, … fit into `r`, from `k` on. -/
def split (len : Nat → Nat) : Nat → Nat → Nat → Nat × Nat
  | 0, k, r => (k, r)
  | fuel + 1, k, r => if r < len k then (k, r) else split len fuel (k + 1) (r - len k)

/-- The length of the first `n` periods. -/
def before (len : Nat → Nat) (n : Nat) : Nat := ∑ k ∈ Finset.range n, len k

theorem before_succ (len : Nat → Nat) (n : Nat) : before len (n + 1) = before len n + len n :=
  Finset.sum_range_succ len n

theorem before_mono (len : Nat → Nat) {m n : Nat} (h : m ≤ n) : before len m ≤ before len n :=
  Finset.sum_le_sum_of_subset (Finset.range_subset_range.mpr h)

section

variable {len : Nat → Nat} (hlen : ∀ k, 0 < len k)
include hlen

theorem split_spec (fuel k r : Nat) (hfuel : r < fuel) :
    before len (split len fuel k r).1 + (split len fuel k r).2 = before len k + r ∧
      (split len fuel k r).2 < len (split len fuel k r).1 := by
  induction fuel generalizing k r with
  | zero => omega
  | succ fuel ih =>
    rw [split]
    split
    next h => exact ⟨rfl, h⟩
    next h =>
      have hpos := hlen k
      have hstep := ih (k + 1) (r - len k) (by omega)
      rw [before_succ] at hstep
      constructor
      · omega
      · exact hstep.2

/-- The whole periods in a count, and the rest. -/
def periods (len : Nat → Nat) (r : Nat) : Nat × Nat := split len (r + 1) 0 r

theorem periods_spec (r : Nat) : before len (periods len r).1 + (periods len r).2 = r ∧
      (periods len r).2 < len (periods len r).1 := by
  have h := split_spec hlen (r + 1) 0 r (Nat.lt_succ_self r)
  have hzero : before len 0 = 0 := rfl
  rw [hzero, Nat.zero_add] at h
  exact h

/-- The number of whole periods in a count. -/
theorem periods_bounds {r m n : Nat} (hm : before len m ≤ r) (hn : r < before len n) :
    m ≤ (periods len r).1 ∧ (periods len r).1 < n := by
  obtain ⟨hsum, hrest⟩ := periods_spec hlen r
  have hnext := before_succ len (periods len r).1
  constructor
  · by_contra hlt
    have := before_mono len (show (periods len r).1 + 1 ≤ m by omega)
    omega
  · by_contra hge
    have := before_mono len (show n ≤ (periods len r).1 by omega)
    omega

end

/-! ## Dates -/

def isLeap (year : Nat) : Bool := year % 4 = 0 && (year % 100 ≠ 0 || year % 400 = 0)

/-- The length of the year `1970 + k`. -/
def yearLength (k : Nat) : Nat := if isLeap (1970 + k) then 366 else 365

/-- The length of a month, January being `0`, in the year `1970 + k`. -/
def monthLength (k month : Nat) : Nat :=
  if month = 1 then if isLeap (1970 + k) then 29 else 28
  else if month = 3 ∨ month = 5 ∨ month = 8 ∨ month = 10 then 30
  else 31

theorem yearLength_ge (k : Nat) : 365 ≤ yearLength k := by
  unfold yearLength
  split <;> omega

theorem monthLength_bounds (k month : Nat) :
    0 < monthLength k month ∧ monthLength k month ≤ 31 := by
  unfold monthLength
  repeat' split
  all_goals omega

theorem before_monthLength (k : Nat) : before (monthLength k) 12 = yearLength k := by
  simp only [before, monthLength, yearLength]
  cases isLeap (1970 + k) with
  | false => rfl
  | true => rfl

/-- A broken-down time; the year counts from 1970, the month from `0`. -/
structure Civil where
  year : Nat
  month : Nat
  day : Nat
  hour : Nat
  minute : Nat
  second : Nat
deriving DecidableEq

/-- The seconds since the start of 1970. -/
def timegm (c : Civil) : Nat :=
  (before yearLength c.year + before (monthLength c.year) c.month + (c.day - 1)) * 86400
    + c.hour * 3600 + c.minute * 60 + c.second

def gmtime (t : Nat) : Civil :=
  let (year, inYear) := periods yearLength (t / 86400)
  let (month, inMonth) := periods (monthLength year) inYear
  { year := year
    month := month
    day := inMonth + 1
    hour := t % 86400 / 3600
    minute := t % 3600 / 60
    second := t % 60 }

theorem year_spec (t : Nat) :
    before yearLength (gmtime t).year + (periods yearLength (t / 86400)).2 = t / 86400 ∧
      (periods yearLength (t / 86400)).2 < yearLength (gmtime t).year :=
  periods_spec (fun k => lt_of_lt_of_le (by decide) (yearLength_ge k)) _

theorem month_spec (t : Nat) :
    before (monthLength (gmtime t).year) (gmtime t).month + ((gmtime t).day - 1) =
        (periods yearLength (t / 86400)).2 ∧
      (gmtime t).day - 1 < monthLength (gmtime t).year (gmtime t).month :=
  periods_spec (fun month => (monthLength_bounds (gmtime t).year month).1) _

/-- A time that a clock shows. -/
structure Civil.Valid (c : Civil) : Prop where
  month : c.month < 12
  day : 1 ≤ c.day ∧ c.day ≤ 31
  hour : c.hour < 24
  minute : c.minute < 60
  second : c.second < 60

theorem gmtime_valid (t : Nat) : (gmtime t).Valid := by
  have hmonths := fun month => (monthLength_bounds (gmtime t).year month).1
  have hbound := periods_bounds hmonths (m := 0) (Nat.zero_le _)
    ((year_spec t).2.trans_eq (before_monthLength _).symm)
  have hday := lt_of_lt_of_le (month_spec t).2 (monthLength_bounds _ _).2
  have hpos : 1 ≤ (gmtime t).day := Nat.succ_pos _
  constructor
  · exact hbound.2
  · omega
  all_goals
    simp only [gmtime]
    omega

/-- The days of a broken-down time. -/
theorem gmtime_days (t : Nat) :
    before yearLength (gmtime t).year + before (monthLength (gmtime t).year) (gmtime t).month
      + ((gmtime t).day - 1) = t / 86400 := by
  have hyear := (year_spec t).1
  have hmonth := (month_spec t).1
  omega

theorem timegm_gmtime (t : Nat) : timegm (gmtime t) = t := by
  rw [timegm, gmtime_days]
  simp only [gmtime]
  omega

/-- The first of January of a year, and everything before a later one. -/
theorem gmtime_year {t m n : Nat} (hm : before yearLength m * 86400 ≤ t)
    (hn : t < before yearLength n * 86400) : m ≤ (gmtime t).year ∧ (gmtime t).year < n := by
  have hday : 0 < 86400 := by decide
  exact periods_bounds (fun k => lt_of_lt_of_le (by decide) (yearLength_ge k))
    ((Nat.le_div_iff_mul_le hday).mpr hm) ((Nat.div_lt_iff_lt_mul hday).mpr hn)

/-- Years are at least 365 days long. -/
theorem before_yearLength_ge (m n : Nat) :
    before yearLength m + 365 * n ≤ before yearLength (m + n) := by
  induction n with
  | zero => exact Nat.le_refl _
  | succ n ih =>
    calc before yearLength m + 365 * (n + 1) = before yearLength m + 365 * n + 365 := by ring
      _ ≤ before yearLength (m + n) + yearLength (m + n) := Nat.add_le_add ih (yearLength_ge _)
      _ = before yearLength (m + n + 1) := (before_succ yearLength (m + n)).symm

end Calendar
