import Mathlib.Data.Int.ConditionallyCompleteOrder
import Mathlib.Order.ConditionallyCompleteLattice.Basic
import Mathlib.Data.List.Basic
import Mathlib.Data.List.GetD
import Mathlib.Algebra.Order.Ring.Int

/-!
# The proleptic Gregorian calendar

Days are numbered from 1970-01-01.  A `Date` is a year, a month and a day of it that exist, and the
dates are the days (`Date.toDays`, `Date.ofDays`).  Years are without bound, in both directions.

A place in a row of months is found by their lengths (`locate`).
-/

namespace Gregorian

open List

/-! ## Places in a row -/

/-- Which of the pieces with these lengths a place is in, and where in it. -/
def locate : List Nat → Nat → Nat × Nat
  | [], d => (0, d)
  | l :: ls, d =>
    if d < l then (0, d)
    else
      let (i, r) := locate ls (d - l)
      (i + 1, r)

variable {i : Nat} {ls : List Nat}

theorem locate_place {r : Nat} (hi : i < ls.length) (hr : r < ls[i]) :
    locate ls ((ls.take i).sum + r) = (i, r) := by
  induction ls generalizing i with
  | nil => exact absurd hi (Nat.not_lt_zero i)
  | cons l ls ih =>
    cases i with
    | zero =>
      have hr : r < l := hr
      rw [take_zero, sum_nil, Nat.zero_add, locate, if_pos hr]
    | succ i =>
      rw [take_succ_cons, sum_cons, Nat.add_assoc, locate,
        if_neg (Nat.not_lt.mpr (Nat.le_add_right _ _)), Nat.add_sub_cancel_left,
        ih (Nat.lt_of_succ_lt_succ hi) hr]

theorem place_locate {d : Nat} (h : d < ls.sum) :
    ∃ hi : (locate ls d).1 < ls.length, (locate ls d).2 < ls[(locate ls d).1] ∧
      (ls.take (locate ls d).1).sum + (locate ls d).2 = d := by
  induction ls generalizing d with
  | nil => exact absurd h (Nat.not_lt_zero d)
  | cons l ls ih =>
    rw [locate]
    split
    · next hd => exact ⟨Nat.succ_pos _, hd, Nat.zero_add d⟩
    · next hd =>
        rw [sum_cons] at h
        obtain ⟨hi, hr, hsum⟩ := ih (d := d - l) (by omega)
        refine ⟨Nat.succ_lt_succ hi, hr, ?_⟩
        rw [take_succ_cons, sum_cons, Nat.add_assoc, hsum]
        omega

/-! ## Years -/

/-- A leap year. -/
def isLeap (y : Int) : Bool := y % 4 = 0 ∧ (y % 100 ≠ 0 ∨ y % 400 = 0)

/-- The months of a year. -/
def monthLengths (y : Int) : List Nat :=
  [31, if isLeap y then 29 else 28, 31, 30, 31, 30, 31, 31, 30, 31, 30, 31]

/-- How many days a year has. -/
def yearLength (y : Int) : Nat := (monthLengths y).sum

/-- The first day of a year. -/
def yearStart (y : Int) : Int :=
  365 * (y - 1970) + ((y - 1) / 4 - (y - 1) / 100 + (y - 1) / 400 - 477)

theorem yearLength_eq (y : Int) : yearLength y = if isLeap y then 366 else 365 := by
  rw [yearLength, monthLengths]
  cases isLeap y <;> rfl

theorem yearStart_succ (y : Int) : yearStart (y + 1) = yearStart y + yearLength y := by
  have hleap : isLeap y = true ↔ y % 4 = 0 ∧ (y % 100 ≠ 0 ∨ y % 400 = 0) := decide_eq_true_iff
  rw [yearLength_eq, yearStart, yearStart]
  by_cases h : isLeap y = true
  · rw [if_pos h]
    rw [hleap] at h
    push_cast
    omega
  · rw [if_neg h]
    rw [hleap] at h
    push_cast
    omega

theorem yearStart_bounds (y : Int) :
    146097 * (y - 1970) - 800 ≤ 400 * yearStart y ∧ 400 * yearStart y ≤ 146097 * (y - 1970) + 800 := by
  rw [yearStart]
  constructor <;> omega

/-- The year of a day. -/
def yearOf (n : Int) : Int :=
  let y := 1970 + 400 * n / 146097
  if n < yearStart y then y - 1 else if yearStart (y + 1) ≤ n then y + 1 else y

theorem yearOf_spec (n : Int) : yearStart (yearOf n) ≤ n ∧ n < yearStart (yearOf n + 1) := by
  have hlen (y : Int) : 365 ≤ yearStart (y + 1) - yearStart y := by
    rw [yearStart_succ, yearLength_eq]
    split <;> omega
  rw [yearOf]
  generalize hy : 1970 + 400 * n / 146097 = y
  have h₁ := yearStart_bounds y
  have h₂ := yearStart_bounds (y + 1)
  have h₃ := hlen (y - 1)
  have h₄ := hlen (y + 1)
  rw [Int.sub_add_cancel] at h₃
  split
  · rw [Int.sub_add_cancel]
    omega
  · split
    · omega
    · omega

theorem yearStart_strictMono : StrictMono yearStart := by
  refine strictMono_int_of_lt_succ fun y => ?_
  rw [yearStart_succ, yearLength_eq]
  split <;> omega

variable {y : Int} {m : Nat}

theorem yearOf_eq {n : Int} (h : yearStart y ≤ n) (h' : n < yearStart (y + 1)) : yearOf n = y := by
  obtain ⟨hle, hlt⟩ := yearOf_spec n
  have h₁ : y < yearOf n + 1 := yearStart_strictMono.lt_iff_lt.mp (h.trans_lt hlt)
  have h₂ : yearOf n < y + 1 := yearStart_strictMono.lt_iff_lt.mp (hle.trans_lt h')
  omega

/-! ## Months -/

/-- How many days a month has. -/
def daysInMonth (y : Int) (m : Nat) : Nat := (monthLengths y).getD (m - 1) 0

/-- The first day of a month. -/
def monthStart (y : Int) (m : Nat) : Int := yearStart y + ((monthLengths y).take (m - 1)).sum

/-- The month after a month. -/
def nextMonth (y : Int) (m : Nat) : Int × Nat := if m = 12 then (y + 1, 1) else (y, m + 1)

theorem length_monthLengths (y : Int) : (monthLengths y).length = 12 := rfl

theorem daysInMonth_eq (h : m - 1 < (monthLengths y).length) :
    daysInMonth y m = (monthLengths y)[m - 1] :=
  getD_eq_getElem _ _ h

theorem daysInMonth_pos (hm : m ≤ 12) : 0 < daysInMonth y m := by
  have hall : ∀ l ∈ monthLengths y, 0 < l := by
    rw [monthLengths]
    cases isLeap y <;> decide
  have hlt : m - 1 < (monthLengths y).length := by
    rw [length_monthLengths]
    omega
  rw [daysInMonth_eq hlt]
  exact hall _ (getElem_mem hlt)

theorem sum_take_succ (h : i < (monthLengths y).length) :
    ((monthLengths y).take (i + 1)).sum =
      ((monthLengths y).take i).sum + (monthLengths y)[i] := by
  rw [take_add_one, getElem?_eq_getElem h, sum_append]
  rfl

theorem monthStart_nextMonth (h₁ : 1 ≤ m) (h₁₂ : m ≤ 12) :
    monthStart (nextMonth y m).1 (nextMonth y m).2 = monthStart y m + daysInMonth y m := by
  have hlt : m - 1 < (monthLengths y).length := by
    rw [length_monthLengths]
    omega
  have hsum := sum_take_succ hlt
  rw [nextMonth, daysInMonth_eq hlt]
  split
  · next hm =>
      subst hm
      rw [monthStart, monthStart, yearStart_succ, yearLength]
      have hall : (monthLengths y).take (12 - 1 + 1) = monthLengths y := rfl
      rw [hall] at hsum
      rw [hsum, Nat.sub_self, take_zero, sum_nil]
      push_cast
      omega
  · rw [monthStart, monthStart, Nat.add_sub_cancel]
    rw [Nat.sub_add_cancel h₁] at hsum
    rw [hsum]
    push_cast
    omega

/-! ## Dates -/

/-- There is such a day. -/
def Valid (y : Int) (m d : Nat) : Prop := (1 ≤ m ∧ m ≤ 12) ∧ 1 ≤ d ∧ d ≤ daysInMonth y m

instance (y : Int) (m d : Nat) : Decidable (Valid y m d) := inferInstanceAs (Decidable (_ ∧ _))

/-- A day, by its year, its month and its place in the month. -/
@[ext]
structure Date where
  year : Int
  month : Nat
  day : Nat
  valid : Valid year month day
  deriving DecidableEq

namespace Date

/-- The number of a date. -/
def toDays (d : Date) : Int := monthStart d.year d.month + (d.day - 1 : Nat)

theorem ofDays_valid (n : Int) : Valid (yearOf n)
    ((locate (monthLengths (yearOf n)) (n - yearStart (yearOf n)).toNat).1 + 1)
    ((locate (monthLengths (yearOf n)) (n - yearStart (yearOf n)).toNat).2 + 1) := by
  obtain ⟨hle, hlt⟩ := yearOf_spec n
  rw [yearStart_succ, yearLength] at hlt
  have hplace : (n - yearStart (yearOf n)).toNat < (monthLengths (yearOf n)).sum := by omega
  obtain ⟨hi, hr, -⟩ := place_locate hplace
  refine ⟨⟨Nat.succ_pos _, hi⟩, Nat.succ_pos _, ?_⟩
  rw [daysInMonth_eq hi]
  exact hr

/-- The date of a day. -/
def ofDays (n : Int) : Date where
  year := yearOf n
  month := (locate (monthLengths (yearOf n)) (n - yearStart (yearOf n)).toNat).1 + 1
  day := (locate (monthLengths (yearOf n)) (n - yearStart (yearOf n)).toNat).2 + 1
  valid := ofDays_valid n

theorem toDays_ofDays (n : Int) : (ofDays n).toDays = n := by
  obtain ⟨hle, hlt⟩ := yearOf_spec n
  rw [yearStart_succ, yearLength] at hlt
  have hplace : (n - yearStart (yearOf n)).toNat < (monthLengths (yearOf n)).sum := by omega
  obtain ⟨-, -, hsum⟩ := place_locate hplace
  have hdays : (ofDays n).toDays = yearStart (yearOf n) +
      (((monthLengths (yearOf n)).take
        (locate (monthLengths (yearOf n)) (n - yearStart (yearOf n)).toNat).1).sum +
        (locate (monthLengths (yearOf n)) (n - yearStart (yearOf n)).toNat).2 : Nat) := by
    rw [toDays, monthStart, Int.add_assoc, ← Nat.cast_add]
    rfl
  rw [hdays, hsum]
  omega

theorem ofDays_of_mem {n : Int} (hm : 1 ≤ m ∧ m ≤ 12) (h : monthStart y m ≤ n)
    (h' : n < monthStart y m + daysInMonth y m) :
    (ofDays n).year = y ∧ (ofDays n).month = m ∧ (ofDays n).day = (n - monthStart y m).toNat + 1 := by
  have hlt : m - 1 < (monthLengths y).length := by
    rw [length_monthLengths]
    omega
  have hstart : yearStart y ≤ n := by
    rw [monthStart] at h
    omega
  have hend : n < yearStart (y + 1) := by
    have hsum := congrArg List.sum (take_append_drop (m - 1 + 1) (monthLengths y))
    rw [sum_append, sum_take_succ hlt, ← daysInMonth_eq hlt, ← yearLength] at hsum
    rw [monthStart] at h'
    rw [yearStart_succ]
    omega
  have hyear : yearOf n = y := yearOf_eq hstart hend
  have hlocate : locate (monthLengths y) (n - yearStart y).toNat =
      (m - 1, (n - monthStart y m).toNat) := by
    have hplace : (n - yearStart y).toNat =
        ((monthLengths y).take (m - 1)).sum + (n - monthStart y m).toNat := by
      rw [monthStart] at h ⊢
      omega
    rw [hplace]
    refine locate_place hlt ?_
    rw [← daysInMonth_eq hlt]
    omega
  refine ⟨hyear, ?_, ?_⟩
  · show (locate (monthLengths (yearOf n)) (n - yearStart (yearOf n)).toNat).1 + 1 = m
    rw [hyear, hlocate]
    omega
  · show (locate (monthLengths (yearOf n)) (n - yearStart (yearOf n)).toNat).2 + 1 = _
    rw [hyear, hlocate]

theorem ofDays_toDays (d : Date) : ofDays d.toDays = d := by
  obtain ⟨hm, hd₁, hd⟩ := d.valid
  obtain ⟨hyear, hmonth, hday⟩ := ofDays_of_mem (n := d.toDays) hm (Int.le_add_of_nonneg_right
    (Int.natCast_nonneg _)) (by rw [toDays]; omega)
  refine Date.ext hyear hmonth ?_
  rw [hday, toDays]
  omega

theorem mem_year (d : Date) : yearStart d.year ≤ d.toDays ∧ d.toDays < yearStart (d.year + 1) := by
  have h := yearOf_spec d.toDays
  rwa [show yearOf d.toDays = d.year from congrArg year (ofDays_toDays d)] at h

theorem mem_month (n : Int) :
    monthStart (ofDays n).year (ofDays n).month ≤ n ∧
      n < monthStart (ofDays n).year (ofDays n).month +
        daysInMonth (ofDays n).year (ofDays n).month := by
  have h := toDays_ofDays n
  obtain ⟨-, hd₁, hd⟩ := (ofDays n).valid
  rw [toDays] at h
  omega

end Date

end Gregorian
