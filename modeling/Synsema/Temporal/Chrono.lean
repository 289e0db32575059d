import Synsema.Text
import Synsema.Lib.Gregorian

/-!
# What chrono has

The years and the times of `chrono`, and the zones of `chrono_tz` as the code sees them: an offset for
each instant, and the instants that show a wall clock time.  Seconds and days are counted from 1970, and
those of a wall clock time as if it were in UTC.
-/

namespace Synsema.Temporal

open Gregorian List

/-! ## The calendar -/

/-- The seconds of a day. -/
def daySecs : Int := 86400

/-- The first year of chrono. -/
def minYear : Int := -262143

/-- The last year of chrono. -/
def maxYear : Int := 262142

/-- The first second of chrono. -/
def minSecs : Int := yearStart minYear * daySecs

/-- The end of the last second of chrono. -/
def maxSecs : Int := yearStart (maxYear + 1) * daySecs

/-! ## Times -/

/-- The nanoseconds of a second. -/
def nanos : Nat := 1000000000

/-- A second and a part of it.  A leap second is the part of the second before it from `nanos` on. -/
@[ext]
structure Stamp where
  secs : Int
  frac : Nat
  deriving DecidableEq

namespace Stamp

/-- Chrono has the time. -/
def InRange (s : Stamp) : Prop := (minSecs ≤ s.secs ∧ s.secs < maxSecs) ∧ s.frac < 2 * nanos

instance (s : Stamp) : Decidable s.InRange := inferInstanceAs (Decidable (_ ∧ _))

/-- The same part of another second. -/
def shift (s : Stamp) (d : Int) : Stamp := ⟨s.secs + d, s.frac⟩

/-- The time that many nanoseconds after a second. -/
def after (secs n : Int) : Stamp := ⟨secs + n / nanos, (n % nanos).toNat⟩

/-- `overflowing_add_signed`, of nanoseconds: what leaves a leap second leaves it at the end where it
goes. -/
def plus (s : Stamp) (d : Int) : Stamp :=
  if s.frac < nanos then after s.secs (s.frac + d)
  else if 0 < d.tdiv nanos ∨ (0 < d.tmod nanos ∧ 2 * nanos - d.tmod nanos ≤ s.frac) then
    after s.secs (s.frac - nanos + d)
  else if d.tdiv nanos < 0 then after (s.secs + 1) (s.frac - nanos + d)
  else ⟨s.secs, (s.frac + d.tmod nanos).toNat⟩

end Stamp

/-- `NaiveDateTime`. -/
abbrev Naive := { s : Stamp // s.InRange }

abbrev NaiveDate := { d : Date // minYear ≤ d.year ∧ d.year ≤ maxYear }

/-- `NaiveTime`: a second of the day, and a part of it. -/
@[ext]
structure NaiveTime where
  secs : Nat
  frac : Nat
  secs_lt : secs < daySecs
  frac_lt : frac < 2 * nanos

def NaiveTime.min : NaiveTime := ⟨0, 0, by decide, by decide⟩

theorem inRange_of_year {d : Int} (h : yearStart minYear ≤ d ∧ d < yearStart (maxYear + 1)) {s : Int}
    (hs : 0 ≤ s ∧ s < daySecs) : minSecs ≤ d * daySecs + s ∧ d * daySecs + s < maxSecs := by
  rw [minSecs, maxSecs, daySecs] at *
  omega

theorem NaiveDate.mem_range (d : NaiveDate) :
    yearStart minYear ≤ d.1.toDays ∧ d.1.toDays < yearStart (maxYear + 1) :=
  ⟨(yearStart_strictMono.monotone d.2.1).trans d.1.mem_year.1,
    d.1.mem_year.2.trans_le (yearStart_strictMono.monotone (Int.add_le_add_right d.2.2 1))⟩

def NaiveDate.andTime (d : NaiveDate) (t : NaiveTime) : Naive :=
  ⟨⟨d.1.toDays * daySecs + t.secs, t.frac⟩,
    inRange_of_year d.mem_range ⟨Int.natCast_nonneg _, t.secs_lt⟩, t.frac_lt⟩

/-- `+` of a time and nanoseconds, if chrono has it. -/
def Naive.checkedAdd (s : Naive) (d : Int) : Option Naive :=
  if h : (s.1.plus d).InRange then some ⟨_, h⟩ else none

/-- The time that many seconds later, if chrono has it. -/
def Naive.checkedShift (s : Naive) (d : Int) : Option Naive :=
  if h : (s.1.shift d).InRange then some ⟨_, h⟩ else none

@[simp] theorem Stamp.shift_zero (s : Stamp) : s.shift 0 = s := by
  ext
  · exact Int.add_zero _
  · rfl

@[simp] theorem Stamp.shift_neg (s : Stamp) (d : Int) : (s.shift d).shift (-d) = s := by
  rw [shift, shift]
  ext
  · change s.secs + d + -d = s.secs
    omega
  · rfl

@[simp] theorem Stamp.shift_of_neg (s : Stamp) (d : Int) : (s.shift (-d)).shift d = s := by
  have h := s.shift_neg (-d)
  rwa [Int.neg_neg] at h

theorem Naive.checkedShift_eq_some {s t : Naive} {d : Int} :
    s.checkedShift d = some t ↔ t.1 = s.1.shift d := by
  rw [checkedShift]
  constructor
  · intro h
    split at h
    · rw [← Option.some.inj h]
    · cases h
  · intro h
    rw [dif_pos (by rw [← h]; exact t.2)]
    exact congrArg some (Subtype.ext h.symm)

/-! ## Zones -/

inductive LocalResult (α : Type) where
  | none
  | single (t : α)
  | ambiguous (a b : α)
  deriving DecidableEq

namespace LocalResult

variable {α β : Type}

def earliest : LocalResult α → Option α
  | none => .none
  | single t => some t
  | ambiguous a _ => some a

def andThen (r : LocalResult α) (f : α → Option β) : LocalResult β :=
  match r with
  | none => none
  | single t => (f t).elim none single
  | ambiguous a b =>
    match f a, f b with
    | some a, some b => ambiguous a b
    | _, _ => none

/-- What it has. -/
def values : LocalResult α → List α
  | none => []
  | single t => [t]
  | ambiguous a b => [a, b]

theorem mem_values_andThen {r : LocalResult α} {f : α → Option β} {t : β}
    (h : t ∈ (r.andThen f).values) : ∃ a ∈ r.values, f a = some t := by
  cases r with
  | none => cases h
  | single a =>
    rw [andThen] at h
    cases ha : f a with
    | none =>
      rw [ha] at h
      cases h
    | some b =>
      rw [ha] at h
      obtain rfl := mem_singleton.mp h
      exact ⟨a, mem_singleton_self a, ha⟩
  | ambiguous a b =>
    rw [andThen] at h
    split at h
    · next ha hb =>
        obtain rfl | h := List.mem_cons.mp h
        · exact ⟨a, mem_cons_self .., ha⟩
        · obtain rfl := mem_singleton.mp h
          exact ⟨b, mem_cons_of_mem _ (mem_singleton_self b), hb⟩
    · cases h

end LocalResult

/-- A zone of `chrono_tz`, in seconds: the offset of an instant, and the instants that show a wall
clock time, of which there are two at most. -/
structure Tz where
  offset : Int → Int
  fromLocal : Int → LocalResult Int
  lawful : ∀ n,
    match fromLocal n with
    | .none => ∀ t, t + offset t ≠ n
    | .single a => ∀ t, t + offset t = n ↔ t = a
    | .ambiguous a b => a < b ∧ ∀ t, t + offset t = n ↔ t = a ∨ t = b

theorem Tz.shows_of_mem (tz : Tz) {n t : Int} (h : t ∈ (tz.fromLocal n).values) :
    t + tz.offset t = n := by
  have hlaw := tz.lawful n
  cases hn : tz.fromLocal n with
  | none =>
    rw [hn] at h
    cases h
  | single a =>
    rw [hn] at h hlaw
    exact (hlaw t).mpr (mem_singleton.mp h)
  | ambiguous a b =>
    rw [hn] at h hlaw
    exact (hlaw.2 t).mpr ((List.mem_cons.mp h).imp_right mem_singleton.mp)

/-- A zone whose clocks are put forward once, at the instant `c`. -/
def stepTz (c a b : Int) (hab : a ≤ b) : Tz where
  offset t := if t < c then a else b
  fromLocal n := if n < c + a then .single (n - a) else if c + b ≤ n then .single (n - b) else .none
  lawful n := by
    split
    · next h =>
        split at h
        · nomatch h
        · split at h
          · nomatch h
          · intro t
            split <;> omega
    · next s h =>
        split at h
        · obtain rfl := LocalResult.single.inj h
          intro t
          split <;> omega
        · split at h
          · obtain rfl := LocalResult.single.inj h
            intro t
            split <;> omega
          · nomatch h
    · next h =>
        split at h
        · nomatch h
        · split at h
          · nomatch h
          · nomatch h

/-- `FixedOffset`: less than a day. -/
abbrev FixedOffset := { off : Int // -daySecs < off ∧ off < daySecs }

end Synsema.Temporal
