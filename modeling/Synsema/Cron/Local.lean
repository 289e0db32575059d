import Synsema.Cron.Expr
import Mathlib.Order.Bounds.Basic
import Mathlib.Data.Nat.Bitwise

/-!
# The next wall clock time

`next_local` finds the first minute that matches an expression (`nextLocal_finds`).  It jumps to the
next month, day, hour or minute, and each jump leaves out only minutes that have the same month, the
same day or the same hour, none of which matches.
-/

namespace Synsema.Cron

open Gregorian Temporal

/-! ## What is found -/

/-- The result is the least element of the set, or there is none. -/
def Finds (r : Except Halt Int) (s : Set Int) : Prop :=
  (∃ m, r = .ok m ∧ IsLeast s m) ∨ r = .error .none ∧ s = ∅

namespace Finds

variable {r : Except Halt Int} {s : Set Int} {m : Int}

theorem ok_iff (h : Finds r s) : r = .ok m ↔ IsLeast s m := by
  obtain ⟨m', rfl, hm'⟩ | ⟨rfl, rfl⟩ := h
  · rw [Except.ok.injEq]
    constructor
    · rintro rfl
      exact hm'
    · exact hm'.unique
  · exact iff_of_false nofun fun h => h.1

theorem none_iff (h : Finds r s) : r = .error .none ↔ s = ∅ := by
  obtain ⟨m', rfl, hm'⟩ | ⟨rfl, rfl⟩ := h
  · exact iff_of_false nofun fun h => (h ▸ hm'.1 : m' ∈ (∅ : Set Int))
  · exact iff_of_true rfl rfl

theorem none (h : ∀ m, m ∉ s) : Finds (.error .none) s :=
  Or.inr ⟨rfl, Set.eq_empty_iff_forall_notMem.mpr h⟩

end Finds

/-! ## Minutes that match -/

/-- The day is one of the expression: one of the month or one of the week, where both are
restricted. -/
def CronExpr.DayMatches (e : CronExpr) (n : Int) : Prop :=
  if e.domStar = false ∧ e.dowStar = false then
    e.dom.testBit (dateOf n).day = true ∨ e.dow.testBit (weekdayOf n) = true
  else
    (e.domStar = true ∨ e.dom.testBit (dateOf n).day = true) ∧
      (e.dowStar = true ∨ e.dow.testBit (weekdayOf n) = true)

/-- The wall clock time is a whole minute of the expression. -/
structure CronExpr.Matches (e : CronExpr) (n : Int) : Prop where
  whole : n % 60 = 0
  month : e.months.testBit (dateOf n).month = true
  day : e.DayMatches n
  hour : e.hours.testBit (hourOf n) = true
  minute : e.minutes.testBit (minuteOf n) = true

section Match

variable {e : CronExpr} {n n' : Int}

theorem and_bit_eq_zero {a i : Nat} : a &&& 1 <<< i = 0 ↔ a.testBit i = false := by
  rw [Nat.one_shiftLeft, Nat.and_two_pow]
  cases a.testBit i with
  | false => exact iff_of_true (Nat.zero_mul _) rfl
  | true =>
    rw [Bool.toNat_true, Nat.one_mul]
    exact iff_of_false (Nat.two_pow_pos i).ne' Bool.true_eq_false.mp

theorem dayMatches_iff : e.dayMatches n ↔ e.DayMatches n := by
  have hbit (a i : Nat) : decide (a &&& 1 <<< i ≠ 0) = a.testBit i := by
    rw [Bool.eq_iff_iff, decide_eq_true_eq, ne_eq, and_bit_eq_zero, Bool.not_eq_false]
  rw [CronExpr.dayMatches, CronExpr.DayMatches, hbit, hbit]
  cases e.domStar <;> cases e.dowStar <;> simp

theorem CronExpr.DayMatches.congr (h : n / daySecs = n' / daySecs) :
    e.DayMatches n ↔ e.DayMatches n' := by
  rw [CronExpr.DayMatches, CronExpr.DayMatches, dateOf, dateOf, weekdayOf, weekdayOf, h]

end Match

/-! ## The jumps -/

section Jumps

variable {t m : Int}

variable {mo : Nat} {y : Int}

theorem dateOf_month (hmo : 1 ≤ mo ∧ mo ≤ 12) (h : monthStart y mo * daySecs ≤ t)
    (h' : t < (monthStart y mo + daysInMonth y mo) * daySecs) :
    (dateOf t).year = y ∧ (dateOf t).month = mo := by
  have hd : daySecs = 86400 := rfl
  rw [hd] at h h'
  have hmem := Date.ofDays_of_mem (y := y) (n := t / daySecs) hmo (by rw [hd]; omega)
    (by rw [hd]; omega)
  exact ⟨hmem.1, hmem.2.1⟩

theorem month_before_next
    (h : t ≤ m) (h' : m < monthStart (nextMonth (dateOf t).year (dateOf t).month).1
      (nextMonth (dateOf t).year (dateOf t).month).2 * daySecs) :
    (dateOf m).month = (dateOf t).month := by
  have hmo := (dateOf t).valid.1
  have hstart := (Date.mem_month (t / daySecs)).1
  rw [monthStart_nextMonth hmo.1 hmo.2] at h'
  refine (dateOf_month hmo ?_ h').2
  have hd : daySecs = 86400 := rfl
  have : monthStart (dateOf t).year (dateOf t).month ≤ t / daySecs := hstart
  rw [hd] at this ⊢
  omega

theorem lt_next_month :
    t < monthStart (nextMonth (dateOf t).year (dateOf t).month).1
      (nextMonth (dateOf t).year (dateOf t).month).2 * daySecs := by
  have hmo := (dateOf t).valid.1
  have hend := (Date.mem_month (t / daySecs)).2
  rw [monthStart_nextMonth hmo.1 hmo.2]
  have hd : daySecs = 86400 := rfl
  have : t / daySecs < monthStart (dateOf t).year (dateOf t).month +
      daysInMonth (dateOf t).year (dateOf t).month := hend
  rw [hd] at this ⊢
  omega

theorem monthStart_lt (hmo : 1 ≤ mo ∧ mo ≤ 12) :
    yearStart y ≤ monthStart y mo ∧ monthStart y mo < yearStart (y + 1) := by
  have hday := Date.ofDays_of_mem (n := monthStart y mo) hmo le_rfl
    (Int.lt_add_of_pos_right _ (Int.natCast_pos.mpr (daysInMonth_pos hmo.2)))
  have hyear : yearOf (monthStart y mo) = y := hday.1
  have hspec := yearOf_spec (monthStart y mo)
  rwa [hyear] at hspec

theorem nextMonth_valid (hmo : 1 ≤ mo ∧ mo ≤ 12) :
    (1 ≤ (nextMonth y mo).2 ∧ (nextMonth y mo).2 ≤ 12) ∧ y ≤ (nextMonth y mo).1 := by
  rw [nextMonth]
  split
  · exact ⟨⟨le_rfl, (by decide : 1 ≤ 12)⟩, Int.le_add_one le_rfl⟩
  · exact ⟨⟨Nat.le_add_left 1 mo, by omega⟩, le_rfl⟩

theorem maxSecs_le_next_month (h : minSecs ≤ t)
    (hyear : ¬(minYear ≤ (nextMonth (dateOf t).year (dateOf t).month).1 ∧
      (nextMonth (dateOf t).year (dateOf t).month).1 ≤ maxYear)) :
    maxSecs ≤ monthStart (nextMonth (dateOf t).year (dateOf t).month).1
      (nextMonth (dateOf t).year (dateOf t).month).2 * daySecs := by
  have hd : daySecs = 86400 := rfl
  obtain ⟨hnext, hle⟩ := nextMonth_valid (y := (dateOf t).year) (dateOf t).valid.1
  have hmin : minYear ≤ (dateOf t).year := by
    have hspec : t / daySecs < yearStart ((dateOf t).year + 1) := (yearOf_spec (t / daySecs)).2
    have hstart : yearStart minYear ≤ t / daySecs := by
      rw [minSecs, hd] at h
      rw [hd]
      omega
    have := yearStart_strictMono.lt_iff_lt.mp (hstart.trans_lt hspec)
    omega
  have hmax : maxYear + 1 ≤ (nextMonth (dateOf t).year (dateOf t).month).1 := by omega
  have hstart := (monthStart_lt (y := (nextMonth (dateOf t).year (dateOf t).month).1) hnext).1
  have := (yearStart_strictMono.monotone hmax).trans hstart
  rw [maxSecs, hd]
  omega

end Jumps

/-! ## The loop -/

section Loop

variable {e : CronExpr} {limit t t' : Int}

/-- The minutes to be found. -/
def minutesFrom (e : CronExpr) (limit t : Int) : Set Int := {m | t ≤ m ∧ m ≤ limit ∧ e.Matches m}

theorem Finds.jump {r : Except Halt Int} (h : Finds r (minutesFrom e limit t')) (hle : t ≤ t')
    (hnone : ∀ m, t ≤ m → m < t' → ¬e.Matches m) : Finds r (minutesFrom e limit t) := by
  have hset : minutesFrom e limit t = minutesFrom e limit t' := by
    ext m
    constructor
    · rintro ⟨hm, hlimit, hmatch⟩
      exact ⟨not_lt.mp fun hlt => hnone m hm hlt hmatch, hlimit, hmatch⟩
    · rintro ⟨hm, hrest⟩
      exact ⟨hle.trans hm, hrest⟩
  rwa [hset]

theorem Finds.none_of_le (hle : limit < t') (hnone : ∀ m, t ≤ m → m < t' → ¬e.Matches m) :
    Finds (.error .none) (minutesFrom e limit t) :=
  .none fun m ⟨hm, hlimit, hmatch⟩ => hnone m hm (hlimit.trans_lt hle) hmatch

theorem plus_eq_ok {n d : Int} (h : minSecs ≤ n + d) (h' : n + d < maxSecs) :
    plus n d = .ok (n + d) := if_pos ⟨h, h'⟩

theorem scan_finds (hlimit : limit + daySecs ≤ maxSecs) :
    ∀ (fuel : Nat) (t : Int), t % 60 = 0 → minSecs ≤ t → limit < t + 60 * fuel →
      Finds (e.scan limit (fuel + 1) t) (minutesFrom e limit t) := by
  have hd : daySecs = 86400 := rfl
  intro fuel
  induction fuel with
  | zero =>
    intro t _ _ hfuel
    have hlt : limit < t := by omega
    rw [CronExpr.scan, if_pos hlt]
    exact .none_of_le hlt fun m hm hmt _ => absurd hm (not_le.mpr hmt)
  | succ fuel ih =>
    intro t hwhole hmin hfuel
    rw [CronExpr.scan]
    by_cases hlt : limit < t
    · rw [if_pos hlt]
      exact .none_of_le hlt fun m hm hmt _ => absurd hm (not_le.mpr hmt)
    rw [if_neg hlt]
    by_cases hmonth : e.months &&& 1 <<< (dateOf t).month = 0
    · rw [if_pos hmonth]
      rw [and_bit_eq_zero] at hmonth
      have hnone : ∀ m, t ≤ m → m < monthStart (nextMonth (dateOf t).year (dateOf t).month).1
          (nextMonth (dateOf t).year (dateOf t).month).2 * daySecs → ¬e.Matches m := by
        intro m hm hm' hmatch
        rw [← month_before_next hm hm', hmatch.month] at hmonth
        nomatch hmonth
      have hnext := lt_next_month (t := t)
      have hrange := maxSecs_le_next_month hmin
      generalize nextMonth (dateOf t).year (dateOf t).month = next at hnone hnext hrange ⊢
      dsimp only
      split
      · refine (ih _ (by rw [hd]; omega) (by omega) ?_).jump hnext.le hnone
        rw [hd] at hnext ⊢
        omega
      · next hyear =>
          have := hrange hyear
          exact .none_of_le (by omega) hnone
    rw [if_neg hmonth]
    by_cases hday : e.dayMatches t = true
    · rw [hday, Bool.not_true, if_neg Bool.false_ne_true]
      by_cases hhour : e.hours &&& 1 <<< hourOf t = 0
      · have hnone : ∀ m, t ≤ m → m < t / 3600 * 3600 + 3600 → ¬e.Matches m := by
          intro m hm hm' hmatch
          have hsame : hourOf m = hourOf t := by
            rw [hourOf, hourOf, hd]
            omega
          rw [and_bit_eq_zero, ← hsame, hmatch.hour] at hhour
          nomatch hhour
        rw [if_pos hhour, plus_eq_ok (by omega) (by omega)]
        exact (ih _ (by omega) (by omega) (by omega)).jump (by omega) hnone
      rw [if_neg hhour]
      by_cases hminute : e.minutes &&& 1 <<< minuteOf t = 0
      · have hnone : ∀ m, t ≤ m → m < t + 60 → ¬e.Matches m := by
          intro m hm hm' hmatch
          have hwhole' := hmatch.whole
          obtain rfl : m = t := by omega
          rw [and_bit_eq_zero, hmatch.minute] at hminute
          nomatch hminute
        rw [if_pos hminute, plus_eq_ok (by omega) (by omega)]
        exact (ih _ (by omega) (by omega) (by omega)).jump (by omega) hnone
      · have hmatch : e.Matches t := by
          rw [and_bit_eq_zero, Bool.not_eq_false] at hmonth hhour hminute
          exact ⟨hwhole, hmonth, dayMatches_iff.mp hday, hhour, hminute⟩
        rw [if_neg hminute]
        exact Or.inl ⟨t, rfl, ⟨le_rfl, not_lt.mp hlt, hmatch⟩, fun m hm => hm.1⟩
    · have hnone : ∀ m, t ≤ m → m < (t / daySecs + 1) * daySecs → ¬e.Matches m := by
        intro m hm hm' hmatch
        refine hday (dayMatches_iff.mpr ((CronExpr.DayMatches.congr ?_).mp hmatch.day))
        rw [hd] at hm' ⊢
        omega
      rw [Bool.eq_false_iff.mpr hday, Bool.not_false, if_pos rfl]
      split
      · exact (ih _ (by rw [hd]; omega) (by rw [hd]; omega) (by rw [hd]; omega)).jump
          (by rw [hd]; omega) hnone
      · exact .none_of_le (by omega) hnone

theorem nextLocal_finds {start : Int} (hmin : minSecs ≤ start) (hle : start ≤ limit)
    (hlimit : limit + daySecs ≤ maxSecs) :
    Finds (e.nextLocal start limit) {m | start < m ∧ m ≤ limit ∧ e.Matches m} := by
  have hd : daySecs = 86400 := rfl
  have hset : {m | start < m ∧ m ≤ limit ∧ e.Matches m} =
      minutesFrom e limit (start / 60 * 60 + 60) := by
    ext m
    refine and_congr_left fun hm => ?_
    have := hm.2.whole
    omega
  have hsecs : minSecs = yearStart minYear * 86400 := rfl
  have hnext : minSecs ≤ start / 60 * 60 + 60 := by omega
  rw [CronExpr.nextLocal, plus_eq_ok hnext (by omega), hset]
  exact scan_finds hlimit _ _ (by omega) hnext (by omega)

end Loop

end Synsema.Cron
