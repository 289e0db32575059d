import Synsema.Cron.Local

/-!
# The next run

What `next_after` is for: the first instant after a given one at which an expression runs in a zone.
A zone is what its clocks show.  An expression with `*` in front runs at every instant that shows a
minute of it; one without runs once for a minute that is shown twice, and for a minute that is left
out at the first whole minute that is shown after it.

The search goes over wall clock times, which need not be in the order of their instants.  It keeps
the best instant and stops when no later wall clock time can have an earlier one (`search_best`).
-/

namespace Synsema.Cron

open Temporal List

/-! ## Runs -/

/-- The instant shows the wall clock time. -/
def Zone.Shows : Zone → Int → Int → Prop
  | .utc, n, t => t = n
  | .fixed off, n, t => t + off.1 = n
  | .iana tz, n, t => t + tz.offset t = n

/-- The first instant of the first whole minute after `n` that is shown. -/
def Zone.Resumes (z : Zone) (n t : Int) : Prop :=
  ∃ k : Nat, IsLeast {k : Nat | 1 ≤ k ∧ ∃ t, z.Shows (n + 60 * k) t} k ∧
    IsLeast {t | z.Shows (n + 60 * k) t} t

namespace CronExpr

/-- The instants at which a minute of the expression runs. -/
def RunsAt (e : CronExpr) (z : Zone) (n t : Int) : Prop :=
  if e.wild then z.Shows n t
  else IsLeast {t | z.Shows n t} t ∨ (∀ t, ¬z.Shows n t) ∧ z.Resumes n t

/-- The instants after `after` at which a minute of the expression runs, up to the wall clock time
`limit`. -/
def runs (e : CronExpr) (z : Zone) (limit after : Int) : Set Int :=
  {t | after < t ∧ ∃ n ≤ limit, e.Matches n ∧ e.RunsAt z n t}

end CronExpr

/-- Where the search ends, as a wall clock time. -/
def Zone.horizon (after : Int) : Zone → Int
  | .utc | .iana _ => after + horizonSecs
  | .fixed off => after + off.1 + horizonSecs

/-- A wall clock time is less than 15 hours from its instants, and from the instant at which the
clocks go on after it where they leave it out. -/
structure Near (tz : Tz) : Prop where
  shown : ∀ t, -maxOffsetSecs < tz.offset t ∧ tz.offset t < maxOffsetSecs
  resumed : ∀ n t, (∀ t, ¬(Zone.iana tz).Shows n t) → (Zone.iana tz).Resumes n t →
    t < n + maxOffsetSecs

/-- The clocks leave out less than 26 hours at once. -/
structure Regular (tz : Tz) : Prop extends Near tz where
  gap : ∀ n, (∀ t, ¬(Zone.iana tz).Shows n t) →
    ∃ k : Nat, 1 ≤ k ∧ k ≤ 26 * 60 ∧ ∃ t, (Zone.iana tz).Shows (n + 60 * k) t

/-! ## A zone of `chrono_tz` -/

section Instants

variable {tz : Tz} {n t : Int}

theorem earliest_eq_some :
    (tz.fromLocal n).earliest = some t ↔ IsLeast {t | (Zone.iana tz).Shows n t} t := by
  have hlaw := tz.lawful n
  cases hn : tz.fromLocal n with
  | none =>
    rw [hn] at hlaw
    exact iff_of_false nofun fun h => hlaw t h.1
  | single a =>
    rw [hn] at hlaw
    have hset : {t | (Zone.iana tz).Shows n t} = {a} := Set.ext hlaw
    rw [hset, LocalResult.earliest, Option.some.injEq]
    constructor
    · rintro rfl
      exact isLeast_singleton
    · exact fun h => h.1.symm
  | ambiguous a b =>
    rw [hn] at hlaw
    obtain ⟨hab, hlaw⟩ := hlaw
    have hleast : IsLeast {t | (Zone.iana tz).Shows n t} a := by
      refine ⟨(hlaw a).mpr (Or.inl rfl), fun t ht => ?_⟩
      obtain rfl | rfl := (hlaw t).mp ht
      · exact le_rfl
      · exact hab.le
    rw [LocalResult.earliest, Option.some.injEq]
    constructor
    · rintro rfl
      exact hleast
    · exact hleast.unique

theorem earliest_eq_none :
    (tz.fromLocal n).earliest = none ↔ ∀ t, ¬(Zone.iana tz).Shows n t := by
  have hlaw := tz.lawful n
  cases hn : tz.fromLocal n with
  | none =>
    rw [hn] at hlaw
    exact iff_of_true rfl hlaw
  | single a =>
    rw [hn] at hlaw
    exact iff_of_false nofun fun h => h a ((hlaw a).mpr rfl)
  | ambiguous a b =>
    rw [hn] at hlaw
    exact iff_of_false nofun fun h => h a ((hlaw.2 a).mpr (Or.inl rfl))

theorem firstShown_succ {r k : Nat} (hmin : minSecs ≤ n) (hmax : n + 60 * (k + (r + 1)) < maxSecs) :
    firstShown tz n (r + 1) k =
      match (tz.fromLocal (n + 60 * k)).earliest with
      | some t => .ok (some t)
      | none => firstShown tz n r (k + 1) := by
  rw [firstShown, plus_eq_ok (by omega) (by omega)]
  rfl

theorem firstShown_spec (tz : Tz) (hmin : minSecs ≤ n) :
    ∀ (r k : Nat), n + 60 * (k + r) < maxSecs →
      ∃ o, firstShown tz n r k = .ok o ∧ ∀ t, o = some t ↔
        ∃ j, (k ≤ j ∧ j < k + r) ∧ (∀ i, k ≤ i → i < j → ∀ t, ¬(Zone.iana tz).Shows (n + 60 * i) t) ∧
          IsLeast {t | (Zone.iana tz).Shows (n + 60 * j) t} t := by
  intro r
  induction r with
  | zero =>
    intro k _
    refine ⟨none, rfl, fun t => iff_of_false nofun ?_⟩
    rintro ⟨j, ⟨hj, hj'⟩, -⟩
    omega
  | succ r ih =>
    intro k hmax
    rw [firstShown_succ hmin hmax]
    cases hk : (tz.fromLocal (n + 60 * k)).earliest with
    | some a =>
      have hleast := earliest_eq_some.mp hk
      refine ⟨some a, rfl, fun t => ⟨?_, ?_⟩⟩
      · rintro ⟨⟩
        exact ⟨k, ⟨le_rfl, by omega⟩, fun i hi hik => absurd hi (by omega), hleast⟩
      · rintro ⟨j, ⟨hj, -⟩, hnone, ht⟩
        obtain rfl | hlt := hj.eq_or_lt
        · rw [hleast.unique ht]
        · exact absurd hleast.1 (hnone k le_rfl hlt a)
    | none =>
      obtain ⟨o, ho, hspec⟩ := ih (k + 1) (by push_cast; omega)
      refine ⟨o, ho, fun t => (hspec t).trans ⟨?_, ?_⟩⟩
      · rintro ⟨j, ⟨hj, hj'⟩, hnone, ht⟩
        refine ⟨j, ⟨by omega, by omega⟩, fun i hi hij => ?_, ht⟩
        obtain rfl | hlt := hi.eq_or_lt
        · exact earliest_eq_none.mp hk
        · exact hnone i hlt hij
      · rintro ⟨j, ⟨hj, hj'⟩, hnone, ht⟩
        obtain rfl | hlt := hj.eq_or_lt
        · exact absurd ht.1 (earliest_eq_none.mp hk t)
        · exact ⟨j, ⟨hlt, by omega⟩, fun i hi hij => hnone i (by omega) hij, ht⟩

theorem firstShown_resumes (htz : Regular tz) (hmin : minSecs ≤ n) (hmax : n + 2 * daySecs ≤ maxSecs)
    (hskip : ∀ t, ¬(Zone.iana tz).Shows n t) :
    ∃ o, firstShown tz n (26 * 60) 1 = .ok o ∧ ∀ t, o = some t ↔ (Zone.iana tz).Resumes n t := by
  have hd : daySecs = 86400 := rfl
  obtain ⟨o, ho, hspec⟩ := firstShown_spec tz hmin (26 * 60) 1 (by push_cast; omega)
  refine ⟨o, ho, fun t => (hspec t).trans ⟨?_, ?_⟩⟩
  · rintro ⟨j, ⟨hj, -⟩, hnone, ht⟩
    exact ⟨j, ⟨⟨hj, t, ht.1⟩, fun i ⟨hi, t', ht'⟩ ↦ not_lt.mp fun hlt ↦ hnone i hi hlt t' ht'⟩, ht⟩
  · rintro ⟨j, ⟨⟨hj, -⟩, hleast⟩, ht⟩
    obtain ⟨k, hk, hk', hshown⟩ := htz.gap n hskip
    have hjk : j ≤ k := hleast ⟨hk, hshown⟩
    exact ⟨j, ⟨hj, by omega⟩, fun i hi hij t' ht' ↦ absurd (hleast ⟨hi, t', ht'⟩) (not_le.mpr hij), ht⟩

theorem instants_spec (e : CronExpr) (htz : Regular tz) (hmin : minSecs ≤ n)
    (hmax : n + 2 * daySecs ≤ maxSecs) :
    ∃ ts, e.instants n tz = .ok ts ∧ ∀ t, t ∈ ts ↔ e.RunsAt (.iana tz) n t := by
  have hlaw := tz.lawful n
  have hsome (t : Int) : (tz.fromLocal n).earliest = some t ↔
      IsLeast {t | (Zone.iana tz).Shows n t} t := earliest_eq_some
  rw [CronExpr.instants]
  cases hn : tz.fromLocal n with
  | single a =>
    rw [hn] at hlaw hsome
    refine ⟨[a], rfl, fun t => ?_⟩
    rw [CronExpr.RunsAt, mem_singleton]
    split
    · exact (hlaw t).symm
    · rw [← hsome t, LocalResult.earliest, Option.some.injEq, eq_comm]
      refine (or_iff_left fun h => h.1 a ?_).symm
      exact (hlaw a).mpr rfl
  | ambiguous a b =>
    rw [hn] at hlaw hsome
    refine ⟨_, rfl, fun t => ?_⟩
    rw [CronExpr.RunsAt]
    cases e.wild with
    | true =>
      rw [if_pos rfl, if_pos rfl, List.mem_cons, mem_singleton]
      exact (hlaw.2 t).symm
    | false =>
      rw [if_neg Bool.false_ne_true, if_neg Bool.false_ne_true, mem_singleton, ← hsome t,
        LocalResult.earliest, Option.some.injEq, eq_comm]
      refine (or_iff_left fun h => h.1 a ?_).symm
      exact (hlaw.2 a).mpr (Or.inl rfl)
  | none =>
    rw [hn] at hlaw hsome
    cases hwild : e.wild with
    | true =>
      refine ⟨[], rfl, fun t => ?_⟩
      rw [CronExpr.RunsAt, hwild, if_pos rfl]
      exact iff_of_false not_mem_nil (hlaw t)
    | false =>
      obtain ⟨o, ho, hspec⟩ := firstShown_resumes htz hmin hmax hlaw
      refine ⟨o.toList, by rw [ho]; rfl, fun t => ?_⟩
      rw [CronExpr.RunsAt, hwild, if_neg Bool.false_ne_true, Option.mem_toList, hspec]
      refine ⟨fun h => Or.inr ⟨hlaw, h⟩, fun h => h.elim (fun h => ?_) And.right⟩
      exact absurd h.1 (hlaw t)

theorem near_of_runsAt {e : CronExpr} (htz : Near tz) (h : e.RunsAt (.iana tz) n t) :
    n - maxOffsetSecs < t ∧ t < n + maxOffsetSecs := by
  have hshown : ∀ {n t}, (Zone.iana tz).Shows n t → n - maxOffsetSecs < t ∧ t < n + maxOffsetSecs := by
    intro n t h
    obtain ⟨h₁, h₂⟩ := htz.shown t
    have h : t + tz.offset t = n := h
    omega
  rw [CronExpr.RunsAt] at h
  split at h
  · exact hshown h
  · obtain h | ⟨hskip, h⟩ := h
    · exact hshown h.1
    · refine ⟨?_, htz.resumed n t hskip h⟩
      obtain ⟨k, -, ht⟩ := h
      have := (hshown ht.1).1
      omega

end Instants

/-! ## The search -/

section Search

variable {e : CronExpr} {tz : Tz} {after limit start n m t : Int} {best : Option Int}

/-- The best one of a set is its least element. -/
def IsBest (best : Option Int) (s : Set Int) : Prop :=
  match best with
  | none => s = ∅
  | some b => IsLeast s b

theorem IsBest.better {s : Set Int} (h : IsBest best s) (t : Int) :
    IsBest (CronExpr.better after best t) (s ∪ {t' | after < t' ∧ t' = t}) := by
  rw [CronExpr.better]
  split
  · next ht =>
      refine ⟨Or.inr ⟨ht.1, rfl⟩, ?_⟩
      rintro t' (ht' | ⟨-, rfl⟩)
      · cases best with
        | none => exact absurd (h ▸ ht' : t' ∈ (∅ : Set Int)) (Set.notMem_empty t')
        | some b => exact (of_decide_eq_true ht.2).le.trans (h.2 ht')
      · exact le_rfl
  · next ht =>
      cases best with
      | none =>
        have hnone : {t' | after < t' ∧ t' = t} = ∅ := by
          refine Set.eq_empty_iff_forall_notMem.mpr ?_
          rintro t' ⟨hafter, rfl⟩
          exact ht ⟨hafter, rfl⟩
        rw [hnone, Set.union_empty]
        exact h
      | some b =>
        refine ⟨Or.inl h.1, ?_⟩
        rintro t' (ht' | ⟨hafter, rfl⟩)
        · exact h.2 ht'
        · exact not_lt.mp fun hlt => ht ⟨hafter, decide_eq_true hlt⟩

theorem IsBest.foldl {s : Set Int} (h : IsBest best s) (ts : List Int) :
    IsBest (ts.foldl (CronExpr.better after) best) (s ∪ {t | after < t ∧ t ∈ ts}) := by
  induction ts generalizing best s with
  | nil =>
    have hnone : {t | after < t ∧ t ∈ ([] : List Int)} = ∅ :=
      Set.eq_empty_iff_forall_notMem.mpr fun t ht => not_mem_nil ht.2
    rw [hnone, Set.union_empty]
    exact h
  | cons t ts ih =>
    have hset : s ∪ {t' | after < t' ∧ t' ∈ t :: ts} =
        (s ∪ {t' | after < t' ∧ t' = t}) ∪ {t' | after < t' ∧ t' ∈ ts} := by
      ext t'
      simp only [Set.mem_union, Set.mem_setOf_eq, List.mem_cons, and_or_left, or_assoc]
    rw [hset]
    exact ih (h.better t)

/-- The runs of the wall clock times after `lo` and up to `hi`. -/
def runsBetween (e : CronExpr) (tz : Tz) (after lo hi : Int) : Set Int :=
  {t | after < t ∧ ∃ n, (lo < n ∧ n ≤ hi) ∧ e.Matches n ∧ e.RunsAt (.iana tz) n t}

theorem runsBetween_next (hle : start ≤ n) (h : IsLeast {m | n < m ∧ m ≤ limit ∧ e.Matches m} m) :
    runsBetween e tz after start m =
      runsBetween e tz after start n ∪ {t | after < t ∧ e.RunsAt (.iana tz) m t} := by
  obtain ⟨⟨hnm, hm, hmatch⟩, hleast⟩ := h
  ext t
  constructor
  · rintro ⟨hafter, n', ⟨hlo, hhi⟩, hmatch', hrun⟩
    obtain hn' | hn' := le_or_gt n' n
    · exact Or.inl ⟨hafter, n', ⟨hlo, hn'⟩, hmatch', hrun⟩
    · obtain rfl : n' = m := hhi.antisymm (hleast ⟨hn', hhi.trans hm, hmatch'⟩)
      exact Or.inr ⟨hafter, hrun⟩
  · rintro (⟨hafter, n', ⟨hlo, hhi⟩, hmatch', hrun⟩ | ⟨hafter, hrun⟩)
    · exact ⟨hafter, n', ⟨hlo, hhi.trans hnm.le⟩, hmatch', hrun⟩
    · exact ⟨hafter, m, ⟨hle.trans_lt hnm, le_rfl⟩, hmatch, hrun⟩

theorem IsBest.cut {b : Int} (htz : Near tz) (hle : start ≤ n) (hn : n ≤ limit)
    (h : IsBest (some b) (runsBetween e tz after start n))
    (hm : IsLeast {m | n < m ∧ m ≤ limit ∧ e.Matches m} m) (hcut : b + maxOffsetSecs < m) :
    IsBest (some b) (runsBetween e tz after start limit) := by
  obtain ⟨⟨hafter, n', ⟨hlo, hhi⟩, hmatch, hrun⟩, hleast⟩ := h
  refine ⟨⟨hafter, n', ⟨hlo, hhi.trans hn⟩, hmatch, hrun⟩, ?_⟩
  rintro t ⟨ht, n'', ⟨hlo', hhi'⟩, hmatch', hrun'⟩
  obtain hn'' | hn'' := le_or_gt n'' n
  · exact hleast ⟨ht, n'', ⟨hlo', hn''⟩, hmatch', hrun'⟩
  · have hge := hm.2 ⟨hn'', hhi', hmatch'⟩
    have hnear := (near_of_runsAt htz hrun').1
    omega

theorem IsBest.last (hn : n ≤ limit) (h : IsBest best (runsBetween e tz after start n))
    (hnone : {m | n < m ∧ m ≤ limit ∧ e.Matches m} = ∅) :
    IsBest best (runsBetween e tz after start limit) := by
  have hset : runsBetween e tz after start limit = runsBetween e tz after start n := by
    ext t
    constructor
    · rintro ⟨hafter, m, ⟨hlo, hhi⟩, hmatch, hrun⟩
      refine ⟨hafter, m, ⟨hlo, not_lt.mp fun hlt => ?_⟩, hmatch, hrun⟩
      exact Set.eq_empty_iff_forall_notMem.mp hnone m ⟨hlt, hhi, hmatch⟩
    · rintro ⟨hafter, m, ⟨hlo, hhi⟩, hrest⟩
      exact ⟨hafter, m, ⟨hlo, hhi.trans hn⟩, hrest⟩
  rwa [hset]

theorem search_best (htz : Regular tz) (hmin : minSecs ≤ start)
    (hmax : limit + 2 * daySecs ≤ maxSecs) :
    ∀ (fuel : Nat) (n : Int) (best : Option Int), start ≤ n → n ≤ limit →
      limit < n / 60 * 60 + 60 * (fuel + 1) →
      IsBest best (runsBetween e tz after start n) →
      ∃ best', e.search tz after limit (fuel + 1) n best = .ok best' ∧
        IsBest best' (runsBetween e tz after start limit) := by
  have hd : daySecs = 86400 := rfl
  intro fuel
  induction fuel with
  | zero =>
    intro n best hn hle hfuel hbest
    obtain ⟨m, -, ⟨hnm, hm, hmatch⟩, -⟩ | ⟨hnext, hnone⟩ :=
      nextLocal_finds (e := e) (hmin.trans hn) hle (by omega)
    · have hwhole := hmatch.whole
      omega
    · rw [CronExpr.search, hnext]
      exact ⟨best, rfl, hbest.last hle hnone⟩
  | succ fuel ih =>
    intro n best hn hle hfuel hbest
    obtain ⟨m, hnext, hleast⟩ | ⟨hnext, hnone⟩ :=
      nextLocal_finds (e := e) (hmin.trans hn) hle (by omega)
    · obtain ⟨hnm, hm, hmatch⟩ := hleast.1
      have hwhole := hmatch.whole
      rw [CronExpr.search, hnext]
      by_cases hcut : best.any (· + maxOffsetSecs < m) = true
      · dsimp only
        rw [if_pos hcut]
        obtain ⟨b, rfl, hb⟩ := (Option.any_eq_true _ _).mp hcut
        exact ⟨some b, rfl, hbest.cut htz.toNear hn hle hleast (of_decide_eq_true hb)⟩
      · obtain ⟨ts, hts, hruns⟩ :=
          instants_spec e htz (hmin.trans (hn.trans hnm.le)) (by omega : m + 2 * daySecs ≤ maxSecs)
        have hbest' : IsBest (ts.foldl (CronExpr.better after) best) _ := hbest.foldl ts
        have hset : {t | after < t ∧ t ∈ ts} = {t | after < t ∧ e.RunsAt (.iana tz) m t} := by
          ext t
          exact and_congr_right fun _ => hruns t
        rw [hset, ← runsBetween_next hn hleast] at hbest'
        dsimp only
        rw [if_neg hcut, hts]
        exact ih m _ (hn.trans hnm.le) hm (by omega) hbest'
    · rw [CronExpr.search, hnext]
      exact ⟨best, rfl, hbest.last hle hnone⟩

end Search

/-! ## The next run -/

section Next

variable (e : CronExpr) {after : Int}

theorem nextAtOffset_finds {z : Zone} {off : Int} (hoff : -daySecs < off ∧ off < daySecs)
    (hz : ∀ n t, z.Shows n t ↔ t + off = n) (hmin : minSecs + 2 * daySecs ≤ after)
    (hmax : after + horizonSecs + 3 * daySecs ≤ maxSecs) :
    Finds (e.nextAtOffset after off) (e.runs z (after + off + horizonSecs) after) := by
  have hd : daySecs = 86400 := rfl
  have hh : 0 < horizonSecs := by decide
  have hruns (n t : Int) : e.RunsAt z n t ↔ t + off = n := by
    have hleast : IsLeast {t | z.Shows n t} t ↔ t + off = n := by
      refine ⟨fun h => (hz n t).mp h.1, fun h => ⟨(hz n t).mpr h, fun t' ht' => ?_⟩⟩
      have := (hz n t').mp ht'
      omega
    rw [CronExpr.RunsAt]
    split
    · exact hz n t
    · rw [hleast]
      exact or_iff_left fun h => h.1 (n - off) ((hz n _).mpr (Int.sub_add_cancel n off))
  have hset : e.runs z (after + off + horizonSecs) after =
      {t | t + off ∈ {m | after + off < m ∧ m ≤ after + off + horizonSecs ∧ e.Matches m}} := by
    ext t
    constructor
    · rintro ⟨ht, n, hn, hmatch, hrun⟩
      obtain rfl := (hruns n t).mp hrun
      exact ⟨by omega, hn, hmatch⟩
    · rintro ⟨ht, hn, hmatch⟩
      exact ⟨by omega, t + off, hn, hmatch, (hruns _ t).mpr rfl⟩
  have hfinds : Finds (e.nextLocal (after + off) (after + off + horizonSecs))
      {m | after + off < m ∧ m ≤ after + off + horizonSecs ∧ e.Matches m} :=
    nextLocal_finds (by omega) (by omega) (by omega)
  have hstart : timestamp (after + off) = .ok (after + off) := if_pos ⟨by omega, by omega⟩
  rw [CronExpr.nextAtOffset, hstart, hset]
  obtain ⟨m, hm, hmem, hleast⟩ | ⟨hm, hnone⟩ := hfinds
  · refine Or.inl ⟨m - off, ?_, ?_, fun t ht => ?_⟩
    · show (plus (after + off) horizonSecs >>= _) = _
      rw [plus_eq_ok (by omega) (by omega)]
      show (e.nextLocal _ _ >>= _) = _
      rw [hm]
      rfl
    · rw [Set.mem_setOf_eq, Int.sub_add_cancel]
      exact hmem
    · have := hleast ht
      omega
  · refine Or.inr ⟨?_, ?_⟩
    · show (plus (after + off) horizonSecs >>= _) = _
      rw [plus_eq_ok (by omega) (by omega)]
      show (e.nextLocal _ _ >>= _) = _
      rw [hm]
      rfl
    · rw [hnone]
      rfl

theorem nextAfter_iana_finds {tz : Tz} (htz : Regular tz) (hmin : minSecs + 2 * daySecs ≤ after)
    (hmax : after + horizonSecs + 3 * daySecs ≤ maxSecs) :
    Finds (e.nextAfter after (.iana tz)) (e.runs (.iana tz) (after + horizonSecs) after) := by
  have hd : daySecs = 86400 := rfl
  have ho : maxOffsetSecs = 54000 := rfl
  have hh : 0 < horizonSecs := by decide
  have hempty : runsBetween e tz after (after - maxOffsetSecs) (after - maxOffsetSecs) = ∅ :=
    Set.eq_empty_iff_forall_notMem.mpr fun t ⟨_, n, hn, _⟩ => absurd hn.1 (not_lt.mpr hn.2)
  have hset : e.runs (.iana tz) (after + horizonSecs) after =
      runsBetween e tz after (after - maxOffsetSecs) (after + horizonSecs) := by
    ext t
    constructor
    · rintro ⟨ht, n, hn, hmatch, hrun⟩
      have hnear := (near_of_runsAt htz.toNear hrun).2
      exact ⟨ht, n, ⟨by omega, hn⟩, hmatch, hrun⟩
    · rintro ⟨ht, n, hn, hrest⟩
      exact ⟨ht, n, hn.2, hrest⟩
  have hstart : timestamp (after - maxOffsetSecs) = .ok (after - maxOffsetSecs) :=
    if_pos ⟨by omega, by omega⟩
  have hlimit : timestamp (after + horizonSecs) = .ok (after + horizonSecs) :=
    if_pos ⟨by omega, by omega⟩
  have hnext (r : Option Int) (hr : e.search tz after (after + horizonSecs)
      (((after + horizonSecs - (after - maxOffsetSecs)) / 60).toNat + 1 + 1)
      (after - maxOffsetSecs) none = .ok r) :
      e.nextAfter after (.iana tz) = r.elim (.error .none) .ok := by
    rw [CronExpr.nextAfter, hstart]
    show (timestamp (after + horizonSecs) >>= _) = _
    rw [hlimit]
    show (e.search tz after (after + horizonSecs)
      (((after + horizonSecs - (after - maxOffsetSecs)) / 60).toNat + 1 + 1) _ none >>= _) = _
    rw [hr]
    cases r <;> rfl
  have hbest₀ : IsBest none
      (runsBetween e tz after (after - maxOffsetSecs) (after - maxOffsetSecs)) := hempty
  obtain ⟨best, hsearch, hbest⟩ := search_best htz (by omega) (by omega)
    (((after + horizonSecs - (after - maxOffsetSecs)) / 60).toNat + 1) (after - maxOffsetSecs) none
    le_rfl (by omega : after - maxOffsetSecs ≤ after + horizonSecs) (by omega) hbest₀
  rw [hnext best hsearch, hset]
  cases best with
  | none => exact Or.inr ⟨rfl, hbest⟩
  | some t => exact Or.inl ⟨t, rfl, hbest⟩

/-- The next run is the first instant after `after` at which the expression runs, among the wall
clock times to the horizon; there is none if there is no such instant, and the search always ends.
The clocks are to leave out less than 26 hours at once. -/
theorem nextAfter_iff (after : Int) (z : Zone) (hz : ∀ tz, z = .iana tz → Regular tz)
    (hmin : minSecs + 2 * daySecs ≤ after) (hmax : after + horizonSecs + 3 * daySecs ≤ maxSecs) :
    (∀ t, e.nextAfter after z = .ok t ↔ IsLeast (e.runs z (z.horizon after) after) t) ∧
      (e.nextAfter after z = .error .none ↔ e.runs z (z.horizon after) after = ∅) ∧
      e.nextAfter after z ≠ .error .panic ∧ e.nextAfter after z ≠ .error .loops := by
  have hfinds : Finds (e.nextAfter after z) (e.runs z (z.horizon after) after) := by
    cases z with
    | utc =>
      have h : Finds (e.nextAtOffset after 0) (e.runs .utc (after + 0 + horizonSecs) after) :=
        nextAtOffset_finds e (by decide) (fun n t => by rw [Int.add_zero]; rfl) hmin hmax
      rwa [Int.add_zero] at h
    | fixed off => exact nextAtOffset_finds e off.2 (fun n t => Iff.rfl) hmin hmax
    | iana tz => exact nextAfter_iana_finds e (hz tz rfl) hmin hmax
  refine ⟨fun t => hfinds.ok_iff, hfinds.none_iff, ?_, ?_⟩
  · obtain ⟨m, hm, -⟩ | ⟨hm, -⟩ := hfinds
    · exact hm ▸ nofun
    · exact hm ▸ nofun
  · obtain ⟨m, hm, -⟩ | ⟨hm, -⟩ := hfinds
    · exact hm ▸ nofun
    · exact hm ▸ nofun

end Next

/-! ## One change of the clocks -/

section Step

variable {c a b n t : Int} {hab : a ≤ b}

theorem shows_stepTz :
    (Zone.iana (stepTz c a b hab)).Shows n t ↔ t < c ∧ t + a = n ∨ c ≤ t ∧ t + b = n := by
  show t + (if t < c then a else b) = n ↔ _
  split <;> omega

theorem resumes_stepTz (hskip : ∀ t, ¬(Zone.iana (stepTz c a b hab)).Shows n t)
    (h : (Zone.iana (stepTz c a b hab)).Resumes n t) : c + a ≤ n ∧ c ≤ t ∧ t < c + 60 := by
  have hlow : c + a ≤ n :=
    not_lt.mp fun hlt => hskip (n - a) (shows_stepTz.mpr (Or.inl ⟨by omega, by omega⟩))
  have hhigh : n < c + b :=
    not_le.mp fun hle => hskip (n - b) (shows_stepTz.mpr (Or.inr ⟨by omega, by omega⟩))
  obtain ⟨k, ⟨⟨hk, -⟩, hleast⟩, ht, -⟩ := h
  have hfirst : n + 60 * k < c + b + 60 := by
    refine not_le.mp fun hle => ?_
    have hprev : k ≤ k - 1 := by
      refine hleast ⟨by omega, n + 60 * (k - 1 : Nat) - b, shows_stepTz.mpr (Or.inr ?_)⟩
      omega
    omega
  obtain h | h := shows_stepTz.mp ht
  · omega
  · omega

theorem near_stepTz (ha : -14 * 3600 ≤ a) (hb : b ≤ 14 * 3600) : Near (stepTz c a b hab) where
  shown t := by
    show -maxOffsetSecs < (if t < c then a else b) ∧ (if t < c then a else b) < maxOffsetSecs
    rw [maxOffsetSecs]
    split <;> omega
  resumed n t hskip h := by
    have := resumes_stepTz hskip h
    rw [maxOffsetSecs]
    omega

theorem regular_stepTz (ha : -14 * 3600 ≤ a) (hb : b ≤ 14 * 3600) (hgap : b - a ≤ 26 * 3600) :
    Regular (stepTz c a b hab) where
  toNear := near_stepTz ha hb
  gap n hskip := by
    have hlow : c + a ≤ n :=
      not_lt.mp fun hlt => hskip (n - a) (shows_stepTz.mpr (Or.inl ⟨by omega, by omega⟩))
    have hhigh : n < c + b :=
      not_le.mp fun hle => hskip (n - b) (shows_stepTz.mpr (Or.inr ⟨by omega, by omega⟩))
    refine ⟨((c + b - n + 59) / 60).toNat, by omega, by omega,
      n + 60 * ((c + b - n + 59) / 60).toNat - b, shows_stepTz.mpr (Or.inr ?_)⟩
    omega

/-- `30 2 * * *`. -/
def halfPastTwo : CronExpr :=
  ⟨2 ^ 30, 2 ^ 2, 2 ^ 32 - 2, 2 ^ 13 - 2, 2 ^ 7 - 1, true, true, false, "30 2 * * *"⟩

/-- Half past two on the day on which the clocks go from two to three runs at three. -/
theorem nextAfter_spring :
    parse "30 2 * * *" = some (.ok halfPastTwo) ∧
      IsLeast (halfPastTwo.runs (.iana (stepTz 1774746000 3600 7200 (by decide)))
        (1774742400 + horizonSecs) 1774742400) 1774746000 :=
  ⟨by decide,
    ((nextAfter_iff halfPastTwo 1774742400 (.iana (stepTz 1774746000 3600 7200 (by decide)))
      (fun _ h => Zone.iana.inj h ▸ regular_stepTz (by decide) (by decide) (by decide))
      (by decide +kernel) (by decide +kernel)).1 1774746000).mp (by decide +kernel)⟩

/-- `0 0 2 1 *`. -/
def secondOfJanuary : CronExpr :=
  ⟨2 ^ 0, 2 ^ 0, 2 ^ 2, 2 ^ 1, 2 ^ 7 - 1, false, true, false, "0 0 2 1 *"⟩

/-- Where the clocks go forward by 28 hours, a minute at the beginning of what they leave out does
not run at the change, but a year later. -/
theorem nextAfter_long_gap :
    ¬ ∀ (src : Text) (e : CronExpr) (after : Int) (tz : Tz), parse src = some (.ok e) → Near tz →
      ∀ t, e.nextAfter after (.iana tz) = .ok t →
        IsLeast {t | after < t ∧ ∃ n, e.Matches n ∧ e.RunsAt (.iana tz) n t} t := by
  intro h
  have hleast := h "0 0 2 1 *" secondOfJanuary 1767225600
    (stepTz 1767358800 (-14 * 3600) (14 * 3600) (by decide)) (by decide)
    (near_stepTz (by decide) (by decide)) 1798797600 (by decide +kernel)
  have hmatch : secondOfJanuary.Matches 1767312000 :=
    ⟨by decide, by decide, dayMatches_iff.mp (by decide), by decide,
      by decide⟩
  have hrun : secondOfJanuary.RunsAt
      (.iana (stepTz 1767358800 (-14 * 3600) (14 * 3600) (by decide))) 1767312000 1767358800 := by
    refine Or.inr ⟨fun t ht => ?_, 1620, ⟨⟨by decide, 1767358800, ?_⟩, ?_⟩, ?_, ?_⟩
    · have := shows_stepTz.mp ht
      omega
    · exact shows_stepTz.mpr (Or.inr ⟨le_rfl, by decide⟩)
    · rintro k ⟨-, t, ht⟩
      have := shows_stepTz.mp ht
      omega
    · exact shows_stepTz.mpr (Or.inr ⟨le_rfl, by decide⟩)
    · intro t ht
      have := shows_stepTz.mp ht
      omega
  exact absurd (hleast.2 ⟨by decide, 1767312000, hmatch, hrun⟩) (by decide)

end Step

end Synsema.Cron
