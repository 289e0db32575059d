import Mathlib.Algebra.Group.Fin.Basic
import Mathlib.Data.Fintype.Card

/-!
# Open addressing

A table of `n + 1` slots that holds a set of values: a value is looked for from its home on, slot
after slot and round the end, up to the value or an empty slot.  Values are added and never taken
out.  As long as a slot is free every walk ends.
-/

namespace Probing

variable {α : Type} {n : Nat}

/-- The slot at a place, counted round. -/
def place (i : Nat) : Fin (n + 1) := Fin.ofNat (n + 1) i

/-- The first of `fuel` slots from `loc` on where the walk stops. -/
def walk (stop : α → Bool) (table : Vector α (n + 1)) : Nat → Nat → Option (Fin (n + 1))
| 0, _ => none
| fuel + 1, loc =>
  if stop (table.get (place loc)) then some (place loc)
  else walk stop table fuel (loc + 1)

theorem walk_of_lt {stop : α → Bool} {table : Vector α (n + 1)} {fuel loc : Nat}
    (h : ∃ d < fuel, stop (table.get (place (loc + d)))) :
    ∃ d, walk stop table fuel loc = some (place (loc + d)) ∧
      stop (table.get (place (loc + d))) ∧
      ∀ e < d, stop (table.get (place (loc + e))) = false := by
  induction fuel generalizing loc with
  | zero =>
    obtain ⟨d, hd, -⟩ := h
    exact absurd hd (Nat.not_lt_zero d)
  | succ fuel ih =>
    rw [walk]
    by_cases hstop : stop (table.get (place loc)) = true
    · exact ⟨0, if_pos hstop, hstop, fun e he => absurd he (Nat.not_lt_zero e)⟩
    have hnext : ∃ d < fuel, stop (table.get (place (loc + 1 + d))) := by
      obtain ⟨d, hd, ht⟩ := h
      cases d with
      | zero => exact absurd ht hstop
      | succ d => exact ⟨d, Nat.lt_of_succ_lt_succ hd, by rwa [Nat.add_assoc, Nat.add_comm 1]⟩
    obtain ⟨d, hwalk, hd, hbefore⟩ := ih hnext
    rw [Nat.add_assoc, Nat.add_comm 1] at hwalk hd
    refine ⟨d + 1, by rw [if_neg hstop, hwalk], hd, ?_⟩
    intro e he
    cases e with
    | zero => exact Bool.eq_false_iff.mpr hstop
    | succ e =>
      have := hbefore e (Nat.lt_of_succ_lt_succ he)
      rwa [Nat.add_assoc, Nat.add_comm 1] at this

/-- A walk over all slots stops at the first slot that it may stop at. -/
theorem walk_of_exists (stop : α → Bool) (table : Vector α (n + 1))
    (h : ∃ i : Fin (n + 1), stop (table.get i)) (loc : Nat) :
    ∃ d, walk stop table (n + 1) loc = some (place (loc + d)) ∧
      stop (table.get (place (loc + d))) ∧
      ∀ e < d, stop (table.get (place (loc + e))) = false := by
  obtain ⟨i, hi⟩ := h
  refine walk_of_lt ⟨(i - place loc).val, (i - place loc).isLt, ?_⟩
  have hplace : (place (loc + (i - place loc).val) : Fin (n + 1)) = i := by
    have hadd : (place (loc + (i - place loc).val) : Fin (n + 1)) = place loc + (i - place loc) := by
      refine Fin.ext ?_
      rw [Fin.val_add]
      simp only [place, Fin.ofNat_eq_cast, Fin.val_natCast, Nat.mod_add_mod]
    rw [hadd, add_sub_cancel]
  rwa [hplace]

variable [DecidableEq α] (empty : α) (home : α → Nat)

/-- The table holds a set: each value is met from its home before an empty slot, and the slots
that hold none are empty. -/
structure Holds (table : Vector α (n + 1)) (s : Finset α) : Prop where
  empty_notMem : empty ∉ s
  slot : ∀ i : Fin (n + 1), table.get i = empty ∨ table.get i ∈ s
  met : ∀ x ∈ s, ∃ d, (table.get (place (home x + d))) = x ∧
    ∀ e < d, (table.get (place (home x + e))) ≠ empty
  free : (Finset.univ.filter fun i : Fin (n + 1) => table.get i = empty).card + s.card = n + 1

variable {empty home} {table : Vector α (n + 1)} {s : Finset α}

namespace Holds

/-- The empty table. -/
theorem replicate : Holds empty home (Vector.replicate (n + 1) empty) ∅ := by
  have hget : ∀ i : Fin (n + 1), (Vector.replicate (n + 1) empty).get i = empty := fun i =>
    Vector.getElem_replicate i.isLt
  refine ⟨Finset.notMem_empty _, fun i => Or.inl (hget i), ?_, ?_⟩
  · exact fun x hx => absurd hx (Finset.notMem_empty x)
  · simp [hget]

theorem exists_empty (h : Holds empty home table s) (hs : s.card ≤ n) :
    ∃ i : Fin (n + 1), table.get i = empty := by
  have hfree := h.free
  have hpos : 0 < (Finset.univ.filter fun i : Fin (n + 1) => table.get i = empty).card := by omega
  obtain ⟨i, hi⟩ := Finset.card_pos.mp hpos
  exact ⟨i, (Finset.mem_filter.mp hi).2⟩

/-- A value that is not held is put where its walk meets an empty slot. -/
theorem set (h : Holds empty home table s) {x : α} (hx : x ∉ s) (hne : x ≠ empty) {d : Nat}
    (hd : (table.get (place (home x + d))) = empty)
    (hbefore : ∀ e < d, (table.get (place (home x + e))) ≠ empty) :
    Holds empty home (table.set (place (home x + d) : Fin (n + 1)) x) (insert x s) := by
  have hget : ∀ i : Fin (n + 1), (table.set (place (home x + d) : Fin (n + 1)) x).get i =
      if i = place (home x + d) then x else table.get i := by
    intro i
    change (table.set (place (home x + d) : Fin (n + 1)) x)[i.val] = _
    rw [Vector.getElem_set]
    simp only [Fin.ext_iff, eq_comm]
    rfl
  constructor
  · exact fun hmem => (Finset.mem_insert.mp hmem).elim (fun he => hne he.symm) h.empty_notMem
  · intro i
    rw [hget]
    split
    · exact Or.inr (Finset.mem_insert_self x s)
    · exact (h.slot i).imp_right Finset.mem_insert_of_mem
  · -- the slots of the old walks were not empty, and stay as they are
    have hkeep : ∀ i : Fin (n + 1), table.get i ≠ empty →
        (table.set (place (home x + d) : Fin (n + 1)) x).get i = table.get i := by
      intro i hi
      rw [hget, if_neg]
      rintro rfl
      exact hi hd
    intro y hy
    rcases Finset.mem_insert.mp hy with rfl | hy
    · refine ⟨d, by rw [hget, if_pos rfl], fun e he => ?_⟩
      rw [hkeep _ (hbefore e he)]
      exact hbefore e he
    · obtain ⟨c, hc, hcs⟩ := h.met y hy
      have hy' : y ≠ empty := fun he => h.empty_notMem (he ▸ hy)
      refine ⟨c, by rw [hkeep _ (by rwa [hc]), hc], fun e he => ?_⟩
      rw [hkeep _ (hcs e he)]
      exact hcs e he
  · have herase : (Finset.univ.filter fun i : Fin (n + 1) =>
        (table.set (place (home x + d) : Fin (n + 1)) x).get i = empty) =
        (Finset.univ.filter fun i : Fin (n + 1) ↦ table.get i = empty).erase (place (home x + d)) := by
      ext i
      simp only [Finset.mem_filter, Finset.mem_univ, true_and, Finset.mem_erase, hget]
      split
      · rename_i hi
        simp [hi, hne]
      · rename_i hi
        simp [hi]
    have hmem : (place (home x + d) : Fin (n + 1)) ∈
        Finset.univ.filter fun i : Fin (n + 1) => table.get i = empty := by simpa using hd
    have hfree := h.free
    have hpos := Finset.card_pos.mpr ⟨_, hmem⟩
    rw [herase, Finset.card_erase_of_mem hmem, Finset.card_insert_of_notMem hx]
    omega

/-- The walk to a value ends, at the value if it is held and else at an empty slot. -/
theorem walk_value (h : Holds empty home table s) (hs : s.card ≤ n) (x : α) :
    ∃ d, walk (fun y => decide (y = empty) || decide (y = x)) table (n + 1) (home x) =
        some (place (home x + d)) ∧
      ((table.get (place (home x + d))) = empty ↔ x ∉ s ∨ x = empty) ∧
      ∀ e < d, (table.get (place (home x + e))) ≠ empty := by
  obtain ⟨i, hi⟩ := h.exists_empty hs
  obtain ⟨d, hwalk, hd, hbefore⟩ := walk_of_exists
    (fun y => decide (y = empty) || decide (y = x)) table ⟨i, by simp [hi]⟩ (home x)
  simp only [Bool.or_eq_true, decide_eq_true_iff, Bool.or_eq_false_iff, decide_eq_false_iff_not]
    at hd hbefore
  refine ⟨d, hwalk, ?_, fun e he => (hbefore e he).1⟩
  constructor
  · intro hempty
    by_contra hnot
    rw [not_or, not_not] at hnot
    obtain ⟨c, hc, hcs⟩ := h.met x hnot.1
    rcases Nat.lt_trichotomy c d with hlt | rfl | hgt
    · exact (hbefore c hlt).2 hc
    · exact hnot.2 (hc.symm.trans hempty)
    · exact hcs d hgt hempty
  · rintro (hx | hx)
    · rcases hd with hd | hd
      · exact hd
      · exact (h.slot _).resolve_right (by rwa [hd])
    · rcases hd with hd | hd
      · exact hd
      · exact hd.trans hx

/-- The walk to an empty slot ends at one. -/
theorem walk_empty (h : Holds empty home table s) (hs : s.card ≤ n) (loc : Nat) :
    ∃ d, walk (fun y => decide (y = empty)) table (n + 1) loc = some (place (loc + d)) ∧
      (table.get (place (loc + d))) = empty ∧
      ∀ e < d, (table.get (place (loc + e))) ≠ empty := by
  obtain ⟨i, hi⟩ := h.exists_empty hs
  obtain ⟨d, hwalk, hd, hbefore⟩ :=
    walk_of_exists (fun y => decide (y = empty)) table ⟨i, by simp [hi]⟩ loc
  exact ⟨d, hwalk, of_decide_eq_true hd, fun e he => of_decide_eq_false (hbefore e he)⟩

end Holds

end Probing
