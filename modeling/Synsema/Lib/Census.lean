import Mathlib.Data.List.Nodup
import Mathlib.Data.List.Count
import Mathlib.Algebra.Order.BigOperators.Group.List
import Mathlib.Algebra.Order.Ring.Int

/-!
# Counting participants

Participants in a list, each in some state, with a place of its own that it keeps.  A counter that
is raised and lowered as participants come into the states of a set and leave them is their number
(`census`), or the sum of what each of them adds (`tally`); a list to which a participant is added when it comes into such a state, and from which
it is removed when it leaves, holds their places (`Roster`).
-/

universe u v

namespace Census

open List

variable {σ : Type u}

/-- How many participants are in a state of `p`. -/
def census (p : σ → Bool) (l : List σ) : Nat := l.countP p

@[simp]
theorem census_nil (p : σ → Bool) : census p [] = 0 := rfl

theorem census_join (p : σ → Bool) (l : List σ) (x : σ) :
    census p (l ++ [x]) = census p l + (p x).toNat := by
  rw [census, countP_append, countP_singleton, census]
  cases p x with
  | true | false => rfl

variable {i : Nat} {x : σ}

theorem census_move (p : σ → Bool) {l : List σ} (h : l[i]? = some x) (y : σ) :
    census p (l.set i y) + (p x).toNat = census p l + (p y).toNat := by
  induction l generalizing i with
  | nil => cases h
  | cons z l ih =>
    cases i with
    | zero =>
      cases h
      simp only [census, set_cons_zero, countP_cons]
      cases p x with
      | true | false => cases p y <;> simp
    | succ i =>
      have hrest := ih (i := i) (by simpa using h)
      simp only [census, set_cons_succ, countP_cons] at hrest ⊢
      omega

theorem census_pos {p : σ → Bool} {l : List σ} (h : l[i]? = some x) (hx : p x) : 0 < census p l :=
  countP_pos_iff.mpr ⟨x, mem_of_getElem? h, hx⟩

theorem census_eq_zero {p : σ → Bool} {l : List σ} : census p l = 0 ↔ ∀ x ∈ l, p x = false := by
  rw [census, countP_eq_zero]
  exact forall₂_congr fun x _ => iff_of_eq (Bool.not_eq_true (p x))

theorem exists_of_census_pos {p : σ → Bool} {l : List σ} (h : 0 < census p l) :
    ∃ (i : Nat) (x : σ), l[i]? = some x ∧ p x = true := by
  obtain ⟨x, hx, hpx⟩ := countP_pos_iff.mp h
  obtain ⟨i, hi⟩ := mem_iff_getElem?.mp hx
  exact ⟨i, x, hi, hpx⟩

/-! ## Tallies -/

section Tally

variable {M : Type v} [AddCommMonoid M]

/-- What the participants add up to. -/
def tally (w : σ → M) (l : List σ) : M := (l.map w).sum

@[simp]
theorem tally_nil (w : σ → M) : tally w [] = 0 := rfl

theorem tally_append (w : σ → M) (l l' : List σ) : tally w (l ++ l') = tally w l + tally w l' := by
  rw [tally, map_append, sum_append, tally, tally]

theorem tally_join (w : σ → M) (l : List σ) (x : σ) : tally w (l ++ [x]) = tally w l + w x := by
  rw [tally_append]
  exact congrArg (tally w l + ·) (add_zero (w x))

theorem tally_move (w : σ → M) {l : List σ} {i : Nat} {x : σ} (h : l[i]? = some x) (y : σ) :
    tally w (l.set i y) + w x = tally w l + w y := by
  induction l generalizing i with
  | nil => cases h
  | cons z l ih =>
    cases i with
    | zero =>
      cases h
      simp only [tally, set_cons_zero, map_cons, sum_cons]
      rw [add_comm (w y), add_right_comm, add_comm _ (w x)]
    | succ i =>
      have hrest := ih (i := i) (by simpa using h)
      simp only [tally, set_cons_succ, map_cons, sum_cons] at hrest ⊢
      rw [add_assoc, hrest, add_assoc]

theorem tally_eq_zero {w : σ → M} {l : List σ} (h : ∀ x ∈ l, w x = 0) : tally w l = 0 := by
  apply sum_eq_zero
  intro m hm
  obtain ⟨x, hx, rfl⟩ := mem_map.mp hm
  exact h x hx

end Tally

theorem le_tally {w : σ → Int} (hw : ∀ x, 0 ≤ w x) {l : List σ} (h : l[i]? = some x) :
    w x ≤ tally w l := by
  apply single_le_sum
  · intro m hm
    obtain ⟨y, -, rfl⟩ := mem_map.mp hm
    exact hw y
  · exact mem_map.mpr ⟨x, mem_of_getElem? h, rfl⟩

theorem census_eq_tally (p : σ → Bool) (l : List σ) :
    (census p l : Int) = tally (fun x => ((p x).toNat : Int)) l := by
  induction l with
  | nil => rfl
  | cons x l ih =>
    have hcons : tally (fun x => ((p x).toNat : Int)) (x :: l) =
        (p x).toNat + tally (fun x => ((p x).toNat : Int)) l := rfl
    rw [hcons, ← ih, census, countP_cons, census]
    cases p x with
    | true => simp [Int.add_comm]
    | false => simp

theorem tally_eq_census {p : σ → Bool} {w : σ → Nat} {l : List σ}
    (h : ∀ x ∈ l, w x = (p x).toNat) : tally w l = census p l := by
  induction l with
  | nil => rfl
  | cons x l ih =>
    have hcons : tally w (x :: l) = w x + tally w l := rfl
    rw [hcons, h x mem_cons_self, ih fun y hy => h y (mem_cons_of_mem _ hy), Nat.add_comm]
    change _ = List.countP p (x :: l)
    rw [countP_cons, census]
    cases p x with
    | true | false => rfl

/-! ## Rosters -/

/-- The places of the participants in a state of `p`, each once. -/
structure Roster (p : σ → Bool) (l : List σ) (places : List Nat) : Prop where
  nodup : places.Nodup
  mem_iff : ∀ i, i ∈ places ↔ ∃ x, l[i]? = some x ∧ p x = true

namespace Roster

variable {p : σ → Bool} {l : List σ} {places : List Nat}

theorem nil (p : σ → Bool) : Roster p ([] : List σ) [] := ⟨nodup_nil, by simp⟩

variable {x y : σ} {i : Nat}

theorem join (h : Roster p l places) (hx : p x = false) : Roster p (l ++ [x]) places := by
  refine ⟨h.nodup, fun i => (h.mem_iff i).trans ?_⟩
  rw [getElem?_append]
  split
  · rfl
  · rename_i hi
    rw [getElem?_eq_none (Nat.not_lt.mp hi)]
    constructor
    · rintro ⟨y, hy, -⟩
      cases hy
    · rintro ⟨y, hy, hpy⟩
      have hyx : y = x := by
        have hmem := mem_of_getElem? hy
        simpa using hmem
      rw [hyx, hx] at hpy
      cases hpy

theorem set_iff (hi : l[i]? = some x) (y : σ) (j : Nat) :
    (∃ z, (l.set i y)[j]? = some z ∧ p z) ↔
      (j = i ∧ p y) ∨ (j ≠ i ∧ ∃ z, l[j]? = some z ∧ p z) := by
  by_cases hj : j = i
  · subst hj
    have hlt : j < l.length := (List.getElem?_eq_some_iff.mp hi).1
    simp [hlt]
  · rw [getElem?_set_ne (Ne.symm hj)]
    simp [hj]

theorem stay (h : Roster p l places) (hi : l[i]? = some x) (hxy : p x = p y) :
    Roster p (l.set i y) places := by
  refine ⟨h.nodup, fun j => ?_⟩
  rw [h.mem_iff, set_iff hi]
  by_cases hj : j = i
  · subst hj
    simp [hi, hxy]
  · simp [hj]

theorem enter (h : Roster p l places) (hi : l[i]? = some x) (hx : p x = false) (hy : p y) :
    Roster p (l.set i y) (places ++ [i]) := by
  have hnew : i ∉ places := by
    rw [h.mem_iff]
    rintro ⟨z, hz, hpz⟩
    rw [hi] at hz
    cases hz
    rw [hx] at hpz
    cases hpz
  refine ⟨?_, fun j => ?_⟩
  · rw [nodup_append]
    refine ⟨h.nodup, nodup_singleton i, ?_⟩
    rintro a ha b hb rfl
    rw [mem_singleton.mp hb] at ha
    exact hnew ha
  · rw [mem_append, mem_singleton, h.mem_iff, set_iff hi]
    by_cases hj : j = i
    · subst hj
      simp [hy]
    · simp [hj]

theorem leave (h : Roster p l places) (hi : l[i]? = some x) (hy : p y = false) :
    Roster p (l.set i y) (places.filter (· ≠ i)) := by
  refine ⟨h.nodup.filter _, fun j => ?_⟩
  rw [mem_filter, h.mem_iff, set_iff hi]
  by_cases hj : j = i
  · subst hj
    simp [hy]
  · simp [hj]

theorem eq_nil (h : Roster p l places) (hnone : ∀ x ∈ l, p x = false) : places = [] := by
  apply eq_nil_iff_forall_not_mem.mpr
  intro i hi
  obtain ⟨x, hx, hpx⟩ := (h.mem_iff i).mp hi
  rw [hnone x (mem_of_getElem? hx)] at hpx
  cases hpx

end Roster

end Census
