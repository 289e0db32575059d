import Mathlib.Data.List.Sort
import Mathlib.Data.List.Dedup

/-!
# Sets as sorted lists

A finite set of an ordered type, kept as the strictly increasing list of its elements.  Two are
compared and united in one pass over both lists.  What the operations mean is said by membership
(`mem_union`, `subset_iff`), and two sets with the same elements are the same list (`ext`).
-/

universe u

/-- A strictly increasing list. -/
structure SortedSet (α : Type u) [LinearOrder α] where
  elems : List α
  sorted : elems.Pairwise (· < ·)
  deriving DecidableEq

namespace SortedSet

open List

variable {α : Type u} [LinearOrder α]

instance : Membership α (SortedSet α) := ⟨fun s a => a ∈ s.elems⟩

variable {s t : SortedSet α} {l a b : List α} {rest : List α → List α} {x : α}

theorem mem_def {a : α} : a ∈ s ↔ a ∈ s.elems := Iff.rfl

theorem eq_of_mem_iff {l' : List α} (hl : l.Pairwise (· < ·)) (hl' : l'.Pairwise (· < ·))
    (h : ∀ a, a ∈ l ↔ a ∈ l') : l = l' :=
  ((perm_ext_iff_of_nodup hl.nodup hl'.nodup).mpr h).eq_of_pairwise
    (fun _ _ _ _ h h' => absurd h' (lt_asymm h)) hl hl'

@[ext]
theorem ext (h : ∀ a, a ∈ s ↔ a ∈ t) : s = t := by
  obtain ⟨l, hl⟩ := s
  obtain ⟨l', hl'⟩ := t
  obtain rfl := eq_of_mem_iff hl hl' h
  rfl

/-- The set without elements. -/
def empty : SortedSet α := ⟨[], List.Pairwise.nil⟩

@[simp]
theorem not_mem_empty (a : α) : a ∉ (empty : SortedSet α) := not_mem_nil

/-- Has it no elements? -/
def isEmpty (s : SortedSet α) : Bool := s.elems.isEmpty

theorem isEmpty_iff : s.isEmpty ↔ s = empty := by
  rw [isEmpty, List.isEmpty_iff]
  exact ⟨fun h => ext fun a => by rw [mem_def, h]; rfl, fun h => by rw [h]; rfl⟩

/-- The elements of a list: sorted, each once. -/
def ofList (l : List α) : SortedSet α where
  elems := (l.insertionSort (· ≤ ·)).dedup
  sorted := by
    have hle := (pairwise_insertionSort (· ≤ ·) l).sublist (dedup_sublist _)
    exact (hle.and (nodup_dedup _)).imp fun h => lt_of_le_of_ne h.1 h.2

/-! ## Inclusion -/

/-- Does every element of one sorted list stand in the other? -/
def scan : List α → List α → Bool
  | [], _ => true
  | _ :: _, [] => false
  | x :: a, y :: b => if y < x then scan (x :: a) b else if y = x then scan a b else false

theorem scan_iff (ha : a.Pairwise (· < ·)) (hb : b.Pairwise (· < ·)) :
    scan a b = true ↔ ∀ x ∈ a, x ∈ b := by
  induction b generalizing a with
  | nil =>
    cases a with
    | nil => exact iff_of_true rfl fun x hx => hx
    | cons x a =>
      refine iff_of_false Bool.false_ne_true fun h => ?_
      exact not_mem_nil (h x mem_cons_self)
  | cons y b ih =>
    obtain ⟨hy, hb⟩ := pairwise_cons.mp hb
    cases a with
    | nil => exact iff_of_true rfl fun x hx => absurd hx not_mem_nil
    | cons x a =>
      obtain ⟨hx, ha'⟩ := pairwise_cons.mp ha
      rw [scan]
      by_cases hlt : y < x
      · -- everything that is asked for is larger than the first of the other list
        rw [if_pos hlt, ih ha hb]
        refine forall₂_congr fun z hz => ?_
        have hne : z ≠ y := by
          rintro rfl
          rcases List.mem_cons.mp hz with rfl | hz
          · exact lt_irrefl _ hlt
          · exact lt_asymm hlt (hx z hz)
        rw [List.mem_cons, or_iff_right hne]
      · rw [if_neg hlt]
        by_cases heq : y = x
        · subst heq
          rw [if_pos rfl, ih ha' hb, forall_mem_cons, and_iff_right mem_cons_self]
          refine forall₂_congr fun z hz => ?_
          rw [List.mem_cons, or_iff_right (hx z hz).ne']
        · rw [if_neg heq]
          refine iff_of_false Bool.false_ne_true fun h => ?_
          rcases List.mem_cons.mp (h x mem_cons_self) with hxy | hxb
          · exact heq hxy.symm
          · exact hlt (hy x hxb)

/-- Is one set part of the other? -/
def subset (s t : SortedSet α) : Bool := scan s.elems t.elems

theorem subset_iff : s.subset t ↔ ∀ a ∈ s, a ∈ t :=
  scan_iff s.sorted t.sorted

/-! ## Union -/

/-- One element before a list that is merged already. -/
def mergeInto (x : α) (a : List α) (rest : List α → List α) : List α → List α
  | [] => x :: a
  | y :: b =>
    if x < y then x :: rest (y :: b)
    else if y < x then y :: mergeInto x a rest b
    else x :: rest b

/-- Two sorted lists in one pass. -/
def merge : List α → List α → List α
  | [], b => b
  | x :: a, b => mergeInto x a (merge a) b

theorem mem_mergeInto (hrest : ∀ b z, z ∈ rest b ↔ z ∈ a ∨ z ∈ b) (b : List α) (z : α) :
    z ∈ mergeInto x a rest b ↔ z ∈ x :: a ∨ z ∈ b := by
  induction b with
  | nil => exact (or_iff_left not_mem_nil).symm
  | cons y b ih =>
    rw [mergeInto]
    by_cases hxy : x < y
    · rw [if_pos hxy, List.mem_cons, hrest, List.mem_cons (a := z) (b := x), or_assoc]
    · rw [if_neg hxy]
      by_cases hyx : y < x
      · rw [if_pos hyx, List.mem_cons, ih, List.mem_cons (b := y)]
        exact or_left_comm
      · obtain rfl := le_antisymm (not_lt.mp hyx) (not_lt.mp hxy)
        rw [if_neg hyx, List.mem_cons, hrest, List.mem_cons, List.mem_cons]
        tauto

theorem mem_merge {z : α} : z ∈ merge a b ↔ z ∈ a ∨ z ∈ b := by
  induction a generalizing b z with
  | nil => exact (or_iff_right not_mem_nil).symm
  | cons x a ih => exact mem_mergeInto (fun b z => ih) b z

theorem pairwise_mergeInto (ha : (x :: a).Pairwise (· < ·))
    (hmem : ∀ b z, z ∈ rest b ↔ z ∈ a ∨ z ∈ b)
    (hrest : ∀ b, b.Pairwise (· < ·) → (rest b).Pairwise (· < ·)) (hb : b.Pairwise (· < ·)) :
    (mergeInto x a rest b).Pairwise (· < ·) := by
  induction b with
  | nil => exact ha
  | cons y b ih =>
    obtain ⟨hx, -⟩ := pairwise_cons.mp ha
    obtain ⟨hy, hb'⟩ := pairwise_cons.mp hb
    rw [mergeInto]
    by_cases hxy : x < y
    · rw [if_pos hxy]
      refine pairwise_cons.mpr ⟨fun z hz => ?_, hrest _ hb⟩
      rcases (hmem _ z).mp hz with hz | hz
      · exact hx z hz
      · rcases List.mem_cons.mp hz with rfl | hz
        · exact hxy
        · exact hxy.trans (hy z hz)
    · rw [if_neg hxy]
      by_cases hyx : y < x
      · rw [if_pos hyx]
        refine pairwise_cons.mpr ⟨fun z hz => ?_, ih hb'⟩
        rcases (mem_mergeInto hmem b z).mp hz with hz | hz
        · rcases List.mem_cons.mp hz with rfl | hz
          · exact hyx
          · exact hyx.trans (hx z hz)
        · exact hy z hz
      · obtain rfl := le_antisymm (not_lt.mp hyx) (not_lt.mp hxy)
        rw [if_neg hyx]
        refine pairwise_cons.mpr ⟨fun z hz => ?_, hrest _ hb'⟩
        rcases (hmem b z).mp hz with hz | hz
        · exact hx z hz
        · exact hy z hz

theorem pairwise_merge {a b : List α} (ha : a.Pairwise (· < ·)) (hb : b.Pairwise (· < ·)) :
    (merge a b).Pairwise (· < ·) := by
  induction a generalizing b with
  | nil => exact hb
  | cons x a ih =>
    exact pairwise_mergeInto ha (fun b z => mem_merge)
      (fun b hb => ih (pairwise_cons.mp ha).2 hb) hb

/-- The elements of both.  Where one holds the other, it is the result as it stands. -/
def union (s t : SortedSet α) : SortedSet α :=
  if s.isEmpty ∨ s.subset t then t
  else if t.isEmpty ∨ t.subset s then s
  else ⟨merge s.elems t.elems, pairwise_merge s.sorted t.sorted⟩

@[simp]
theorem mem_union {a : α} : a ∈ s.union t ↔ a ∈ s ∨ a ∈ t := by
  have habsorb : ∀ {s t : SortedSet α}, s.isEmpty ∨ s.subset t → (a ∈ s → a ∈ t) := by
    rintro s t (h | h) ha
    · rw [isEmpty_iff.mp h] at ha
      exact absurd ha (not_mem_empty a)
    · exact subset_iff.mp h a ha
  rw [union]
  by_cases h : s.isEmpty ∨ s.subset t
  · rw [if_pos h]
    exact ⟨.inr, fun ha => ha.elim (habsorb h) id⟩
  · rw [if_neg h]
    by_cases h' : t.isEmpty ∨ t.subset s
    · rw [if_pos h']
      exact ⟨.inl, fun ha => ha.elim id (habsorb h')⟩
    · rw [if_neg h']
      exact mem_merge

theorem union_assoc (s t r : SortedSet α) : (s.union t).union r = s.union (t.union r) := by
  ext a
  simp only [mem_union, or_assoc]

@[simp]
theorem empty_union (s : SortedSet α) : empty.union s = s := by
  ext a
  rw [mem_union, or_iff_right (not_mem_empty a)]

@[simp]
theorem union_empty (s : SortedSet α) : s.union empty = s := by
  ext a
  rw [mem_union, or_iff_left (not_mem_empty a)]

end SortedSet
