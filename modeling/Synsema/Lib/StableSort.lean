import Mathlib.Order.Lattice
import Mathlib.Order.Defs.LinearOrder

/-!
# Stable sorting

A list sorted by a key, with the elements of one key in their order.  It is the only such list
(`eq_of_filter`), so that what is sorted depends on the order of elements of one key alone.
-/

namespace StableSort

open List

variable {α β : Type*} [LinearOrder β] {key : α → β} {l l' : List α}

/-- The list sorted by a key. -/
def sortByKey (key : α → β) (l : List α) : List α := l.mergeSort fun a b => decide (key a ≤ key b)

theorem sortByKey_perm : (sortByKey key l).Perm l := mergeSort_perm ..

theorem sortByKey_sorted : (sortByKey key l).Pairwise fun a b => key a ≤ key b := by
  have hsorted : (sortByKey key l).Pairwise fun a b => decide (key a ≤ key b) = true :=
    pairwise_mergeSort
      (fun a b c hab hbc => by simp only [decide_eq_true_eq] at *; exact le_trans hab hbc)
      (fun a b => by simpa using le_total (key a) (key b)) l
  exact hsorted.imp of_decide_eq_true

variable [DecidableEq β]

theorem filter_sortByKey (k : β) : (sortByKey key l).filter (key · = k) = l.filter (key · = k) := by
  have hsub : (l.filter (key · = k)).Sublist (sortByKey key l) := by
    refine sublist_mergeSort
      (fun a b c hab hbc => by simp only [decide_eq_true_eq] at *; exact le_trans hab hbc)
      (fun a b => by simpa using le_total (key a) (key b)) ?_ filter_sublist
    refine pairwise_of_forall_mem_list fun a ha b hb => ?_
    simp only [mem_filter, decide_eq_true_eq] at ha hb ⊢
    exact le_of_eq (ha.2.trans hb.2.symm)
  have hself := hsub.filter (key · = k)
  rw [filter_filter] at hself
  simp only [Bool.and_self] at hself
  exact (hself.eq_of_length (sortByKey_perm.filter _).length_eq.symm).symm

theorem eq_of_filter (hl : l.Pairwise fun a b => key a ≤ key b)
    (hl' : l'.Pairwise fun a b => key a ≤ key b)
    (h : ∀ k, l.filter (key · = k) = l'.filter (key · = k)) : l = l' := by
  induction l generalizing l' with
  | nil =>
    refine (eq_nil_iff_forall_not_mem.mpr fun a ha => ?_).symm
    have hmem : a ∈ l'.filter (key · = key a) := mem_filter.mpr ⟨ha, decide_eq_true rfl⟩
    rw [← h] at hmem
    exact absurd hmem not_mem_nil
  | cons a l ih =>
    have hmem : ∀ {s t : List α}, (∀ k, s.filter (key · = k) = t.filter (key · = k)) →
        ∀ x ∈ s, x ∈ t := by
      intro s t hst x hx
      have hin : x ∈ s.filter (key · = key x) := mem_filter.mpr ⟨hx, decide_eq_true rfl⟩
      rw [hst] at hin
      exact (mem_filter.mp hin).1
    cases l' with
    | nil => exact absurd (hmem h a mem_cons_self) not_mem_nil
    | cons b l' =>
      obtain ⟨ha, htail⟩ := pairwise_cons.mp hl
      obtain ⟨hb, htail'⟩ := pairwise_cons.mp hl'
      have hab : key a = key b := by
        refine le_antisymm ?_ ?_
        · rcases List.mem_cons.mp (hmem (fun k => (h k).symm) b mem_cons_self) with rfl | hm
          · exact le_rfl
          · exact ha b hm
        · rcases List.mem_cons.mp (hmem h a mem_cons_self) with rfl | hm
          · exact le_rfl
          · exact hb a hm
      have hhead := h (key a)
      simp only [filter_cons, decide_true, decide_eq_true hab.symm, if_true] at hhead
      obtain ⟨rfl, hsame⟩ := cons.inj hhead
      refine congrArg (a :: ·) (ih htail htail' fun k => ?_)
      by_cases hk : key a = k
      · exact hk ▸ hsame
      · have hrest := h k
        simpa only [filter_cons, decide_eq_false hk, Bool.false_eq_true, if_false] using hrest

theorem sortByKey_congr (h : ∀ k, l.filter (key · = k) = l'.filter (key · = k)) :
    sortByKey key l = sortByKey key l' := by
  refine @eq_of_filter _ _ _ key _ _ _ sortByKey_sorted sortByKey_sorted fun k => ?_
  rw [filter_sortByKey, filter_sortByKey, h]

end StableSort
