import Mathlib.Data.List.Infix

/-!
# Lists cut at a separator

The first place where a list has another one within it, and the pieces between the places found
from left to right, none overlapping the one before.  A piece is known by what stands around it
(`exists_of_mem_pieces`); an element that the separator does not have keeps what stands on its two
sides apart (`pieces_append_barrier`).
-/

namespace Delimited

open List

variable {α : Type*} [DecidableEq α] {sep l a b : List α}

/-- What stands before the first `sep` and what stands behind it. -/
def cut (sep : List α) : List α → Option (List α × List α)
  | [] => if sep = [] then some ([], []) else none
  | x :: l =>
    if sep <+: x :: l then some ([], (x :: l).drop sep.length)
    else (cut sep l).map fun (a, b) => (x :: a, b)

/-- Behind `a` the first `sep` of `a ++ sep` stands. -/
def Clear (sep a : List α) : Prop := ∀ u v, a ++ sep = u ++ sep ++ v → v = []

/-! ## The first place -/

theorem cut_eq_none_iff : cut sep l = none ↔ ¬ sep <:+: l := by
  induction l with
  | nil => simp [cut]
  | cons x l ih =>
    rw [cut, infix_cons_iff, not_or]
    split
    next h => simp [h]
    next h => simp [h, ih]

omit [DecidableEq α] in
theorem Clear.tail {x : α} (h : Clear sep (x :: a)) : Clear sep a := fun u v hu =>
  h (x :: u) v (congrArg (List.cons x) hu)

omit [DecidableEq α] in
theorem Clear.not_prefix {x : α} (h : Clear sep (x :: a)) (b : List α) :
    ¬ sep <+: x :: (a ++ sep ++ b) := by
  rintro hpre
  have hle : sep.length ≤ (x :: a ++ sep).length := by
    rw [length_append]
    exact Nat.le_add_left _ _
  obtain ⟨v, hv⟩ := prefix_of_prefix_length_le hpre (prefix_append (x :: a ++ sep) b) hle
  have hnil := h [] v hv.symm
  rw [hnil, append_nil] at hv
  have := congrArg List.length hv
  simp only [length_append, length_cons] at this
  omega

theorem cut_append (h : Clear sep a) (b : List α) : cut sep (a ++ sep ++ b) = some (a, b) := by
  induction a with
  | nil =>
    rw [nil_append]
    cases hl : sep ++ b with
    | nil =>
      obtain ⟨rfl, rfl⟩ := append_eq_nil_iff.mp hl
      rfl
    | cons x l =>
      rw [cut, if_pos (hl ▸ prefix_append sep b), ← hl, drop_left]
  | cons x a ih =>
    rw [cons_append, cons_append, cut, if_neg (h.not_prefix b), ih h.tail]
    rfl

theorem eq_of_cut (h : cut sep l = some (a, b)) : l = a ++ sep ++ b := by
  induction l generalizing a with
  | nil =>
    rw [cut] at h
    split at h
    next hnil =>
      cases h
      rw [hnil]
      rfl
    next => cases h
  | cons x l ih =>
    rw [cut] at h
    split at h
    next hpre =>
      obtain ⟨v, hv⟩ := hpre
      cases h
      rw [← hv, drop_left, nil_append]
    next =>
      obtain ⟨⟨a', b'⟩, hcut, hab⟩ := Option.map_eq_some_iff.mp h
      cases hab
      rw [ih hcut]
      rfl

theorem clear_of_cut (h : cut sep l = some (a, b)) : Clear sep a := by
  induction l generalizing a with
  | nil =>
    intro u v hu
    have hl := eq_of_cut h
    rw [eq_comm, append_eq_nil_iff, append_eq_nil_iff] at hl
    rw [hl.1.1, hl.1.2, append_nil, eq_comm] at hu
    exact (append_eq_nil_iff.mp hu).2
  | cons x l ih =>
    rw [cut] at h
    split at h
    next hpre =>
      cases h
      intro u v hu
      have hlen := congrArg List.length hu
      simp only [nil_append, length_append] at hlen
      exact length_eq_zero_iff.mp (by omega)
    next hpre =>
      obtain ⟨⟨a', b'⟩, hcut, hab⟩ := Option.map_eq_some_iff.mp h
      cases hab
      intro u v hu
      cases u with
      | nil =>
        refine absurd ?_ hpre
        have hl := eq_of_cut hcut
        rw [hl, ← cons_append, ← cons_append, hu, nil_append]
        exact (prefix_append sep v).trans (prefix_append _ _)
      | cons y u => exact ih hcut u v (cons.inj hu).2

theorem cut_eq_some_iff : cut sep l = some (a, b) ↔ l = a ++ sep ++ b ∧ Clear sep a :=
  ⟨fun h => ⟨eq_of_cut h, clear_of_cut h⟩, fun ⟨hl, h⟩ => hl ▸ cut_append h b⟩

theorem length_le_of_cut {u v : List α} (h : cut sep l = some (a, b)) (hl : l = u ++ sep ++ v) :
    a.length ≤ u.length := by
  obtain ⟨hab, hclear⟩ := cut_eq_some_iff.mp h
  by_contra hlt
  have hpre : u ++ sep <+: a ++ sep :=
    prefix_of_prefix_length_le (hl ▸ prefix_append _ v) (hab ▸ prefix_append _ b)
      (by simp only [length_append]; omega)
  obtain ⟨w, hw⟩ := hpre
  have hnil := hclear u w hw.symm
  rw [hnil, append_nil] at hw
  have := congrArg List.length hw
  simp only [length_append] at this
  omega

/-! ## The pieces -/

/-- The pieces between the places where `sep` stands. -/
def pieces (sep l : List α) : List (List α) :=
  match _hcut : cut sep l with
  | none => [l]
  | some (a, b) => if _hsep : sep = [] then [l] else a :: pieces sep b
  termination_by l.length
  decreasing_by
    rw [eq_of_cut _hcut]
    have := length_pos_iff.mpr _hsep
    simp only [length_append]
    omega

theorem pieces_eq_singleton (h : ¬ sep <:+: l) : pieces sep l = [l] := by
  rw [pieces]
  split
  next => rfl
  next hcut => exact absurd (cut_eq_none_iff.mpr h) (by rw [hcut]; exact Option.some_ne_none _)

theorem pieces_of_cut (hsep : sep ≠ []) (h : cut sep l = some (a, b)) :
    pieces sep l = a :: pieces sep b := by
  rw [pieces]
  split
  next hcut => exact absurd (h.symm.trans hcut) (Option.some_ne_none _)
  next hcut =>
    cases h.symm.trans hcut
    rw [dif_neg hsep]

theorem pieces_append (hsep : sep ≠ []) (h : Clear sep a) (b : List α) :
    pieces sep (a ++ sep ++ b) = a :: pieces sep b := pieces_of_cut hsep (cut_append h b)

theorem pieces_cases (hsep : sep ≠ []) (l : List α) :
    (¬ sep <:+: l ∧ pieces sep l = [l]) ∨
      ∃ a b, l = a ++ sep ++ b ∧ Clear sep a ∧ pieces sep l = a :: pieces sep b := by
  cases hcut : cut sep l with
  | none =>
    have hnot := cut_eq_none_iff.mp hcut
    exact .inl ⟨hnot, pieces_eq_singleton hnot⟩
  | some ab =>
    obtain ⟨a, b⟩ := ab
    obtain ⟨hl, hclear⟩ := cut_eq_some_iff.mp hcut
    exact .inr ⟨a, b, hl, hclear, pieces_of_cut hsep hcut⟩

theorem pieces_ne_nil (sep l : List α) : pieces sep l ≠ [] := by
  rw [pieces]
  split
  · exact cons_ne_nil _ _
  · split
    · exact cons_ne_nil _ _
    · exact cons_ne_nil _ _

theorem pieces_induction (hsep : sep ≠ []) {P : List α → Prop} (whole : ∀ l, ¬ sep <:+: l → P l)
    (cut : ∀ a b, Clear sep a → P b → P (a ++ sep ++ b)) (l : List α) : P l := by
  induction hn : l.length using Nat.strong_induction_on generalizing l with
  | _ n ih =>
    subst hn
    rcases pieces_cases hsep l with ⟨hnot, -⟩ | ⟨a, b, rfl, hclear, -⟩
    · exact whole l hnot
    · refine cut a b hclear (ih _ ?_ b rfl)
      have := length_pos_iff.mpr hsep
      simp only [length_append]
      omega

theorem exists_of_mem_pieces (hsep : sep ≠ []) (h : a ∈ pieces sep l) :
    ∃ x y, l = x ++ a ++ y ∧ (x = [] ∨ sep <:+ x) ∧ (y = [] ∨ sep <+: y) := by
  induction l using pieces_induction hsep generalizing a with
  | whole l hnot =>
    rw [pieces_eq_singleton hnot, mem_singleton] at h
    subst h
    exact ⟨[], [], by simp, .inl rfl, .inl rfl⟩
  | cut c b hclear ih =>
    rw [pieces_append hsep hclear, List.mem_cons] at h
    rcases h with rfl | h
    · exact ⟨[], sep ++ b, by simp, .inl rfl, .inr (prefix_append _ _)⟩
    · obtain ⟨x, y, rfl, hx, hy⟩ := ih h
      refine ⟨c ++ sep ++ x, y, by simp only [append_assoc], .inr ?_, hy⟩
      rcases hx with rfl | hx
      · rw [append_nil]
        exact suffix_append _ _
      · exact hx.trans (suffix_append _ _)

theorem not_infix_of_mem_pieces (hsep : sep ≠ []) (h : a ∈ pieces sep l) : ¬ sep <:+: a := by
  induction l using pieces_induction hsep generalizing a with
  | whole l hnot =>
    rw [pieces_eq_singleton hnot, mem_singleton] at h
    exact h ▸ hnot
  | cut c b hclear ih =>
    rw [pieces_append hsep hclear, List.mem_cons] at h
    rcases h with rfl | h
    · rintro ⟨u, v, huv⟩
      have hnil := hclear u (v ++ sep) (by rw [← huv]; simp only [append_assoc])
      exact hsep (append_eq_nil_iff.mp hnil).2
    · exact ih h

/-! ## An element that the separator does not have -/

variable {z : α}

omit [DecidableEq α] in
theorem clear_of_absent (hz : z ∉ sep) (h : ¬ sep <:+: a ++ [z]) : Clear sep (a ++ [z]) := by
  intro u v huv
  rcases append_eq_append_iff.mp huv with ⟨w, hu, hsep⟩ | ⟨w, ha, -⟩
  · rw [append_assoc] at hu
    rcases append_eq_append_iff.mp hu with ⟨w', -, hs⟩ | ⟨w', -, hs⟩
    · have hmem : z ∈ w' ++ ([z] ++ w) := by simp
      exact absurd (hs ▸ hmem) hz
    · cases w' with
      | nil =>
        have hmem : z ∈ [z] ++ w := by simp
        rw [hs] at hmem
        exact absurd hmem hz
      | cons y w' =>
        have hlen := congrArg List.length hs
        have hlen' := congrArg List.length hsep
        simp only [length_append, length_cons, length_nil] at hlen hlen'
        exact length_eq_zero_iff.mp (by omega)
  · exact absurd ⟨u, w, ha.symm⟩ h

theorem pieces_append_barrier (hsep : sep ≠ []) (hz : z ∉ sep) (a b : List α) :
    pieces sep (a ++ [z] ++ sep ++ b) = pieces sep (a ++ [z]) ++ pieces sep b := by
  induction hl : a ++ [z] using pieces_induction hsep generalizing a with
  | whole l hnot =>
    subst hl
    rw [pieces_append hsep (clear_of_absent hz hnot), pieces_eq_singleton hnot, singleton_append]
  | cut c l hclear ih =>
    rcases eq_nil_or_concat l with rfl | ⟨l, y, rfl⟩
    · rw [append_nil] at hl
      have hlast := congrArg List.getLast? hl
      rw [getLast?_concat, getLast?_append_of_ne_nil _ hsep] at hlast
      exact absurd (mem_of_getLast? hlast.symm) hz
    · rw [concat_eq_append] at hl ih ⊢
      rw [← append_assoc] at hl
      obtain ⟨-, hzy⟩ := append_inj' hl rfl
      obtain rfl : z = y := singleton_inj.mp hzy
      rw [pieces_append hsep hclear, cons_append, ← ih l rfl, ← pieces_append hsep hclear]
      simp only [append_assoc]

/-! ## What stands before cannot begin the separator -/

variable {y : α} {s : List α}

omit [DecidableEq α] in
@[simp]
theorem clear_nil : Clear sep [] := by
  intro u v huv
  have hlen := congrArg List.length huv
  simp only [nil_append, length_append] at hlen
  exact length_eq_zero_iff.mp (by omega)

omit [DecidableEq α] in
theorem Clear.append (hl : y ∉ l) (h : Clear (y :: s) a) : Clear (y :: s) (l ++ a) := by
  induction l with
  | nil => exact h
  | cons x l ih =>
    intro u v huv
    cases u with
    | nil => exact absurd (cons.inj huv).1 (fun he => hl (he ▸ mem_cons_self))
    | cons x' u =>
      exact ih (fun hy => hl (mem_cons_of_mem x hy)) u v (cons.inj huv).2

omit [DecidableEq α] in
theorem infix_of_infix_append (hl : y ∉ l) (h : y :: s <:+: l ++ a) : y :: s <:+: a := by
  induction l with
  | nil => exact h
  | cons x l ih =>
    rcases infix_cons_iff.mp h with hpre | h
    · exact absurd (cons_prefix_cons.mp hpre).1 (fun he => hl (he ▸ mem_cons_self))
    · exact ih (fun hy => hl (mem_cons_of_mem x hy)) h

end Delimited
