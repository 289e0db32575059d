import Mathlib.Data.Fintype.Card

/-!
# Tickets from a shared counter

Several workers draw *tickets*, the numbers of a shared counter.  A worker holds at most
one ticket; it may *spend* the ticket it holds, once, and then release it to draw the
next one, or keep it unspent for ever.

Whatever the order of the moves, a ticket is spent at most once, a ticket that was drawn
is spent or still held, and the unspent tickets below a spent one are held by other
workers than the one that spent it: there are fewer of them than workers
(`Inv.card_unspent_lt`).
-/

universe u

namespace Tickets

open List

variable {W : Type u}

/-- The counter, the ticket each worker holds, with whether it is spent, and the spent
tickets in the order of their spending. -/
structure Desk (W : Type u) where
  next : Nat
  held : W → Option (Nat × Bool)
  spent : List Nat

/-- No ticket drawn. -/
def Desk.initial : Desk W := { next := 0, held := fun _ => none, spent := [] }

/-- What a worker can do at the desk. -/
inductive Move [DecidableEq W] (D : Desk W) : Desk W → Prop
  | stay : Move D D
  | draw (w : W) (h : D.held w = none) :
      Move D { D with next := D.next + 1, held := Function.update D.held w (some (D.next, false)) }
  | spend (w : W) (i : Nat) (h : D.held w = some (i, false)) :
      Move D { D with
        held := Function.update D.held w (some (i, true)), spent := D.spent ++ [i] }
  | release (w : W) (i : Nat) (h : D.held w = some (i, true)) :
      Move D { D with held := Function.update D.held w none }

/-- What holds whatever the workers did. -/
structure Inv (D : Desk W) : Prop where
  held_lt : ∀ w i b, D.held w = some (i, b) → i < D.next
  held_inj : ∀ w w' i b b', D.held w = some (i, b) → D.held w' = some (i, b') → w = w'
  spent_lt : ∀ i ∈ D.spent, i < D.next
  spent_nodup : D.spent.Nodup
  held_spent : ∀ w i b, D.held w = some (i, b) → (b = true ↔ i ∈ D.spent)
  /-- A ticket that was drawn is held or spent. -/
  cover : ∀ i < D.next, (∃ w b, D.held w = some (i, b)) ∨ i ∈ D.spent
  /-- Who spent a ticket holds it, a later one, or none. -/
  later : ∀ i ∈ D.spent, ∃ w, ∀ k b, D.held w = some (k, b) → i ≤ k

theorem inv_initial : Inv (Desk.initial : Desk W) := by
  constructor <;> simp [Desk.initial]

/-! ## Moves keep the invariant -/

variable [DecidableEq W]

variable {w : W} {D : Desk W} {i : Nat}

theorem update_eq_some_iff {f : W → Option (Nat × Bool)} {w' : W} {v : Option (Nat × Bool)}
    {k : Nat} {b : Bool} :
    Function.update f w v w' = some (k, b) ↔
      (w' = w ∧ v = some (k, b)) ∨ (w' ≠ w ∧ f w' = some (k, b)) := by
  by_cases hw : w' = w
  · subst hw
    simp
  · simp [hw]

theorem Inv.draw (hi : Inv D) (h : D.held w = none) :
    Inv { D with next := D.next + 1, held := Function.update D.held w (some (D.next, false)) } := by
  obtain ⟨hlt, hinj, hslt, hnodup, hspent, hcover, hlater⟩ := hi
  -- the ticket is new: nobody holds it, and it is not spent
  have hheld : ∀ w' k b, Function.update D.held w (some (D.next, false)) w' = some (k, b) →
      (w' = w ∧ k = D.next ∧ b = false) ∨ (w' ≠ w ∧ D.held w' = some (k, b)) := by
    intro w' k b hk
    rcases update_eq_some_iff.mp hk with ⟨hw, hv⟩ | hne
    · cases hv
      exact .inl ⟨hw, rfl, rfl⟩
    · exact .inr hne
  constructor
  · intro w' k b hk
    rcases hheld w' k b hk with ⟨-, rfl, -⟩ | ⟨-, hk'⟩
    · exact Nat.lt_succ_self _
    · exact (hlt w' k b hk').trans (Nat.lt_succ_self _)
  · intro w₁ w₂ k b₁ b₂ h₁ h₂
    rcases hheld w₁ k b₁ h₁ with ⟨rfl, rfl, -⟩ | ⟨-, h₁'⟩
    · rcases hheld w₂ _ b₂ h₂ with ⟨rfl, -, -⟩ | ⟨-, h₂'⟩
      · rfl
      · exact absurd (hlt w₂ _ b₂ h₂') (Nat.lt_irrefl _)
    · rcases hheld w₂ k b₂ h₂ with ⟨-, rfl, -⟩ | ⟨-, h₂'⟩
      · exact absurd (hlt w₁ _ b₁ h₁') (Nat.lt_irrefl _)
      · exact hinj w₁ w₂ k b₁ b₂ h₁' h₂'
  · exact fun i hs => (hslt i hs).trans (Nat.lt_succ_self _)
  · exact hnodup
  · intro w' k b hk
    rcases hheld w' k b hk with ⟨-, rfl, rfl⟩ | ⟨-, hk'⟩
    · have hfresh : D.next ∉ D.spent := fun hm => Nat.lt_irrefl _ (hslt _ hm)
      simp [hfresh]
    · exact hspent w' k b hk'
  · intro k hk
    by_cases hnext : k = D.next
    · subst hnext
      exact .inl ⟨w, false, update_eq_some_iff.mpr (.inl ⟨rfl, rfl⟩)⟩
    · have hk' : k < D.next := lt_of_le_of_ne (Nat.lt_succ_iff.mp hk) hnext
      refine (hcover k hk').imp_left ?_
      rintro ⟨w', b, hw'⟩
      have hne : w' ≠ w := by
        rintro rfl
        rw [h] at hw'
        cases hw'
      exact ⟨w', b, update_eq_some_iff.mpr (.inr ⟨hne, hw'⟩)⟩
  · intro k hs
    obtain ⟨w', hw'⟩ := hlater k hs
    refine ⟨w', ?_⟩
    intro j b hj
    rcases hheld w' j b hj with ⟨-, rfl, -⟩ | ⟨-, hj'⟩
    · exact (hslt k hs).le
    · exact hw' j b hj'

theorem Inv.spend (hi : Inv D) (h : D.held w = some (i, false)) :
    Inv { D with held := Function.update D.held w (some (i, true)), spent := D.spent ++ [i] } := by
  obtain ⟨hlt, hinj, hslt, hnodup, hspent, hcover, hlater⟩ := hi
  have hfresh : i ∉ D.spent := by simpa using (hspent w i false h).not.mp (by simp)
  have hheld : ∀ w' k b, Function.update D.held w (some (i, true)) w' = some (k, b) →
      ∃ b', D.held w' = some (k, b') := by
    intro w' k b hk
    rcases update_eq_some_iff.mp hk with ⟨rfl, hv⟩ | ⟨-, hk'⟩
    · cases hv
      exact ⟨false, h⟩
    · exact ⟨b, hk'⟩
  constructor
  · intro w' k b hk
    obtain ⟨b', hk'⟩ := hheld w' k b hk
    exact hlt w' k b' hk'
  · intro w₁ w₂ k b₁ b₂ h₁ h₂
    obtain ⟨b₁', h₁'⟩ := hheld w₁ k b₁ h₁
    obtain ⟨b₂', h₂'⟩ := hheld w₂ k b₂ h₂
    exact hinj w₁ w₂ k b₁' b₂' h₁' h₂'
  · intro k hk
    rcases mem_append.mp hk with hk | hk
    · exact hslt k hk
    · rw [mem_singleton.mp hk]
      exact hlt w i false h
  · show (D.spent ++ [i]).Nodup
    rw [nodup_append]
    refine ⟨hnodup, nodup_singleton i, ?_⟩
    rintro a ha b hb rfl
    exact hfresh (mem_singleton.mp hb ▸ ha)
  · intro w' k b hk
    show b = true ↔ k ∈ D.spent ++ [i]
    rcases update_eq_some_iff.mp hk with ⟨-, hv⟩ | ⟨hw, hk'⟩
    · cases hv
      simp
    · have hne : k ≠ i := by
        rintro rfl
        exact hw (hinj w' w k b false hk' h)
      simp [hspent w' k b hk', hne]
  · intro k hk
    by_cases hki : k = i
    · exact .inr (mem_append_right _ (mem_singleton.mpr hki))
    · rcases hcover k hk with ⟨w', b, hw'⟩ | hs
      · have hne : w' ≠ w := by
          rintro rfl
          rw [h] at hw'
          cases hw'
          exact hki rfl
        exact .inl ⟨w', b, update_eq_some_iff.mpr (.inr ⟨hne, hw'⟩)⟩
      · exact .inr (mem_append_left _ hs)
  · intro k hk
    rcases mem_append.mp hk with hk | hk
    · obtain ⟨w', hw'⟩ := hlater k hk
      refine ⟨w', ?_⟩
      intro j b hj
      obtain ⟨b', hj'⟩ := hheld w' j b hj
      exact hw' j b' hj'
    · rw [mem_singleton.mp hk]
      refine ⟨w, ?_⟩
      intro j b hj
      rcases update_eq_some_iff.mp hj with ⟨-, hv⟩ | ⟨hw, -⟩
      · cases hv
        exact le_rfl
      · exact absurd rfl hw

theorem Inv.release (hi : Inv D) (h : D.held w = some (i, true)) :
    Inv { D with held := Function.update D.held w none } := by
  obtain ⟨hlt, hinj, hslt, hnodup, hspent, hcover, hlater⟩ := hi
  have hheld : ∀ w' k b, Function.update D.held w none w' = some (k, b) →
      D.held w' = some (k, b) := by
    intro w' k b hk
    rcases update_eq_some_iff.mp hk with ⟨-, hv⟩ | ⟨-, hk'⟩
    · cases hv
    · exact hk'
  constructor
  · exact fun w' k b hk => hlt w' k b (hheld w' k b hk)
  · exact fun w₁ w₂ k b₁ b₂ h₁ h₂ => hinj w₁ w₂ k b₁ b₂ (hheld _ _ _ h₁) (hheld _ _ _ h₂)
  · exact hslt
  · exact hnodup
  · exact fun w' k b hk => hspent w' k b (hheld w' k b hk)
  · intro k hk
    rcases hcover k hk with ⟨w', b, hw'⟩ | hs
    · by_cases hw : w' = w
      · subst hw
        rw [h] at hw'
        cases hw'
        exact .inr ((hspent _ _ true h).mp rfl)
      · exact .inl ⟨w', b, update_eq_some_iff.mpr (.inr ⟨hw, hw'⟩)⟩
    · exact .inr hs
  · intro k hk
    obtain ⟨w', hw'⟩ := hlater k hk
    exact ⟨w', fun j b hj => hw' j b (hheld w' j b hj)⟩

theorem Inv.move {D' : Desk W} (hi : Inv D) (h : Move D D') : Inv D' := by
  cases h with
  | stay => exact hi
  | draw w h => exact hi.draw h
  | spend w i h => exact hi.spend h
  | release w i h => exact hi.release h

/-! ## Counting -/

theorem Inv.card_unspent_lt [Fintype W] (hi : Inv D) (hall : ∀ w, ∃ k, D.held w = some (k, false))
    (hs : i ∈ D.spent) (S : Finset Nat) (hS : ∀ j ∈ S, j < i ∧ j ∉ D.spent) :
    S.card < Fintype.card W := by
  obtain ⟨w₀, hw₀⟩ := hi.later i hs
  choose ticket hticket using hall
  -- each of them is in other hands than those that spent `i`
  have hsub : S ⊆ (Finset.univ.erase w₀).image ticket := by
    intro j hj
    obtain ⟨hji, hjs⟩ := hS j hj
    rcases hi.cover j (hji.trans (hi.spent_lt i hs)) with ⟨w, b, hw⟩ | hj'
    · have hk : ticket w = j := by
        have := (hticket w).symm.trans hw
        simp only [Option.some.injEq, Prod.mk.injEq] at this
        exact this.1
      have hne : w ≠ w₀ := by
        rintro rfl
        exact absurd (hw₀ j b hw) (Nat.not_le.mpr hji)
      exact Finset.mem_image.mpr ⟨w, Finset.mem_erase.mpr ⟨hne, Finset.mem_univ w⟩, hk⟩
    · exact absurd hj' hjs
  calc S.card ≤ ((Finset.univ.erase w₀).image ticket).card := Finset.card_le_card hsub
    _ ≤ (Finset.univ.erase w₀).card := Finset.card_image_le
    _ < Fintype.card W := by
      rw [Finset.card_erase_of_mem (Finset.mem_univ w₀), Finset.card_univ]
      exact Nat.sub_lt (Fintype.card_pos_iff.mpr ⟨w₀⟩) Nat.one_pos

end Tickets
