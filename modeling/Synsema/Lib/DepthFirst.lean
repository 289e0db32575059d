import Mathlib.Data.List.Nodup
import Mathlib.Data.Set.Basic

/-!
# Depth-first searches that find cycles

A search along a relation keeps what it has seen, and a stack of what it has entered and not left.
What is seen and not on the stack is done: so is all that it leads to, and it does not lead back to
itself.  `Visits R seen stack B seen'` is what a search from each of `B` does to what is seen.
-/

universe u

namespace DepthFirst

open List

open Relation (ReflTransGen TransGen)

variable {α : Type u} {R : α → α → Prop} {seen seen' seen'' stack : List α} {a b : α} {B C : Set α}

/-- What is seen and has been left. -/
def Done (seen stack : List α) (a : α) : Prop := a ∈ seen ∧ a ∉ stack

/-- The invariant of a search. -/
structure Searched (R : α → α → Prop) (seen stack : List α) : Prop where
  nodup : seen.Nodup
  closed : ∀ a b, Done seen stack a → R a b → Done seen stack b
  acyclic : ∀ a, Done seen stack a → ¬ TransGen R a a

theorem searched_nil : Searched R [] [] where
  nodup := nodup_nil
  closed _ _ h := absurd h.1 not_mem_nil
  acyclic _ h := absurd h.1 not_mem_nil

namespace Searched

theorem done_of_reaches (h : Searched R seen stack) (ha : Done seen stack a)
    (hab : ReflTransGen R a b) : Done seen stack b := by
  induction hab with
  | refl => exact ha
  | tail _ hbc ih => exact h.closed _ _ ih hbc

theorem enter (h : Searched R seen stack) (ha : a ∉ seen) :
    Searched R (seen ++ [a]) (stack ++ [a]) := by
  -- nothing more is done
  have hdone : ∀ b, Done (seen ++ [a]) (stack ++ [a]) b ↔ Done seen stack b := by
    intro b
    rw [Done, Done, mem_append, mem_append, not_or, mem_singleton]
    constructor
    · rintro ⟨hb | rfl, hstack, hne⟩
      · exact ⟨hb, hstack⟩
      · exact absurd rfl hne
    · rintro ⟨hb, hstack⟩
      refine ⟨.inl hb, hstack, ?_⟩
      rintro rfl
      exact ha hb
  constructor
  · exact h.nodup.append (nodup_singleton a) (disjoint_singleton.mpr ha)
  · intro b c hb hbc
    rw [hdone] at hb ⊢
    exact h.closed b c hb hbc
  · intro b hb
    exact h.acyclic b ((hdone b).mp hb)

theorem leave (h : Searched R seen (stack ++ [a]))
    (hnext : ∀ b, R a b → Done seen (stack ++ [a]) b) : Searched R seen stack := by
  have hdone : ∀ b, Done seen stack b → b = a ∨ Done seen (stack ++ [a]) b := by
    rintro b ⟨hb, hstack⟩
    by_cases hba : b = a
    · exact .inl hba
    · refine .inr ⟨hb, fun hmem => ?_⟩
      rcases mem_append.mp hmem with hmem | hmem
      · exact hstack hmem
      · exact hba (mem_singleton.mp hmem)
  have hmono : ∀ b, Done seen (stack ++ [a]) b → Done seen stack b := fun b hb =>
    ⟨hb.1, fun hmem => hb.2 (mem_append_left _ hmem)⟩
  constructor
  · exact h.nodup
  · intro b c hb hbc
    rcases hdone b hb with rfl | hb
    · exact hmono c (hnext c hbc)
    · exact hmono c (h.closed b c hb hbc)
  · intro b hb
    rcases hdone b hb with rfl | hb
    · -- what it leads to is done, and it is not
      intro hcycle
      obtain ⟨c, hbc, hcb⟩ := TransGen.head'_iff.mp hcycle
      exact (h.done_of_reaches (hnext c hbc) hcb).2
        (mem_append_right _ (mem_singleton_self b))
    · exact h.acyclic b hb

end Searched

/-- A search from each of `B`. -/
structure Visits (R : α → α → Prop) (seen stack : List α) (B : Set α) (seen' : List α) : Prop where
  searched : Searched R seen' stack
  grows : seen ⊆ seen'
  done : ∀ b ∈ B, Done seen' stack b
  reached : ∀ c ∈ seen', c ∈ seen ∨ ∃ b ∈ B, ReflTransGen R b c

namespace Visits

theorem of_done (h : Searched R seen stack) (hB : ∀ b ∈ B, Done seen stack b) :
    Visits R seen stack B seen where
  searched := h
  grows := List.Subset.refl _
  done := hB
  reached _ hc := .inl hc

theorem union (h : Visits R seen stack B seen') (h' : Visits R seen' stack C seen'') :
    Visits R seen stack (B ∪ C) seen'' where
  searched := h'.searched
  grows := List.Subset.trans h.grows h'.grows
  done := by
    rintro b (hb | hb)
    · exact ⟨h'.grows (h.done b hb).1, (h.done b hb).2⟩
    · exact h'.done b hb
  reached := by
    intro c hc
    rcases h'.reached c hc with hc | ⟨b, hb, hbc⟩
    · rcases h.reached c hc with hc | ⟨b, hb, hbc⟩
      · exact .inl hc
      · exact .inr ⟨b, .inl hb, hbc⟩
    · exact .inr ⟨b, .inr hb, hbc⟩

theorem of_next (ha : a ∉ stack) (h : Visits R (seen ++ [a]) (stack ++ [a]) { b | R a b } seen') :
    Visits R seen stack {a} seen' where
  searched := h.searched.leave h.done
  grows := (append_subset.mp h.grows).1
  done := by
    rintro b rfl
    exact ⟨h.grows (mem_append_right _ (mem_singleton_self b)), ha⟩
  reached := by
    intro c hc
    rcases h.reached c hc with hc | ⟨b, hab, hbc⟩
    · rcases mem_append.mp hc with hc | hc
      · exact .inl hc
      · obtain rfl := mem_singleton.mp hc
        exact .inr ⟨c, rfl, .refl⟩
    · exact .inr ⟨a, rfl, .head hab hbc⟩

theorem whole (h : Visits R [] [] {a} seen) :
    seen.Nodup ∧ (∀ b, b ∈ seen ↔ ReflTransGen R a b) ∧ ∀ b ∈ seen, ¬ TransGen R b b := by
  refine ⟨h.searched.nodup, fun b => ⟨fun hb => ?_, fun hab => ?_⟩, fun b hb => ?_⟩
  · rcases h.reached b hb with hb | ⟨c, rfl, hcb⟩
    · exact absurd hb not_mem_nil
    · exact hcb
  · exact (h.searched.done_of_reaches (h.done a rfl) hab).1
  · exact h.searched.acyclic b ⟨hb, not_mem_nil⟩

end Visits

end DepthFirst
