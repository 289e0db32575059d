import Mathlib.Data.List.Basic

/-!
# The greatest part of a list that keeps itself

A list is filtered, by a test that looks at the list itself, until nothing is dropped any more.  What
is left passes the test on itself.
-/

namespace Shrink

open List

universe u

variable {α : Type u} (keep : List α → α → Bool)

/-- Filter until nothing is dropped, in this many rounds at most. -/
def shrink : Nat → List α → List α
  | 0, l => l
  | n + 1, l =>
    let kept := l.filter (keep l)
    if kept.length = l.length then l else shrink n kept

variable {keep} {n : Nat} {l : List α}

theorem shrink_sublist : (shrink keep n l).Sublist l := by
  induction n generalizing l with
  | zero => exact .refl l
  | succ n ih =>
    rw [shrink]
    split
    · exact .refl l
    · exact ih.trans filter_sublist

theorem shrink_keeps (hn : l.length ≤ n) :
    ∀ x ∈ shrink keep n l, keep (shrink keep n l) x = true := by
  induction n generalizing l with
  | zero =>
    obtain rfl := eq_nil_of_length_eq_zero (Nat.le_zero.mp hn)
    exact forall_mem_nil _
  | succ n ih =>
    rw [shrink]
    split
    next hlen =>
      exact filter_eq_self.mp (filter_sublist.eq_of_length hlen)
    next hlen =>
      have hlt : (l.filter (keep l)).length < l.length :=
        Nat.lt_of_le_of_ne (length_filter_le _ _) hlen
      exact ih (Nat.le_of_lt_succ (Nat.lt_of_lt_of_le hlt hn))

end Shrink
