import Synsema.Capability.Model
import Mathlib.Order.Compare

/-!
# The first grant that covers a request

A set of grants is kept in its canonical order, the most specific first.  `first_covering` looks for a
request without scope from behind, and stops at the first grant with one: the grants that may cover
the request have no scope, and in the order nothing with a scope stands behind them
(`firstCovering_eq_find`).
-/

namespace Synsema.Capability

open List

/-! ## The canonical order -/

instance : Std.TransOrd CapabilityType :=
  inferInstanceAs (Std.TransCmp (compareOn CapabilityType.ctorIdx))

theorem cmp_eq_compareLex : cmp =
    compareLex (fun a b => compareOn (fun c : Capability => c.specificity.1) b a)
      (compareLex (fun a b => compareOn (fun c : Capability => c.specificity.2.1) b a)
        (compareLex (fun a b => compareOn (fun c : Capability => c.specificity.2.2) b a)
          (compareLex (compareOn ty) (compareOn scope)))) := rfl

instance : Std.TransCmp cmp := by
  rw [cmp_eq_compareLex]
  have opposite {κ : Type} [Ord κ] [Std.TransOrd κ] (f : Capability → κ) :
      Std.TransCmp fun a b => compareOn f b a := Std.TransCmp.opposite
  have h₁ := opposite fun c => c.specificity.1
  have h₂ := opposite fun c => c.specificity.2.1
  have h₃ := opposite fun c => c.specificity.2.2
  infer_instance

/-- A set as it is kept: in the canonical order, nothing twice. -/
structure OrderedCaps where
  caps : CapSet
  ordered : caps.Pairwise fun a b => a.cmp b = .lt

theorem mem_insertCap {c d : Capability} {set : CapSet} (h : d ∈ insertCap c set) :
    d = c ∨ d ∈ set := by
  induction set with
  | nil => exact .inl (mem_singleton.mp h)
  | cons x xs ih =>
    rw [insertCap] at h
    split at h
    · exact List.mem_cons.mp h
    · exact .inr h
    · rcases List.mem_cons.mp h with rfl | h
      · exact .inr mem_cons_self
      · exact (ih h).imp_right (mem_cons_of_mem x)

theorem pairwise_insertCap {set : CapSet} (c : Capability)
    (h : set.Pairwise fun a b => a.cmp b = .lt) :
    (insertCap c set).Pairwise fun a b => a.cmp b = .lt := by
  induction set with
  | nil => exact pairwise_singleton _ c
  | cons x xs ih =>
    obtain ⟨hx, hxs⟩ := pairwise_cons.mp h
    rw [insertCap]
    split
    next hlt =>
      refine pairwise_cons.mpr ⟨fun y hy => ?_, h⟩
      rcases List.mem_cons.mp hy with rfl | hy
      · exact hlt
      · exact Std.TransCmp.lt_trans hlt (hx y hy)
    next => exact h
    next hgt =>
      refine pairwise_cons.mpr ⟨fun y hy => ?_, ih hxs⟩
      rcases mem_insertCap hy with rfl | hy
      · exact Std.OrientedCmp.lt_of_gt hgt
      · exact hx y hy

/-- `BTreeSet::insert`. -/
def OrderedCaps.insert (c : Capability) (set : OrderedCaps) : OrderedCaps :=
  ⟨insertCap c set.caps, pairwise_insertCap c set.ordered⟩

theorem rank_le_of_cmp {a b : Capability} (h : a.cmp b = .lt) :
    b.specificity.1 ≤ a.specificity.1 := by
  rw [cmp_eq_compareLex, compareLex, compareOn] at h
  by_contra hlt
  rw [Nat.compare_eq_gt.mpr (not_le.mp hlt)] at h
  cases h

/-! ## Grants that cover -/

theorem family_eq_of_covers {g r : CapabilityType} (h : g.covers r) : g.family = r.family := by
  rw [CapabilityType.covers, Bool.or_eq_true, Bool.and_eq_true, beq_iff_eq, beq_iff_eq] at h
  rcases h with rfl | ⟨rfl, h⟩
  · rfl
  · revert h
    cases r <;> simp [CapabilityType.family]

variable {m : Machine} {c requested : Capability}

theorem family_eq_of_capability_covers (h : c.covers m requested) :
    c.ty.family = requested.ty.family := by
  rw [covers, Bool.and_eq_true] at h
  exact family_eq_of_covers (ty_covers_of_coversByName h.1)

theorem scopedCoversUnscoped_family (ty : CapabilityType) :
    ty.family.scopedCoversUnscoped = ty.scopedCoversUnscoped := by
  cases ty <;> rfl

theorem scope_eq_none_of_covers (hscope : requested.scope = none)
    (hty : requested.ty.family.scopedCoversUnscoped = false) (h : c.covers m requested) :
    c.scope = none ∧ c.ty.scopedCoversUnscoped = false := by
  have hfamily : c.ty.scopedCoversUnscoped = false := by
    rw [← scopedCoversUnscoped_family, family_eq_of_capability_covers h, hty]
  refine ⟨?_, hfamily⟩
  rw [covers, Bool.and_eq_true, coversByName, hfamily] at h
  have hname := h.1
  split at hname
  · cases hname
  · rw [if_neg Bool.false_ne_true] at hname
    cases hc : c.scope with
    | none => rfl
    | some s =>
      rw [hc, hscope] at hname
      cases hname

theorem rank_of_scope {s : Text} (h : c.scope = some s) : c.specificity.1 = 1 := by
  rw [specificity, h]
  dsimp only
  split
  · split
    · rfl
    · rfl
  · rfl
  · rfl
  · rfl
  · rfl

theorem rank_of_none (h : c.scope = none) (hty : c.ty.scopedCoversUnscoped = false) :
    c.specificity.1 = 0 := by
  rw [specificity, h, hty]
  rfl

/-! ## From behind -/

theorem getLast?_filter_takeWhile {α : Type} {s p : α → Bool} {l : List α}
    (h : l.Pairwise fun a b => p a = true → s b = true) (hp : ∀ a ∈ l, p a → s a) :
    ((l.reverse.takeWhile s).filter p).getLast? = l.find? p := by
  induction l with
  | nil => rfl
  | cons a l ih =>
    obtain ⟨ha, hl⟩ := pairwise_cons.mp h
    have ih := ih hl fun b hb => hp b (mem_cons_of_mem a hb)
    rw [reverse_cons, takeWhile_append]
    by_cases hpa : p a = true
    · have hsa := hp a mem_cons_self hpa
      have hall : l.reverse.takeWhile s = l.reverse :=
        takeWhile_eq_self_iff.mpr fun b hb => ha b (mem_reverse.mp hb) hpa
      rw [hall, if_pos rfl, filter_append, takeWhile_cons_of_pos hsa, takeWhile_nil,
        filter_cons_of_pos hpa, filter_nil, getLast?_concat, find?_cons_of_pos hpa]
    · rw [find?_cons_of_neg hpa, ← ih]
      split_ifs with hall
      · have hself : l.reverse.takeWhile s = l.reverse :=
          (List.takeWhile_prefix s).eq_of_length hall
        have hnone : (List.takeWhile s [a]).filter p = [] := by
          rw [List.filter_eq_nil_iff]
          intro b hb
          rw [mem_singleton.mp ((List.takeWhile_prefix s).subset hb)]
          exact hpa
        rw [filter_append, hnone, append_nil, hself]
      · rfl

/-- **The first grant that covers a request is found**, as by trying one after the other in the
canonical order. -/
theorem firstCovering_eq_find (m : Machine) (set : OrderedCaps) (requested : Capability) :
    firstCovering m set.caps requested = set.caps.find? fun c => c.covers m requested := by
  have hfamily (c : Capability) : (c.ty.family == requested.ty.family && c.covers m requested) =
      c.covers m requested := by
    rw [Bool.and_eq_right_iff_imp]
    exact fun h => beq_iff_eq.mpr (family_eq_of_capability_covers h)
  rw [firstCovering]
  split
  next hfast =>
    rw [Bool.and_eq_true, Option.isNone_iff_eq_none, Bool.not_eq_true'] at hfast
    simp only [hfamily]
    apply getLast?_filter_takeWhile
    · -- nothing with a scope stands behind a grant of the lowest rank
      refine set.ordered.imp fun {a b} hab ha => ?_
      obtain ⟨hscope, hty⟩ := scope_eq_none_of_covers hfast.1 hfast.2 ha
      have hrank := rank_le_of_cmp hab
      rw [rank_of_none hscope hty] at hrank
      rw [Option.isNone_iff_eq_none]
      cases hb : b.scope with
      | none => rfl
      | some s =>
        rw [rank_of_scope hb] at hrank
        omega
    · intro a _ ha
      rw [Option.isNone_iff_eq_none]
      exact (scope_eq_none_of_covers hfast.1 hfast.2 ha).1
  next =>
    rw [find?_filter]
    congr 1
    funext c
    rw [Bool.decide_and, Bool.decide_eq_true, Bool.decide_eq_true, hfamily]

end Synsema.Capability
