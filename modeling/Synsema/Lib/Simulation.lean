import Mathlib.Data.List.Basic

/-!
# Simulations

Two systems that take steps, of some of which something is seen.  One simulates the other where each
step of the other is answered by a run of which the same is seen (`Simulates`); then so is each run
(`Simulates.run`).
-/

namespace Simulation

universe u v w

variable {σ : Type u} {τ : Type v} {ε : Type w}

/-- A run, with what is seen of it. -/
inductive Run (step : σ → Option ε → σ → Prop) : σ → List ε → σ → Prop
  | refl (s : σ) : Run step s [] s
  | silent {s s' s'' : σ} {es : List ε} (h : step s none s') (hr : Run step s' es s'') :
      Run step s es s''
  | seen {s s' s'' : σ} {e : ε} {es : List ε} (h : step s (some e) s') (hr : Run step s' es s'') :
      Run step s (e :: es) s''

namespace Run

variable {step : σ → Option ε → σ → Prop} {s s' s'' : σ}

theorem trans {es es' : List ε} (h : Run step s es s') (h' : Run step s' es' s'') :
    Run step s (es ++ es') s'' := by
  induction h with
  | refl s => exact h'
  | silent hs hr ih => exact .silent hs (ih h')
  | seen hs hr ih => exact .seen hs (ih h')

theorem one {o : Option ε} (h : step s o s') : Run step s o.toList s' := by
  cases o with
  | none => exact .silent h (.refl s')
  | some e => exact .seen h (.refl s')

theorem snoc {o : Option ε} (h : Run step s [] s') (h' : step s' o s'') : Run step s o.toList s'' :=
  h.trans (one h')

end Run

/-- Each step from a state is answered by a run from the states that match it. -/
def Simulates (stepA : σ → Option ε → σ → Prop) (stepB : τ → Option ε → τ → Prop)
    (R : σ → τ → Prop) : Prop :=
  ∀ s t o s', R s t → stepA s o s' → ∃ t', Run stepB t o.toList t' ∧ R s' t'

theorem Simulates.run {stepA : σ → Option ε → σ → Prop} {stepB : τ → Option ε → τ → Prop}
    {R : σ → τ → Prop} (h : Simulates stepA stepB R) {s s' : σ} {t : τ} {es : List ε}
    (hs : R s t) (hr : Run stepA s es s') : ∃ t', Run stepB t es t' ∧ R s' t' := by
  induction hr generalizing t with
  | refl s => exact ⟨t, .refl t, hs⟩
  | silent hstep hr ih =>
    obtain ⟨t₁, ht₁, hm⟩ := h _ t none _ hs hstep
    obtain ⟨t', ht', hm'⟩ := ih hm
    exact ⟨t', ht₁.trans ht', hm'⟩
  | seen hstep hr ih =>
    obtain ⟨t₁, ht₁, hm⟩ := h _ t _ _ hs hstep
    obtain ⟨t', ht', hm'⟩ := ih hm
    exact ⟨t', ht₁.trans ht', hm'⟩

end Simulation
