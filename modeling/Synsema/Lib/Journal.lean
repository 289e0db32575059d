import Synsema.Lib.Except

/-!
# Computations that keep a journal

A computation reads an oracle, changes a state and may fail.  A journal says which entries a step
from one state to another makes; it is closed under steps that follow each other (`Journal`).  A
computation is `Careful` where it moves the state along the journal and where its result depends on
the oracle at the entries it makes alone.  Careful computations are closed under `bind`, so that a
program is careful where what it reads the oracle with is.
-/

universe u v w x y

/-- The entries of the steps of a state. -/
structure Journal (σ : Type u) (ι : Type v) where
  moves : σ → List ι → σ → Prop
  refl : ∀ s, moves s [] s
  trans : ∀ {s t r : σ} {a b : List ι}, moves s a t → moves t b r → moves s (a ++ b) r

namespace Journal

variable {σ : Type u} {ι : Type v} {κ : Type w} {β ε : Type x} {α γ : Type y}

/-- A computation moves along the journal, and depends on the oracle at its entries alone. -/
def Careful (J : Journal σ ι) (key : ι → κ) (f : (κ → β) → σ → Except ε (α × σ)) : Prop :=
  ∀ ρ s a t, f ρ s = .ok (a, t) → ∃ new, J.moves s new t ∧
    ∀ ρ', (∀ e ∈ new, ρ' (key e) = ρ (key e)) → f ρ' s = .ok (a, t)

namespace Careful

variable {J : Journal σ ι} {key : ι → κ}

theorem pure (a : α) : J.Careful key (fun (_ : κ → β) s => (.ok (a, s) : Except ε (α × σ))) := by
  rintro ρ s b t ⟨⟩
  exact ⟨[], J.refl s, fun _ _ => rfl⟩

theorem error (e : σ → ε) : J.Careful key (fun (_ : κ → β) s ↦ (.error (e s) : Except ε (α × σ))) := by
  rintro ρ s b t ⟨⟩

variable {f : (κ → β) → σ → Except ε (α × σ)}

theorem bind {g : α → (κ → β) → σ → Except ε (γ × σ)} (hf : J.Careful key f)
    (hg : ∀ a, J.Careful key (g a)) : J.Careful key fun ρ s => f ρ s >>= fun p => g p.1 ρ p.2 := by
  intro ρ s c r h
  obtain ⟨⟨a, t⟩, hft, hgr⟩ := Except.bind_eq_ok.mp h
  obtain ⟨first, hfirst, hread⟩ := hf ρ s a t hft
  obtain ⟨second, hsecond, hread'⟩ := hg a ρ t c r hgr
  refine ⟨first ++ second, J.trans hfirst hsecond, fun ρ' hρ => ?_⟩
  have h₁ := hread ρ' fun e he => hρ e (List.mem_append_left _ he)
  have h₂ := hread' ρ' fun e he => hρ e (List.mem_append_right _ he)
  exact Except.bind_eq_ok.mpr ⟨(a, t), h₁, h₂⟩

theorem map (hf : J.Careful key f) (g : α → γ) :
    J.Careful key fun ρ s => f ρ s >>= fun p => .ok (g p.1, p.2) :=
  hf.bind fun a => Careful.pure (g a)

theorem ite {g : (κ → β) → σ → Except ε (α × σ)} (c : Bool) (hf : J.Careful key f)
    (hg : J.Careful key g) : J.Careful key fun ρ s => if c then f ρ s else g ρ s := by
  cases c with
  | true => exact hf
  | false => exact hg

end Careful

end Journal
