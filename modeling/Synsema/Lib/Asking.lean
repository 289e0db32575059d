import Mathlib.Data.Set.Basic
import Synsema.Lib.Except

/-!
# Computations that ask a function

`Asking ι ε α` is a fallible computation together with what it asks of a function on `ι`, say of a
hash.  What holds of the function on the questions of two computations only, as that no two of them
collide, can then be said: `x.Gives S a` when `x` gives `a` and all that it asks lies in `S`.
-/

universe u v

/-- An outcome, and what was asked on the way to it. -/
structure Asking (ι ε α : Type) where
  /-- What was asked, in order. -/
  asked : List ι
  /-- The outcome. -/
  result : Except ε α

namespace Asking

variable {ι ω ε α β : Type}

/-- After an error nothing is asked. -/
instance : Monad (Asking ι ε) where
  pure a := ⟨[], .ok a⟩
  bind x k :=
    match x.result with
    | .error e => ⟨x.asked, .error e⟩
    | .ok a => ⟨x.asked ++ (k a).asked, (k a).result⟩

/-- One question. -/
def ask (f : ι → ω) (i : ι) : Asking ι ε ω := ⟨[i], .ok (f i)⟩

/-- What asks nothing. -/
def lift (x : Except ε α) : Asking ι ε α := ⟨[], x⟩

/-- The computation gives the value, and asks only what is in the set. -/
def Gives (S : Set ι) (x : Asking ι ε α) (a : α) : Prop :=
  x.result = .ok a ∧ ∀ i ∈ x.asked, i ∈ S

variable {S : Set ι} {x : Asking ι ε α} {a : α}

theorem result_bind {k : α → Asking ι ε β} :
    (x >>= k).result = x.result >>= fun a => (k a).result := by
  change (match x.result with
    | .error e => (⟨x.asked, .error e⟩ : Asking ι ε β)
    | .ok a => ⟨x.asked ++ (k a).asked, (k a).result⟩).result = _
  cases x.result with
  | error e | ok a => rfl

theorem gives_pure {b : α} : Gives S (pure a : Asking ι ε α) b ↔ a = b := by
  constructor
  · rintro ⟨⟨⟩, -⟩
    rfl
  · rintro rfl
    exact ⟨rfl, nofun⟩

theorem gives_lift {y : Except ε α} : Gives S (lift y : Asking ι ε α) a ↔ y = .ok a :=
  ⟨And.left, fun h => ⟨h, nofun⟩⟩

theorem gives_ask {f : ι → ω} {i : ι} {w : ω} :
    Gives S (ask f i : Asking ι ε ω) w ↔ f i = w ∧ i ∈ S := by
  constructor
  · rintro ⟨⟨⟩, h⟩
    exact ⟨rfl, h i (List.mem_singleton.mpr rfl)⟩
  · rintro ⟨rfl, h⟩
    exact ⟨rfl, List.forall_mem_singleton.mpr h⟩

theorem gives_bind {k : α → Asking ι ε β} {b : β} :
    Gives S (x >>= k) b ↔ ∃ a, Gives S x a ∧ Gives S (k a) b := by
  change Gives S (match x.result with
    | .error e => (⟨x.asked, .error e⟩ : Asking ι ε β)
    | .ok a => ⟨x.asked ++ (k a).asked, (k a).result⟩) b ↔ _
  cases hx : x.result with
  | error e =>
    constructor
    · rintro ⟨⟨⟩, -⟩
    · rintro ⟨a, ⟨ha, -⟩, -⟩
      rw [hx] at ha
      cases ha
  | ok a =>
    constructor
    · rintro ⟨hb, hS⟩
      obtain ⟨hasked, hk⟩ := List.forall_mem_append.mp hS
      exact ⟨a, ⟨hx, hasked⟩, hb, hk⟩
    · rintro ⟨a', ⟨ha, hasked⟩, hb, hk⟩
      obtain rfl := Except.ok.inj (hx.symm.trans ha)
      exact ⟨hb, List.forall_mem_append.mpr ⟨hasked, hk⟩⟩

theorem gives_of_result (h : x.result = .ok a) : Gives { i | i ∈ x.asked } x a :=
  ⟨h, fun _ hi => hi⟩

end Asking
