import Mathlib.Data.List.Basic

/-!
# Grammars with values

A grammar says which lists are words and what they are words for.  It goes through a list from left to
right, and what follows may depend on what a part is a word for, as where a length says how much
follows.

A grammar is unambiguous where no word is the beginning of another one and none is a word for two
things (`Unambiguous`).  What is put together of unambiguous grammars is unambiguous.
-/

/-- The words, and what each is a word for. -/
def Grammar (τ α : Type) := List τ → α → Prop

namespace Grammar

open List

variable {τ α β : Type}

/-- The empty word. -/
protected def pure (a : α) : Grammar τ α := fun w b => w = [] ∧ b = a

/-- A word, and one of what follows it. -/
protected def bind (G : Grammar τ α) (f : α → Grammar τ β) : Grammar τ β := fun w b =>
  ∃ u v a, w = u ++ v ∧ G u a ∧ f a v b

instance : Monad (Grammar τ) where
  pure := Grammar.pure
  bind := Grammar.bind

/-- No word. -/
def never : Grammar τ α := fun _ _ => False

/-- One element. -/
def one : Grammar τ τ := fun w a => w = [a]

/-- `n` elements. -/
def block (n : Nat) : Grammar τ (List τ) := fun w u => w.length = n ∧ u = w

/-- Only the words for what has a property. -/
def filter (G : Grammar τ α) (P : α → Prop) : Grammar τ α := fun w a => G w a ∧ P a

/-- `n` words, one after the other. -/
def times (G : Grammar τ α) : Nat → Grammar τ (List α)
  | 0 => pure []
  | n + 1 => do
    let a ← G
    let as ← times G n
    pure (a :: as)

variable {G : Grammar τ α} {f : α → Grammar τ β}

theorem bind_pure (G : Grammar τ α) : (G >>= fun a => pure a) = G := by
  funext w b
  apply propext
  constructor
  · rintro ⟨u, v, a, rfl, hu, rfl, rfl⟩
    rwa [append_nil]
  · exact fun h => ⟨w, [], b, (append_nil w).symm, h, rfl, rfl⟩

variable {w : List τ} {as : List α} {n : Nat}

theorem map_iff {f : α → β} {b : β} : (do return f (← G)) w b ↔ ∃ a, G w a ∧ b = f a := by
  constructor
  · rintro ⟨u, v, a, rfl, hu, rfl, rfl⟩
    rw [append_nil]
    exact ⟨a, hu, rfl⟩
  · rintro ⟨a, ha, rfl⟩
    exact ⟨w, [], a, (append_nil w).symm, ha, rfl, rfl⟩

/-! ## Words one after the other -/

theorem forall_of_times (h : times G n w as) : as.length = n ∧ ∀ a ∈ as, ∃ u, G u a := by
  induction n generalizing w as with
  | zero =>
    obtain ⟨-, rfl⟩ := h
    exact ⟨rfl, nofun⟩
  | succ n ih =>
    obtain ⟨u, v, a, -, hu, v₁, v₂, as', -, hv, -, rfl⟩ := h
    obtain ⟨hlen, hall⟩ := ih hv
    exact ⟨congrArg (· + 1) hlen, forall_mem_cons.mpr ⟨⟨u, hu⟩, hall⟩⟩

theorem times_flatMap {write : α → List τ} (h : ∀ a ∈ as, G (write a) a) :
    times G as.length (as.flatMap write) as := by
  induction as with
  | nil => exact ⟨rfl, rfl⟩
  | cons a as ih =>
    obtain ⟨ha, has⟩ := forall_mem_cons.mp h
    exact ⟨write a, as.flatMap write, a, rfl, ha, as.flatMap write, [], as,
      (append_nil _).symm, ih has, rfl, rfl⟩

/-! ## Lengths -/

theorem length_times (hG : ∀ w a, G w a → w ≠ []) (h : times G n w as) : n ≤ w.length := by
  induction n generalizing w as with
  | zero => exact Nat.zero_le _
  | succ n ih =>
    obtain ⟨u, v, a, rfl, hu, v₁, v₂, as', rfl, hv, hnil, -⟩ := h
    have hpos := length_pos_iff.mpr (hG u a hu)
    have := ih hv
    rw [hnil, append_nil, length_append]
    omega

/-! ## Unambiguous grammars -/

/-- Of one list at most one beginning is a word, and for one thing. -/
def Unambiguous (G : Grammar τ α) : Prop :=
  ∀ u t u' t' a a', G u a → G u' a' → u ++ t = u' ++ t' → u = u' ∧ a = a'

namespace Unambiguous

theorem pure (a : α) : Unambiguous (pure a : Grammar τ α) := by
  rintro u t u' t' b b' ⟨rfl, rfl⟩ ⟨rfl, rfl⟩ -
  exact ⟨rfl, rfl⟩

theorem never : Unambiguous (never : Grammar τ α) := fun _ _ _ _ _ _ h => h.elim

theorem one : Unambiguous (one : Grammar τ τ) := by
  rintro u t u' t' a a' rfl rfl h
  obtain rfl := (cons.inj h).1
  exact ⟨rfl, rfl⟩

theorem block (n : Nat) : Unambiguous (block n : Grammar τ (List τ)) := by
  rintro u t u' t' b b' ⟨hu, rfl⟩ ⟨hu', rfl⟩ h
  have heq := (append_inj h (hu.trans hu'.symm)).1
  exact ⟨heq, heq⟩

theorem filter (hG : Unambiguous G) (P : α → Prop) : Unambiguous (G.filter P) :=
  fun u t u' t' a a' h h' => hG u t u' t' a a' h.1 h'.1

theorem bind (hG : Unambiguous G) (hf : ∀ a, Unambiguous (f a)) : Unambiguous (G >>= f) := by
  rintro _ t _ t' b b' ⟨u, v, a, rfl, hu, hv⟩ ⟨u', v', a', rfl, hu', hv'⟩ h
  rw [append_assoc, append_assoc] at h
  obtain ⟨rfl, rfl⟩ := hG u (v ++ t) u' (v' ++ t') a a' hu hu' h
  obtain ⟨rfl, rfl⟩ := hf a v t v' t' b b' hv hv' (append_cancel_left h)
  exact ⟨rfl, rfl⟩

theorem ite {c : Prop} [Decidable c] {H : Grammar τ α} (hG : c → Unambiguous G)
    (hH : ¬c → Unambiguous H) : Unambiguous (if c then G else H) := by
  by_cases h : c
  · rw [if_pos h]
    exact hG h
  · rw [if_neg h]
    exact hH h

theorem times (hG : Unambiguous G) (n : Nat) : Unambiguous (G.times n) := by
  induction n with
  | zero => exact pure []
  | succ n ih => exact hG.bind fun a => ih.bind fun as => pure (a :: as)

theorem eq (hG : Unambiguous G) {w : List τ} {a a' : α} (h : G w a) (h' : G w a') : a = a' :=
  (hG w [] w [] a a' h h' rfl).2

end Unambiguous

end Grammar
