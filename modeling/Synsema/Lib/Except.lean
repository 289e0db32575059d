import Mathlib.Data.List.Forall2

/-!
# Results

When the steps of a fallible computation succeed, and when a loop over a list does.
-/

open List

universe u v w

/-- What it is for the computations of a monad to succeed with a value. -/
structure Success (m : Type u → Type v) [Monad m] where
  /-- The computation succeeds with the value. -/
  Ok : ∀ {α : Type u}, m α → α → Prop
  ok_pure : ∀ {α : Type u} {a b : α}, Ok (pure a) b ↔ a = b
  ok_bind : ∀ {α β : Type u} {x : m α} {k : α → m β} {b : β},
    Ok (x >>= k) b ↔ ∃ a, Ok x a ∧ Ok (k a) b

namespace Success

variable {m : Type u → Type v} [Monad m] (S : Success m) {α : Type w}

variable {l : List α}

theorem mapM_iff [LawfulMonad m] {β : Type u} {f : α → m β} {bs : List β} :
    S.Ok (l.mapM f) bs ↔ Forall₂ (fun a b => S.Ok (f a) b) l bs := by
  induction l generalizing bs with
  | nil =>
    rw [mapM_nil, forall₂_nil_left_iff, S.ok_pure]
    exact eq_comm
  | cons a l ih =>
    rw [mapM_cons, S.ok_bind, forall₂_cons_left_iff]
    refine exists_congr fun b => ?_
    constructor
    · rintro ⟨ha, h⟩
      obtain ⟨bs', hbs, h⟩ := S.ok_bind.mp h
      exact ⟨bs', ha, ih.mp hbs, (S.ok_pure.mp h).symm⟩
    · rintro ⟨bs', ha, hbs, rfl⟩
      exact ⟨ha, S.ok_bind.mpr ⟨bs', ih.mpr hbs, S.ok_pure.mpr rfl⟩⟩

theorem foldlM_iff {σ β : Type u} {f : σ → α → m σ} {val : α → Option β} {g : σ → β → σ}
    (hf : ∀ s a s', S.Ok (f s a) s' ↔ ∃ v, val a = some v ∧ g s v = s') {s s' : σ} :
    S.Ok (l.foldlM f s) s' ↔
      ∃ vs, Forall₂ (fun a v => val a = some v) l vs ∧ vs.foldl g s = s' := by
  induction l generalizing s with
  | nil =>
    rw [foldlM_nil, S.ok_pure]
    constructor
    · rintro rfl
      exact ⟨[], .nil, rfl⟩
    · rintro ⟨vs, _ | _, rfl⟩
      rfl
  | cons a l ih =>
    rw [foldlM_cons, S.ok_bind]
    constructor
    · rintro ⟨t, ht, h⟩
      obtain ⟨v, hv, rfl⟩ := (hf s a t).mp ht
      obtain ⟨vs, hvs, h⟩ := ih.mp h
      exact ⟨v :: vs, .cons hv hvs, h⟩
    · rintro ⟨_, _ | ⟨hv, hvs⟩, h⟩
      exact ⟨_, (hf s a _).mpr ⟨_, hv, rfl⟩, ih.mpr ⟨_, hvs, h⟩⟩

end Success

namespace Except

section Steps

variable {ε ε' : Type u} {α : Type v} {β : Type w}

variable {x : Except ε α}

theorem bind_eq_ok {β : Type v} {f : α → Except ε β} {b : β} :
    (x >>= f) = .ok b ↔ ∃ a, x = .ok a ∧ f a = .ok b := by
  cases x with
  | error e =>
    constructor
    · rintro ⟨⟩
    · rintro ⟨a, ⟨⟩, -⟩
  | ok a =>
    constructor
    · intro h
      exact ⟨a, rfl, h⟩
    · rintro ⟨a, ⟨⟩, h⟩
      exact h

theorem mapError_eq_ok {f : ε → ε'} {a : α} : x.mapError f = .ok a ↔ x = .ok a := by
  cases x with
  | error e => exact ⟨nofun, nofun⟩
  | ok b => exact ⟨fun h => by cases h; rfl, fun h => by cases h; rfl⟩

theorem map_eq_ok {f : α → β} {b : β} : x.map f = .ok b ↔ ∃ a, x = .ok a ∧ f a = b := by
  cases x with
  | error e =>
    constructor
    · rintro ⟨⟩
    · rintro ⟨a, ⟨⟩, -⟩
  | ok a =>
    constructor
    · rintro ⟨⟩
      exact ⟨a, rfl, rfl⟩
    · rintro ⟨a, ⟨⟩, rfl⟩
      rfl

/-- To succeed is not to end in an error. -/
def success : Success (Except ε : Type v → Type (max u v)) where
  Ok x a := x = .ok a
  ok_pure := ⟨Except.ok.inj, congrArg Except.ok⟩
  ok_bind := bind_eq_ok

theorem mapM_eq_ok_iff {α β : Type v} {f : α → Except ε β} {l : List α} {bs : List β} :
    l.mapM f = .ok bs ↔ Forall₂ (fun a b => f a = .ok b) l bs := success.mapM_iff

theorem exists_of_mem_mapM {α β : Type v} {f : α → Except ε β} {l : List α} {bs : List β} {b : β}
    (h : l.mapM f = .ok bs) (hb : b ∈ bs) : ∃ a ∈ l, f a = .ok b := by
  have hall := mapM_eq_ok_iff.mp h
  clear h
  induction hall with
  | nil => cases hb
  | @cons a c l bs ha _ ih =>
    rcases List.mem_cons.mp hb with rfl | hb
    · exact ⟨a, mem_cons_self, ha⟩
    · obtain ⟨d, hd, hfd⟩ := ih hb
      exact ⟨d, mem_cons_of_mem a hd, hfd⟩

end Steps

end Except

namespace Option

/-- To succeed is to give a value. -/
def success : Success (Option : Type u → Type u) where
  Ok x a := x = some a
  ok_pure := ⟨Option.some.inj, congrArg some⟩
  ok_bind := Option.bind_eq_some_iff

theorem mapM_eq_some_iff {α β : Type u} {f : α → Option β} {l : List α} {bs : List β} :
    l.mapM f = some bs ↔ Forall₂ (fun a b => f a = some b) l bs := success.mapM_iff

theorem getElem?_of_mapM {α β : Type u} {f : α → Option β} {l : List α} {bs : List β}
    (h : l.mapM f = some bs) (k : Nat) : bs[k]? = l[k]?.bind f := by
  have hall := mapM_eq_some_iff.mp h
  clear h
  induction hall generalizing k with
  | nil => rfl
  | cons ha _ ih =>
    cases k with
    | zero => exact ha.symm
    | succ k => exact ih k

end Option
