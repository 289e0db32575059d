import Mathlib.Order.Defs.Unbundled

/-!
# Computations with a state

`Run σ ε α` is a computation on a state `σ` that ends with a value or with an error, or does not
end.  `x.Ends s r t` says how: from the state `s` it ends with the outcome `r` in the state `t`.

After `attempt x` the computation goes on whatever the outcome of `x` was, so that what stands
before `x` can be undone behind it (`ends_attempt_bind`).  A computation is `Within` a relation when
its runs, however they end, take a state only to one that is related to it.
-/

universe u

/-- A computation on a state. -/
abbrev Run (σ ε : Type u) (α : Type u) := ExceptT ε (StateT σ Option) α

namespace Run

variable {σ ε α β : Type u}

/-- From a state, the computation ends with an outcome in another. -/
def Ends (x : Run σ ε α) (s : σ) (r : Except ε α) (t : σ) : Prop := x.run.run s = some (r, t)

/-- The outcome of a computation, as a value. -/
def attempt (x : Run σ ε α) : Run σ ε (Except ε α) := ExceptT.mk (Except.ok <$> x.run)

/-- An outcome that is known. -/
def ofResult (r : Except ε α) : Run σ ε α := ExceptT.mk (pure r)

/-- What does not end. -/
def diverge : Run σ ε α := ExceptT.mk fun _ => none

/-! ## How computations end -/

section Ends

variable {x : Run σ ε α} {s t : σ}

theorem ends_pure {a : α} {r : Except ε α} :
    Ends (pure a : Run σ ε α) s r t ↔ r = .ok a ∧ t = s := by
  change some (Except.ok a, s) = some (r, t) ↔ _
  rw [Option.some.injEq, Prod.mk.injEq, eq_comm, eq_comm (a := s)]

theorem ends_throw {e : ε} {r : Except ε α} :
    Ends (throw e : Run σ ε α) s r t ↔ r = .error e ∧ t = s := by
  change some (Except.error e, s) = some (r, t) ↔ _
  rw [Option.some.injEq, Prod.mk.injEq, eq_comm, eq_comm (a := s)]

theorem ends_ofResult {r' r : Except ε α} :
    Ends (ofResult r' : Run σ ε α) s r t ↔ r = r' ∧ t = s := by
  change some (r', s) = some (r, t) ↔ _
  rw [Option.some.injEq, Prod.mk.injEq, eq_comm, eq_comm (a := s)]

theorem ends_modify {f : σ → σ} {r : Except ε PUnit} :
    Ends (modify f : Run σ ε PUnit) s r t ↔ r = .ok ⟨⟩ ∧ t = f s := by
  change some (Except.ok PUnit.unit, f s) = some (r, t) ↔ _
  rw [Option.some.injEq, Prod.mk.injEq, eq_comm, eq_comm (a := f s)]

theorem not_ends_diverge {r : Except ε α} : ¬ Ends (diverge : Run σ ε α) s r t := nofun

variable {f : α → Run σ ε β} {r : Except ε β}

theorem ends_bind :
    Ends (x >>= f) s r t ↔ (∃ e, Ends x s (.error e) t ∧ r = .error e) ∨
      ∃ a s', Ends x s (.ok a) s' ∧ Ends (f a) s' r t := by
  have hbind : (x >>= f).run.run s = (x.run.run s).bind fun p =>
      (match p.1 with
        | .ok a => (f a).run
        | .error e => pure (.error e) : StateT σ Option (Except ε β)).run p.2 := rfl
  rw [Ends, hbind]
  cases hx : x.run.run s with
  | none =>
    refine iff_of_false nofun ?_
    rintro (⟨e, he, -⟩ | ⟨a, s', ha, -⟩)
    · exact nomatch hx.symm.trans he
    · exact nomatch hx.symm.trans ha
  | some p =>
    obtain ⟨o, s'⟩ := p
    cases o with
    | error e =>
      change some (Except.error e, s') = some (r, t) ↔ _
      constructor
      · rintro ⟨⟩
        exact .inl ⟨e, hx, rfl⟩
      · rintro (⟨e', he, rfl⟩ | ⟨a, s', ha, -⟩)
        · cases hx.symm.trans he
          rfl
        · cases hx.symm.trans ha
    | ok a =>
      change Ends (f a) s' r t ↔ _
      constructor
      · intro h
        exact .inr ⟨a, s', hx, h⟩
      · rintro (⟨e, he, -⟩ | ⟨a', s'', ha, h⟩)
        · cases hx.symm.trans he
        · cases hx.symm.trans ha
          exact h

theorem ends_attempt {r : Except ε (Except ε α)} :
    Ends (attempt x) s r t ↔ ∃ r', Ends x s r' t ∧ r = .ok r' := by
  have hrun : (attempt x).run.run s = (x.run.run s).bind fun p => some (.ok p.1, p.2) := rfl
  rw [Ends, hrun, Option.bind_eq_some_iff]
  constructor
  · rintro ⟨⟨r', s'⟩, hx, ⟨⟩⟩
    exact ⟨r', hx, rfl⟩
  · rintro ⟨r', hx, rfl⟩
    exact ⟨(r', t), hx, rfl⟩

theorem ends_attempt_bind {f : Except ε α → Run σ ε β} :
    Ends (attempt x >>= f) s r t ↔ ∃ r' s', Ends x s r' s' ∧ Ends (f r') s' r t := by
  rw [ends_bind]
  constructor
  · rintro (⟨e, he, -⟩ | ⟨r', s', hx, h⟩)
    · obtain ⟨r', -, ⟨⟩⟩ := ends_attempt.mp he
    · obtain ⟨r', hx, ⟨⟩⟩ := ends_attempt.mp hx
      exact ⟨_, s', hx, h⟩
  · rintro ⟨r', s', hx, h⟩
    exact .inr ⟨r', s', ends_attempt.mpr ⟨r', hx, rfl⟩, h⟩

theorem ends_get_bind {f : σ → Run σ ε β} :
    Ends (get >>= f) s r t ↔ Ends (f s) s r t := Iff.rfl

theorem ends_map_get_bind {g : σ → α} :
    Ends ((g <$> get) >>= f) s r t ↔ Ends (f (g s)) s r t := Iff.rfl

theorem ends_modify_bind {g : σ → σ} {f : PUnit → Run σ ε β} :
    Ends (modify g >>= f) s r t ↔ Ends (f ⟨⟩) (g s) r t := Iff.rfl

end Ends

/-! ## Within a relation -/

/-- However the computation ends, it takes a state to a related one. -/
def Within (R : σ → σ → Prop) (x : Run σ ε α) : Prop := ∀ ⦃s r t⦄, x.Ends s r t → R s t

section Within

variable {R : σ → σ → Prop} {x : Run σ ε α}

theorem within_diverge : Within R (diverge : Run σ ε α) := fun _ _ _ h => absurd h not_ends_diverge

theorem within_modify {f : σ → σ} (h : ∀ s, R s (f s)) : Within R (modify f : Run σ ε PUnit) := by
  intro s r t hr
  obtain ⟨-, rfl⟩ := ends_modify.mp hr
  exact h s

theorem within_ite {c : Prop} [Decidable c] {y : Run σ ε α} (hx : Within R x) (hy : Within R y) :
    Within R (if c then x else y) := by
  by_cases h : c
  · rwa [if_pos h]
  · rwa [if_neg h]

theorem Within.attempt (h : Within R x) : Within R (attempt x) := by
  intro s r t hr
  obtain ⟨r', hx, -⟩ := ends_attempt.mp hr
  exact h hx

section Refl

variable [Std.Refl R]

theorem within_pure (a : α) : Within R (pure a : Run σ ε α) := by
  intro s r t hr
  obtain ⟨-, rfl⟩ := ends_pure.mp hr
  exact Std.Refl.refl t

theorem within_throw (e : ε) : Within R (throw e : Run σ ε α) := by
  intro s r t hr
  obtain ⟨-, rfl⟩ := ends_throw.mp hr
  exact Std.Refl.refl t

theorem within_ofResult (r : Except ε α) : Within R (ofResult r : Run σ ε α) := by
  intro s r t hr
  obtain ⟨-, rfl⟩ := ends_ofResult.mp hr
  exact Std.Refl.refl t

end Refl

variable {f : α → Run σ ε β} {k : Except ε α → Run σ ε β}

theorem Within.bind [IsTrans σ R] (hx : Within R x) (hf : ∀ a, Within R (f a)) :
    Within R (x >>= f) := by
  intro s r t hr
  obtain ⟨e, he, -⟩ | ⟨a, s', ha, h⟩ := ends_bind.mp hr
  · exact hx he
  · exact IsTrans.trans _ _ _ (hx ha) (hf a h)

theorem Within.bracket [IsTrans σ R] {enter exit : σ → σ} (hx : Within R x)
    (hk : ∀ r, Within R (k r)) (h : ∀ s t, R (enter s) t → R s (exit t)) :
    Within R (do
      modify enter
      let r ← Run.attempt x
      modify exit
      k r) := by
  intro s r t hr
  obtain ⟨r', s', hx', hr⟩ := ends_attempt_bind.mp (ends_modify_bind.mp hr)
  exact IsTrans.trans _ _ _ (h s s' (hx hx')) (hk r' (ends_modify_bind.mp hr))

theorem Within.attempt_bind [IsTrans σ R] (hx : Within R x) (hk : ∀ r, Within R (k r)) :
    Within R (Run.attempt x >>= k) := hx.attempt.bind hk

theorem within_get_bind {f : σ → Run σ ε β} (h : ∀ s, Within R (f s)) :
    Within R (get >>= f) := fun s _ _ hr => h s (ends_get_bind.mp hr)

theorem within_map_get_bind {g : σ → α} (h : ∀ a, Within R (f a)) :
    Within R ((g <$> get) >>= f) := fun s _ _ hr => h (g s) (ends_map_get_bind.mp hr)

end Within

end Run
