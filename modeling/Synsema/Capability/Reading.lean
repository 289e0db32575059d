import Synsema.Capability.Model
import Mathlib.Data.List.Forall2

/-!
# The reading of a scope

What a scope covers depends on how it is read: a scope of `net` as its host and port, a bound
`secret` as its name and the hosts and ports of its binding, any other as it stands.  Two texts of
one reading cover the same requests, alone and in a layer (`layerCovers_congr`).
-/

namespace Synsema.Capability

open Text Capscope

/-- How a scope is read. -/
inductive Reading where
  | net (host : Text) (port : Option Text)
  | secret (name : Text) (hosts : Option (List (Text × Option Text)))
  | other (s : Text)
deriving DecidableEq

/-- The reading of a scope of the type. -/
def reading (ty : CapabilityType) (s : Text) : Reading :=
  match ty with
  | .net => .net (splitNetScope s).1 (splitNetScope s).2
  | .secret =>
    .secret (splitSecretScope s).1 ((splitSecretScope s).2.map fun h =>
      (split '|' h).map splitHostPort)
  | _ => .other s

/-- One type, and one reading of the scopes. -/
def SameReading (c c' : Capability) : Prop :=
  c.ty = c'.ty ∧ c.scope.map (reading c.ty) = c'.scope.map (reading c'.ty)

instance (c c' : Capability) : Decidable (SameReading c c') := inferInstanceAs (Decidable (_ ∧ _))

/-! ## Scopes of one reading -/

theorem netScopeCovers_eq (g r : Text) :
    netScopeCovers g r =
      (((splitNetScope g).1 == (splitNetScope r).1 ||
        fnmatch (splitNetScope r).1 (splitNetScope g).1 ||
        Net.cidrCovers (splitNetScope g).1 (splitNetScope r).1) &&
          portOk (splitNetScope g).2 (splitNetScope r).2) := by
  unfold netScopeCovers
  dsimp only
  by_cases h : g = r
  · subst h
    simp
  · rw [beq_eq_false_iff_ne.mpr h, Bool.or_false]

theorem secretScopeCovers_eq (g r : Text) :
    secretScopeCovers g r =
      (((splitSecretScope g).1 == (splitSecretScope r).1 ||
        fnmatch (splitSecretScope r).1 (splitSecretScope g).1) &&
        match (splitSecretScope g).2.map fun h => (split '|' h).map splitHostPort,
          (splitSecretScope r).2 with
        | none, _ => true
        | some _, none => false
        | some ps, some r => (split '|' r).all fun h => ps.any fun p =>
            boundHostOk p.1 (splitHostPort h).1 && (p.2.isNone || p.2 == (splitHostPort h).2)) := by
  unfold secretScopeCovers
  dsimp only
  cases (splitSecretScope g).2 with
  | none => rfl
  | some gh =>
    cases (splitSecretScope r).2 with
    | none => rfl
    | some rh =>
      simp only [Option.map_some, List.any_map]
      rfl

/-- Is the type one whose scopes are read in parts? -/
def inParts (ty : CapabilityType) : Bool := ty == .net || ty == .secret

variable {ty : CapabilityType} {l l' : List Capability}

theorem reading_of_not_inParts (h : inParts ty = false) (s : Text) : reading ty s = .other s := by
  cases ty <;> first | rfl | cases h

theorem scopeCovers_congr {m : Platform} {g g' : Text} (h : reading ty g = reading ty g') (r : Text)
    : scopeCovers m ty g r = scopeCovers m ty g' r := by
  cases hparts : inParts ty with
  | false =>
    rw [reading_of_not_inParts hparts, reading_of_not_inParts hparts] at h
    cases h
    rfl
  | true =>
    rw [inParts, Bool.or_eq_true, beq_iff_eq, beq_iff_eq] at hparts
    rcases hparts with rfl | rfl
    · simp only [reading, Reading.net.injEq] at h
      change netScopeCovers g r = netScopeCovers g' r
      rw [netScopeCovers_eq, netScopeCovers_eq, h.1, h.2]
    · simp only [reading, Reading.secret.injEq] at h
      change secretScopeCovers g r = secretScopeCovers g' r
      rw [secretScopeCovers_eq, secretScopeCovers_eq, h.1, h.2]

/-! ## Capabilities of one reading -/

variable {m : Machine} {c c' : Capability}

theorem SameReading.eq (h : SameReading c c') (hparts : inParts c.ty = false) : c = c' := by
  obtain ⟨hty, hscope⟩ := h
  obtain ⟨ty, scope⟩ := c
  obtain ⟨ty', scope'⟩ := c'
  subst hty
  congr 1
  refine Option.map_injective ?_ hscope
  intro a b hab
  rw [reading_of_not_inParts hparts, reading_of_not_inParts hparts] at hab
  exact Reading.other.inj hab

theorem coversByName_congr (h : SameReading c c') (req : Capability) :
    c.coversByName m.toPlatform req = c'.coversByName m.toPlatform req := by
  cases hparts : inParts c.ty with
  | false => rw [h.eq hparts]
  | true =>
    obtain ⟨hty, hscope⟩ := h
    have hnot : c.ty.scopedCoversUnscoped = false := by
      rw [inParts, Bool.or_eq_true, beq_iff_eq, beq_iff_eq] at hparts
      rcases hparts with h | h <;> rw [h] <;> rfl
    unfold coversByName
    rw [← hty, hnot]
    rw [← hty] at hscope
    cases hs : c.scope with
    | none =>
      rw [hs] at hscope
      rw [Option.map_eq_none_iff.mp hscope.symm]
    | some g =>
      rw [hs] at hscope
      obtain ⟨g', hg', hread⟩ := Option.map_eq_some_iff.mp hscope.symm
      rw [hg']
      cases req.scope with
      | none => rfl
      | some r =>
        dsimp only
        rw [scopeCovers_congr hread.symm r, if_neg Bool.false_ne_true, if_neg Bool.false_ne_true]

theorem physicalScopePair_inParts (hparts : inParts c.ty) (req : Capability) :
    c.physicalScopePair req = false := by
  have hpath : c.ty.isPath = false := by
    rw [inParts, Bool.or_eq_true, beq_iff_eq, beq_iff_eq] at hparts
    rcases hparts with h | h <;> rw [h] <;> rfl
  unfold physicalScopePair
  rw [hpath]
  rfl

theorem SameReading.inParts_eq (h : SameReading c c') : inParts c'.ty = inParts c.ty := by
  rw [h.1]

theorem covers_congr (h : SameReading c c') (req : Capability) :
    c.covers m req = c'.covers m req := by
  cases hparts : inParts c.ty with
  | false => rw [h.eq hparts]
  | true =>
    unfold covers
    rw [coversByName_congr h, physicalScopePair_inParts hparts,
      physicalScopePair_inParts (h.inParts_eq.trans hparts)]

theorem coversPhysically_congr (h : SameReading c c') (req : Capability) :
    c.coversPhysically m req = c'.coversPhysically m req := by
  cases hparts : inParts c.ty with
  | false => rw [h.eq hparts]
  | true =>
    unfold coversPhysically
    rw [physicalScopePair_inParts hparts, physicalScopePair_inParts (h.inParts_eq.trans hparts),
      Bool.and_false, Bool.and_false, Bool.false_and, Bool.false_and]

theorem physicalScopePair_congr (h : SameReading c c') (req : Capability) :
    c.physicalScopePair req = c'.physicalScopePair req := by
  cases hparts : inParts c.ty with
  | false => rw [h.eq hparts]
  | true =>
    rw [physicalScopePair_inParts hparts, physicalScopePair_inParts (h.inParts_eq.trans hparts)]

theorem any_congr_of_forall₂ {f : Capability → Bool} (hf : ∀ c c', SameReading c c' → f c = f c')
    (h : List.Forall₂ SameReading l l') : l.any f = l'.any f := by
  induction h with
  | nil => rfl
  | cons hc _ ih => rw [List.any_cons, List.any_cons, hf _ _ hc, ih]

theorem layerCovers_congr (h : List.Forall₂ SameReading l l') (req : Capability) :
    layerCovers m l req = layerCovers m l' req := by
  unfold layerCovers layerCoversSplit
  rw [any_congr_of_forall₂ (fun c c' hc => covers_congr hc req) h,
    any_congr_of_forall₂ (fun c c' hc => coversPhysically_congr hc req) h,
    any_congr_of_forall₂ (fun c c' hc => by
      rw [physicalScopePair_congr hc, coversByName_congr hc]) h]

end Synsema.Capability
