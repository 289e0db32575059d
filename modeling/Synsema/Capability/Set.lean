import Synsema.Capability.Model
import Synsema.Capability.FirstCovering
import Mathlib.Data.List.Forall2

/-!
# Capability sets

The set of capabilities of an execution context, its parents, and the check of a
request against it (`synsema-capabilities/src/model.rs`, `CapabilitySet`).

A set is given with the list of its parents, the nearest first.  A check may leave an
entry in the audit of every set it asks, so that it returns the sets.
-/

namespace Synsema.Capability

open Text List

/-- What a request meets in a folder lent to an isolated child. -/
inductive Crossing where
  | link (area : Text)
  | inUse (area : Text)

/-- What a check reads besides the sets. -/
structure Runtime extends Machine where
  /-- `isolated_areas::crossing`: the registry of the folders lent to isolated children. -/
  crossing : Capability → Option Crossing
  /-- `labels::pc_private_now`: does the code run under a private branch? -/
  pcPrivate : Bool

/-- Why a capability was denied. -/
inductive DenyCause where
  | explicitlyDenied (c : Capability)
  | aboveCeiling
  | delegated (d : Delegation)
  | noGrant
  | isolatedArea (area : Text)
  | areaInUse (area : Text)
deriving DecidableEq

/-- An entry of the audit. -/
structure CapabilityAuditEntry where
  capability : Capability
  granted : Bool
  source : Text
  reason : Text
  origin : Text
  context : Option Text
deriving DecidableEq

/-- A set of capabilities, without its parents. -/
structure CapabilitySet where
  name : Text
  granted : CapSet
  denied : CapSet
  auditLog : List CapabilityAuditEntry
  ceiling : Option (List Capability)
  delegated : List Delegation
  rejectedByCeiling : List Capability
  agent : Option Text
  sandboxDepth : Nat

namespace CapabilitySet

/-- `CapabilitySet::new`. -/
def empty (name : Text) : CapabilitySet :=
  { name, granted := [], denied := [], auditLog := [], ceiling := none, delegated := [],
    rejectedByCeiling := [], agent := none, sandboxDepth := 0 }

/-! ## Audit -/

/-- The text of a rejection by the host's ceiling. -/
def aboveCeilingText : Text := "above host ceiling (--sandbox/--cap-set)"

/-- The reason of a rejection by the ceiling; for `llm` and `judge` it says which item is
missing. -/
def ceilingReason (s : CapabilitySet) (cap : Capability) : Text :=
  match cap.ty.scopedCoversUnscoped, cap.scope, s.ceiling with
  | true, some scope, some c =>
    if c.any fun a => a.ty == cap.ty && a.scope.isNone then
      let principal := (rsplitOnce '@' scope).elim scope Prod.fst
      aboveCeilingText ++ ": the ceiling's `" ++ cap.ty.nameLower ++
        "` allows public data only; data private to " ++ principal ++
        " goes to the model with `" ++ cap.ty.nameLower ++ "=" ++ principal ++
        "@<provider host>`"
    else aboveCeilingText
  | _, _, _ => aboveCeilingText

/-- `push_audit`: the entry, unless the branch it was made in is private. -/
def pushAudit (rt : Runtime) (s : CapabilitySet) (entry : CapabilityAuditEntry) : CapabilitySet :=
  let entry := if startsWith "trusted:" s.name then { entry with context := some s.name }
    else entry
  if rt.pcPrivate then s else { s with auditLog := s.auditLog ++ [entry] }

/-! ## Ceilings and grants -/

/-- Is the capability within the host's ceiling? -/
def withinCeiling (m : Machine) (s : CapabilitySet) (cap : Capability) : Bool :=
  match s.ceiling with
  | none => true
  | some c => layerCovers m c cap

/-- The first delegated ceiling that does not cover the capability. -/
def rejectedByDelegation (m : Machine) (s : CapabilitySet) (cap : Capability) : Option Delegation :=
  s.delegated.find? fun d => !d.covers m cap

/-- Did the program declare the capability in this set, granted or rejected? -/
def isDeclared (m : Machine) (requested : Capability) (s : CapabilitySet) : Bool :=
  layerCovers m s.granted requested || layerCovers m s.rejectedByCeiling requested

/-- Does a denial of the set cover the request, or does the request reach it on disk? -/
def deniedBy (m : Machine) (s : CapabilitySet) (requested : Capability) : Option Capability :=
  s.denied.find? fun d => d.coversByName m.toPlatform requested || d.reachesPhysically m requested

/-- `denies`: a denial of the set or of a parent. -/
def denies (m : Machine) (chain : List CapabilitySet) (requested : Capability) : Bool :=
  chain.any fun s => (s.deniedBy m requested).isSome

/-- Does a grant of the set or of a parent cover the request by name only? -/
def escapesThroughLink (m : Machine) (chain : List CapabilitySet) (requested : Capability) : Bool :=
  chain.any fun s => s.granted.any fun c => c.coversByName m.toPlatform requested

/-- The reason of a request that two grants cover, one by name and one on disk. -/
def splitReason (m : Machine) (s : CapabilitySet) (requested : Capability) : Text :=
  let byName := (s.granted.find? fun g => g.coversByName m.toPlatform requested).elim [] display
  let there := (s.granted.find? fun g => g.coversPhysically m requested).elim [] display
  "Granted by " ++ byName ++ " (the path) and " ++ there ++
    " (where a link on it leads)"

/-! ## The check -/

/-- What the set itself decides of the request, with the reason: a denial, the host's
ceiling, the delegated ones, a folder lent to a child, and last its grants.  `none` leaves
the request to the parents. -/
def ownVerdict (rt : Runtime) (s : CapabilitySet) (parents : List CapabilitySet)
    (requested : Capability) : Option (Except DenyCause Unit × Text) :=
  let declared := (s :: parents).any (isDeclared rt.toMachine requested)
  match s.deniedBy rt.toMachine requested with
  | some d => some (.error (.explicitlyDenied d), "Explicitly denied by " ++ d.display)
  | none =>
    if s.ceiling.isSome && !s.withinCeiling rt.toMachine requested && declared then
      some (.error .aboveCeiling, s.ceilingReason requested)
    else
      match (s.rejectedByDelegation rt.toMachine requested).filter fun _ => declared with
      | some d => some (.error (.delegated d), d.reasonFor requested)
      | none =>
        match rt.crossing requested with
        | some (.link a) =>
          some (.error (.isolatedArea a), "goes through a link inside " ++ a ++
            ", which an isolated child could write")
        | some (.inUse a) =>
          some (.error (.areaInUse a), "reaches " ++ a ++
            ", which an isolated child is writing to right now")
        | none =>
          match firstCovering rt.toMachine s.granted requested with
          | some c => some (.ok (), "Granted by " ++ c.display)
          | none =>
            if layerCoversSplit rt.toMachine s.granted requested then
              some (.ok (), s.splitReason rt.toMachine requested)
            else none

/-- The entry that a check leaves. -/
def checkEntry (requested : Capability) (granted : Bool) (source reason : Text) :
    CapabilityAuditEntry :=
  { capability := requested, granted, source, reason, origin := "program", context := none }

/-- The set with the entry of a check in its audit. -/
def record (rt : Runtime) (audit : Bool) (requested : Capability) (source : Text)
    (s : CapabilitySet) (granted : Bool) (reason : Text) : CapabilitySet :=
  if audit then s.pushAudit rt (checkEntry requested granted source reason) else s

/-- The reason when no grant covers the request. -/
def noGrantReason (m : Machine) (chain : List CapabilitySet) (requested : Capability) : Text :=
  if escapesThroughLink m chain requested then "resolves outside the grant through a link"
  else "No matching grant found"

/-- `check_inner`: the verdict, and the sets with what it left in their audits. -/
def checkInner (rt : Runtime) (requested : Capability) (source : Text) (audit : Bool) :
    CapabilitySet → List CapabilitySet → Except DenyCause Unit × CapabilitySet × List CapabilitySet
  | s, [] =>
    match s.ownVerdict rt [] requested with
    | some (r, reason) => (r, s.record rt audit requested source r.toBool reason, [])
    | none =>
      (.error .noGrant, s.record rt audit requested source false
        (noGrantReason rt.toMachine [s] requested), [])
  | s, p :: parents =>
    match s.ownVerdict rt (p :: parents) requested with
    | some (r, reason) =>
      (r, s.record rt audit requested source r.toBool reason, p :: parents)
    | none =>
      let (r, p', parents') := checkInner rt requested source audit p parents
      match r with
      | .ok () => (.ok (), s, p' :: parents')
      | .error .aboveCeiling => (.error .aboveCeiling, s, p' :: parents')
      | .error (.delegated d) => (.error (.delegated d), s, p' :: parents')
      | .error _ =>
        (.error .noGrant, s.record rt audit requested source false
          (noGrantReason rt.toMachine (s :: p :: parents) requested), p' :: parents')

/-! ## Grants, denials and derived sets -/

/-- The set after a grant that a ceiling rejects. -/
def rejectGrant (rt : Runtime) (s : CapabilitySet) (capability : Capability)
    (origin source reason : Text) : CapabilitySet :=
  let rejected := if origin == "program" then s.rejectedByCeiling ++ [capability]
    else s.rejectedByCeiling
  pushAudit rt { s with rejectedByCeiling := rejected }
    { capability, granted := false, source, reason, origin, context := none }

/-- `grant_from`: the capability enters the set unless the host's ceiling or a delegated
one rejects it. -/
def grantFrom (rt : Runtime) (s : CapabilitySet) (capability : Capability) (origin : Text) :
    CapabilitySet :=
  if !s.withinCeiling rt.toMachine capability then
    s.rejectGrant rt capability origin "ceiling" (s.ceilingReason capability)
  else
    match s.rejectedByDelegation rt.toMachine capability with
    | some d => s.rejectGrant rt capability origin d.source.auditSource (d.reasonFor capability)
    | none =>
      let ambient : CapabilityAuditEntry :=
        { capability, granted := true, source := "ambient",
          reason := "auto-granted by the runtime", origin := origin, context := none }
      let audited := if origin == "runtime" then s.pushAudit rt ambient else s
      { audited with granted := insertCap capability audited.granted }

def deny (s : CapabilitySet) (capability : Capability) : CapabilitySet :=
  { s with denied := insertCap capability s.denied }

def pushDelegation (s : CapabilitySet) (d : Delegation) : CapabilitySet :=
  { s with delegated := s.delegated ++ [d] }

/-- `pop_delegation`: the end of a `sandbox under`. -/
def popDelegation (s : CapabilitySet) : CapabilitySet := { s with delegated := s.delegated.dropLast }

def grantAmbientDeclassify (s : CapabilitySet) : CapabilitySet :=
  if s.ceiling.isNone then { s with granted := insertCap ⟨.declassify, none⟩ s.granted } else s

/-- `create_child`: the set of a context below this one, with its ceilings. -/
def createChild (parent : CapabilitySet) (name : Text) : CapabilitySet :=
  { empty name with
    ceiling := parent.ceiling, delegated := parent.delegated, agent := parent.agent }

/-- `create_sandbox`: a set that inherits nothing but the ceilings. -/
def createSandbox (rt : Runtime) (s : CapabilitySet) (name : Text) (allowed : List Capability) :
    CapabilitySet :=
  allowed.foldl (fun sandbox cap => sandbox.grantFrom rt cap "program")
    { empty ("sandbox:" ++ name) with ceiling := s.ceiling, delegated := s.delegated }

/-! ## What the set itself decides -/

variable {rt : Runtime} {requested : Capability} {source : Text} {audit : Bool}

/-- Do the grants of the set accept the request? -/
def grants (m : Machine) (requested : Capability) (s : CapabilitySet) : Bool :=
  (firstCovering m s.granted requested).isSome || layerCoversSplit m s.granted requested

/-- Nothing in the set refuses the request: no denial, and no ceiling when the request is
declared. -/
structure Passes (rt : Runtime) (requested : Capability) (s : CapabilitySet)
    (parents : List CapabilitySet) : Prop where
  denied : s.deniedBy rt.toMachine requested = none
  ceiling : (s :: parents).any (isDeclared rt.toMachine requested) = true →
    s.withinCeiling rt.toMachine requested = true
  delegated : (s :: parents).any (isDeclared rt.toMachine requested) = true →
    s.rejectedByDelegation rt.toMachine requested = none
  crossing : (rt.crossing requested).isNone = true

variable {m : Machine} {s s' : CapabilitySet} {parents : List CapabilitySet}

theorem withinCeiling_of_none (h : s.ceiling.isSome = false) (cap : Capability) :
    s.withinCeiling m cap = true := by
  have hnone : s.ceiling = none := by simpa using h
  simp [withinCeiling, hnone]

theorem ownVerdict_cases (rt : Runtime) (requested : Capability) (s : CapabilitySet)
    (parents : List CapabilitySet) :
    (∃ cause reason, s.ownVerdict rt parents requested = some (.error cause, reason) ∧
        ¬ Passes rt requested s parents) ∨
      (∃ reason, s.ownVerdict rt parents requested = some (.ok (), reason) ∧
        Passes rt requested s parents ∧ s.grants rt.toMachine requested) ∨
      (s.ownVerdict rt parents requested = none ∧
        Passes rt requested s parents ∧ s.grants rt.toMachine requested = false) := by
  unfold ownVerdict
  cases hden : s.deniedBy rt.toMachine requested with
  | some d =>
    refine .inl ⟨_, _, rfl, ?_⟩
    intro hp
    rw [hp.denied] at hden
    cases hden
  | none =>
    generalize hdecl : (s :: parents).any (isDeclared rt.toMachine requested) = declared
    cases hceil : s.ceiling.isSome && !s.withinCeiling rt.toMachine requested && declared with
    | true =>
      refine .inl ⟨.aboveCeiling, s.ceilingReason requested, by simp [hceil], ?_⟩
      intro hp
      simp only [Bool.and_eq_true, Bool.not_eq_true'] at hceil
      rw [hp.ceiling (hdecl.trans hceil.2)] at hceil
      cases hceil.1.2
    | false =>
      have hwithin : declared → s.withinCeiling rt.toMachine requested := by
        intro hd
        cases hsome : s.ceiling.isSome with
        | false => exact withinCeiling_of_none hsome requested
        | true => simpa [hsome, hd] using hceil
      cases hdel : (s.rejectedByDelegation rt.toMachine requested).filter
          fun _ => declared with
      | some d =>
        refine .inl ⟨.delegated d, d.reasonFor requested, by simp [hceil, hdel], ?_⟩
        intro hp
        obtain ⟨hrej, hd⟩ := Option.filter_eq_some_iff.mp hdel
        rw [hp.delegated (hdecl.trans hd)] at hrej
        cases hrej
      | none =>
        have hdeleg : declared = true →
            s.rejectedByDelegation rt.toMachine requested = none := by
          intro hd
          cases hrej : s.rejectedByDelegation rt.toMachine requested with
          | none => rfl
          | some d => simp [hrej, hd] at hdel
        cases hcross : rt.crossing requested with
        | some c =>
          have hnot : ¬ Passes rt requested s parents := by
            intro hp
            have := hp.crossing
            simp [hcross] at this
          cases c with
          | link a => exact .inl ⟨.isolatedArea a, _, by simp [hceil, hdel]; rfl, hnot⟩
          | inUse a => exact .inl ⟨.areaInUse a, _, by simp [hceil, hdel]; rfl, hnot⟩
        | none =>
          have hp : Passes rt requested s parents :=
            ⟨hden, fun hd => hwithin (hdecl ▸ hd), fun hd => hdeleg (hdecl ▸ hd),
              by simp [hcross]⟩
          cases hfirst : firstCovering rt.toMachine s.granted requested with
          | some c =>
            exact .inr (.inl ⟨_, by simp [hceil, hdel]; rfl, hp, by simp [grants, hfirst]⟩)
          | none =>
            cases hsplit : layerCoversSplit rt.toMachine s.granted requested with
            | true =>
              exact .inr (.inl ⟨_, by simp [hceil, hdel]; rfl, hp,
                by simp [grants, hsplit]⟩)
            | false =>
              exact .inr (.inr ⟨by simp [hceil, hdel], hp,
                by simp [grants, hfirst, hsplit]⟩)

/-! ## What the chain decides -/

/-- The request is admitted: each set up to the first whose grants accept it lets it
pass. -/
def Admitted (rt : Runtime) (requested : Capability) :
    CapabilitySet → List CapabilitySet → Prop
  | s, [] => Passes rt requested s [] ∧ s.grants rt.toMachine requested = true
  | s, p :: parents => Passes rt requested s (p :: parents) ∧
      (s.grants rt.toMachine requested = true ∨ Admitted rt requested p parents)

theorem checkInner_ok_iff :
    (checkInner rt requested source audit s parents).1 = .ok () ↔
      Admitted rt requested s parents := by
  induction parents generalizing s with
  | nil =>
    unfold checkInner Admitted
    rcases ownVerdict_cases rt requested s [] with
      ⟨cause, reason, hv, hp⟩ | ⟨reason, hv, hp, hg⟩ | ⟨hv, hp, hg⟩
    · simp [hv, hp]
    · simp [hv, hp, hg]
    · simp [hv, hg]
  | cons p parents ih =>
    unfold checkInner Admitted
    rcases ownVerdict_cases rt requested s (p :: parents) with
      ⟨cause, reason, hv, hp⟩ | ⟨reason, hv, hp, hg⟩ | ⟨hv, hp, hg⟩
    · simp [hv, hp]
    · simp [hv, hp, hg]
    · rw [← ih (s := p)]
      obtain ⟨r, p', parents'⟩ := checkInner rt requested source audit p parents
      simp only [hv, hp, hg, Bool.false_eq_true, false_or, true_and]
      match r with
      | .ok () => simp
      | .error .aboveCeiling => simp
      | .error (.delegated d) => simp
      | .error (.explicitlyDenied d) => simp
      | .error .noGrant => simp
      | .error (.isolatedArea a) => simp
      | .error (.areaInUse a) => simp

theorem firstCovering_mem {set : CapSet} {c : Capability}
    (h : firstCovering m set requested = some c) : c ∈ set ∧ c.covers m requested = true := by
  unfold firstCovering at h
  simp only at h
  split at h
  · have hc := mem_of_getLast? h
    simp only [mem_filter, Bool.and_eq_true] at hc
    exact ⟨mem_reverse.mp ((List.takeWhile_prefix _).subset hc.1), hc.2.2⟩
  · have hc := mem_of_find?_eq_some h
    exact ⟨(mem_filter.mp hc).1, by simpa using find?_some h⟩

theorem layerCovers_of_grants (h : s.grants m requested) :
    layerCovers m s.granted requested = true := by
  rcases Bool.or_eq_true_iff.mp h with h | h
  · obtain ⟨c, hc⟩ := Option.isSome_iff_exists.mp h
    obtain ⟨hmem, hcov⟩ := firstCovering_mem hc
    exact Bool.or_eq_true_iff.mpr (.inl (any_eq_true.mpr ⟨c, hmem, hcov⟩))
  · exact Bool.or_eq_true_iff.mpr (.inr h)

theorem isDeclared_of_grants (h : s.grants m requested) : s.isDeclared m requested = true := by
  simp [isDeclared, layerCovers_of_grants h]

theorem declared_of_admitted (h : Admitted rt requested s parents) :
    (s :: parents).any (isDeclared rt.toMachine requested) = true := by
  induction parents generalizing s with
  | nil => simp [isDeclared_of_grants h.2]
  | cons p parents ih =>
    rcases h.2 with hg | hadm
    · simp [isDeclared_of_grants hg]
    · rw [any_cons, ih hadm, Bool.or_true]

/-- No denial of the set reaches the request, and its ceilings cover it: the host's, and
each layer of each delegated one, or for what is local to the process its deterministic
caveat. -/
structure WithinLimits (m : Machine) (requested : Capability) (s : CapabilitySet) : Prop where
  denied : ∀ d ∈ s.denied,
    d.coversByName m.toPlatform requested = false ∧ d.reachesPhysically m requested = false
  ceiling : ∀ c, s.ceiling = some c → layerCovers m c requested = true
  delegated : ∀ d ∈ s.delegated, requested.ty.isProcessLocal = false →
    ∀ layer ∈ d.layers, layerCovers m layer requested = true
  deterministic : ∀ d ∈ s.delegated, d.deterministic = true →
    requested.ty ≠ .time ∧ requested.ty ≠ .random

theorem Passes.withinLimits (h : Passes rt requested s parents)
    (hd : (s :: parents).any (isDeclared rt.toMachine requested)) :
    WithinLimits rt.toMachine requested s := by
  have hcov : ∀ d ∈ s.delegated, d.covers rt.toMachine requested := by
    intro d hmem
    simpa using find?_eq_none.mp (h.delegated hd) d hmem
  constructor
  · intro d hmem
    have hno := find?_eq_none.mp h.denied d hmem
    simpa using hno
  · intro c hc
    simpa [withinCeiling, hc] using h.ceiling hd
  · intro d hmem hlocal layer hlayer
    have hall := hcov d hmem
    simp only [Delegation.covers, hlocal, Bool.false_eq_true, if_false] at hall
    exact all_eq_true.mp hall layer hlayer
  · intro d hmem hdet
    have hall := hcov d hmem
    constructor
    · intro hty
      simp [Delegation.covers, hty, hdet, CapabilityType.isProcessLocal] at hall
    · intro hty
      simp [Delegation.covers, hty, hdet, CapabilityType.isProcessLocal] at hall

theorem withinLimits_of_admitted (h : Admitted rt requested s parents) :
    ∃ pre g post, s :: parents = pre ++ g :: post ∧
      g.grants rt.toMachine requested ∧
      ∀ t ∈ pre ++ [g], WithinLimits rt.toMachine requested t := by
  induction parents generalizing s with
  | nil =>
    have hd := declared_of_admitted h
    refine ⟨[], s, [], rfl, h.2, ?_⟩
    intro t ht
    rw [mem_singleton.mp ht]
    exact h.1.withinLimits hd
  | cons p parents ih =>
    have hd := declared_of_admitted h
    rcases h.2 with hg | hadm
    · refine ⟨[], s, p :: parents, rfl, hg, ?_⟩
      intro t ht
      rw [mem_singleton.mp ht]
      exact h.1.withinLimits hd
    · obtain ⟨pre, g, post, hchain, hg, hpre⟩ := ih hadm
      refine ⟨s :: pre, g, post, by rw [hchain]; rfl, hg, ?_⟩
      intro t ht
      rcases List.mem_cons.mp ht with rfl | ht
      · exact h.1.withinLimits hd
      · exact hpre t ht

/-! ## More limits -/

/-- `s'` is `s` with more limits: denials, a ceiling where there was none, delegated
ceilings. -/
structure Restricts (s s' : CapabilitySet) : Prop where
  granted : s'.granted = s.granted
  rejected : s'.rejectedByCeiling = s.rejectedByCeiling
  denied : s.denied ⊆ s'.denied
  ceiling : s.ceiling = none ∨ s'.ceiling = s.ceiling
  delegated : s.delegated ⊆ s'.delegated

theorem Restricts.isDeclared_eq (h : Restricts s s') :
    s'.isDeclared m requested = s.isDeclared m requested := by
  simp only [isDeclared, h.granted, h.rejected]

theorem any_isDeclared_eq {chain chain' : List CapabilitySet}
    (h : Forall₂ Restricts chain chain') :
    chain'.any (isDeclared m requested) = chain.any (isDeclared m requested) := by
  induction h with
  | nil => rfl
  | cons hs _ ih => rw [any_cons, any_cons, hs.isDeclared_eq, ih]

variable {parents' : List CapabilitySet}

theorem Passes.of_restricts (hs : Restricts s s') (hps : Forall₂ Restricts parents parents')
    (h : Passes rt requested s' parents') : Passes rt requested s parents := by
  have hdecl : (s' :: parents').any (isDeclared rt.toMachine requested)
      = (s :: parents).any (isDeclared rt.toMachine requested) := any_isDeclared_eq (.cons hs hps)
  constructor
  · refine find?_eq_none.mpr fun d hd => ?_
    exact find?_eq_none.mp h.denied d (hs.denied hd)
  · intro hd
    rcases hs.ceiling with hc | hc
    · simp [withinCeiling, hc]
    · simpa [withinCeiling, hc] using h.ceiling (hdecl.trans hd)
  · intro hd
    refine find?_eq_none.mpr fun d hmem => ?_
    exact find?_eq_none.mp (h.delegated (hdecl.trans hd)) d (hs.delegated hmem)
  · exact h.crossing

theorem Admitted.of_restricts (hs : Restricts s s') (hps : Forall₂ Restricts parents parents')
    (h : Admitted rt requested s' parents') : Admitted rt requested s parents := by
  have hgrants : ∀ {t t' : CapabilitySet}, Restricts t t' →
      t'.grants rt.toMachine requested = t.grants rt.toMachine requested := by
    intro t t' ht
    simp only [grants, ht.granted]
  induction hps generalizing s s' with
  | nil => exact ⟨h.1.of_restricts hs .nil, (hgrants hs).symm.trans h.2⟩
  | cons hp hps ih =>
    refine ⟨h.1.of_restricts hs (.cons hp hps), ?_⟩
    rcases h.2 with hg | hadm
    · exact .inl ((hgrants hs).symm.trans hg)
    · exact .inr (ih hp hadm)

/-- **The limits of a set only subtract.**  What a check admits is granted by some set of
the chain; that set and those before it have no denial that reaches it, and their
ceilings cover it.  And limits added anywhere in the chain turn no refusal into a yes. -/
theorem checkInner_only_subtracts (rt : Runtime) (requested : Capability) (source : Text)
    (audit : Bool) (s : CapabilitySet) (parents : List CapabilitySet) :
    ((checkInner rt requested source audit s parents).1 = .ok () →
      ∃ pre g post, s :: parents = pre ++ g :: post ∧
        layerCovers rt.toMachine g.granted requested = true ∧
        ∀ t ∈ pre ++ [g], WithinLimits rt.toMachine requested t) ∧
      ∀ s' parents', Restricts s s' → Forall₂ Restricts parents parents' →
        (checkInner rt requested source audit s' parents').1 = .ok () →
          (checkInner rt requested source audit s parents).1 = .ok () := by
  constructor
  · intro h
    obtain ⟨pre, g, post, hchain, hg, hpre⟩ := withinLimits_of_admitted (checkInner_ok_iff.mp h)
    exact ⟨pre, g, post, hchain, layerCovers_of_grants hg, hpre⟩
  · intro s' parents' hs hps h
    exact checkInner_ok_iff.mpr ((checkInner_ok_iff.mp h).of_restricts hs hps)

/-! A program that declares `stdout` runs under a block that lists no capability, and
its parent denies `stdout`. -/

/-- A machine without disk, environment or isolated children. -/
def bareRuntime : Runtime :=
  { envVar := fun _ => none, currentDir := none, toLowercase := toAsciiLowercase,
    disk := { fs := none, physicalOverride := none }, crossing := fun _ ↦ none, pcPrivate := false }

/-- The set of the program. -/
def blockSet : CapabilitySet :=
  { empty "main" with
    granted := [{ ty := .stdout, scope := none }]
    delegated := [{ caps := [], earlier := [], source := .block, deterministic := false }] }

/-- The set of its parent. -/
def denyingParent : CapabilitySet :=
  { empty "host" with denied := [{ ty := .stdout, scope := none }] }

/-- The check says yes, though the parent's denial covers the request and no layer of the
block does. -/
theorem not_checkInner_every_limit :
    ¬ ∀ (rt : Runtime) (requested : Capability) (source : Text) (audit : Bool)
        (s : CapabilitySet) (parents : List CapabilitySet),
        (checkInner rt requested source audit s parents).1 = .ok () →
        (∀ t ∈ s :: parents, ∀ d ∈ t.denied,
          d.coversByName rt.toPlatform requested = false ∧
            d.reachesPhysically rt.toMachine requested = false) ∧
        (∀ c, s.ceiling = some c → layerCovers rt.toMachine c requested = true) ∧
        (∀ d ∈ s.delegated, ∀ layer ∈ d.layers,
          layerCovers rt.toMachine layer requested = true) ∧
        ∃ t ∈ s :: parents, layerCovers rt.toMachine t.granted requested = true := by
  intro h
  have hclaim := h bareRuntime { ty := .stdout, scope := none } "print" false blockSet
    [denyingParent] rfl
  have hlayer := hclaim.2.2.1 _ (mem_singleton.mpr rfl) [] (mem_singleton.mpr rfl)
  exact absurd hlayer (by decide)

/-- The same set without its parent: its check says yes, and its limits hold. -/
theorem checkInner_only_subtracts_block :
    ∃ pre g post, [blockSet] = pre ++ g :: post ∧
      layerCovers bareRuntime.toMachine g.granted { ty := .stdout, scope := none } = true ∧
      ∀ t ∈ pre ++ [g], WithinLimits bareRuntime.toMachine { ty := .stdout, scope := none } t :=
  (checkInner_only_subtracts bareRuntime { ty := .stdout, scope := none } "print" true
    blockSet []).1 rfl

/-! ## Derived sets -/

/-- A set is what `root` has become, or a set below it, after grants, denials, checks, blocks of
`sandbox under`, children and sandboxes, with the machine in any state at each moment.  The blocks
that are left were entered below `root`.  The scope of a trusted module, which has a ceiling of its
own, is not among these. -/
inductive Derived (root : CapabilitySet) : CapabilitySet → Prop where
  | root : Derived root root
  | grant {s : CapabilitySet} (h : Derived root s) (rt : Runtime) (c : Capability) (origin : Text) :
      Derived root (s.grantFrom rt c origin)
  | ambient {s : CapabilitySet} (h : Derived root s) : Derived root s.grantAmbientDeclassify
  | deny {s : CapabilitySet} (h : Derived root s) (c : Capability) : Derived root (s.deny c)
  | check {s : CapabilitySet} (h : Derived root s) (rt : Runtime) (audit : Bool) (c : Capability)
      (source : Text) (granted : Bool) (reason : Text) :
      Derived root (s.record rt audit c source granted reason)
  | enter {s : CapabilitySet} (h : Derived root s) (d : Delegation) : Derived root (s.pushDelegation d)
  | leave {s : CapabilitySet} (h : Derived root s)
      (hbelow : root.delegated.length < s.delegated.length) : Derived root s.popDelegation
  | child {s : CapabilitySet} (h : Derived root s) (name : Text) : Derived root (s.createChild name)
  | sandbox {s : CapabilitySet} (h : Derived root s) (rt : Runtime) (name : Text)
      (allowed : List Capability) : Derived root (s.createSandbox rt name allowed)

/-- The set has the ceilings of `root`, and perhaps more delegated ones. -/
structure Below (root s : CapabilitySet) : Prop where
  ceiling : s.ceiling = root.ceiling
  delegated : root.delegated <+: s.delegated

variable {root : CapabilitySet}

theorem Below.pushAudit (h : Below root s) (entry : CapabilityAuditEntry) :
    Below root (s.pushAudit rt entry) := by
  rw [CapabilitySet.pushAudit]
  split_ifs <;> exact ⟨h.ceiling, h.delegated⟩

theorem Below.grantFrom (h : Below root s) (c : Capability) (origin : Text) :
    Below root (s.grantFrom rt c origin) := by
  have hreject (source reason : Text) : Below root (s.rejectGrant rt c origin source reason) := by
    refine Below.pushAudit ?_ _
    exact ⟨h.ceiling, h.delegated⟩
  rw [CapabilitySet.grantFrom]
  split
  · exact hreject _ _
  · split
    · exact hreject _ _
    · dsimp only
      split_ifs
      · exact ⟨(h.pushAudit _).ceiling, (h.pushAudit _).delegated⟩
      · exact ⟨h.ceiling, h.delegated⟩

theorem below_of_derived (h : Derived root s) : Below root s := by
  induction h with
  | root => exact ⟨rfl, prefix_rfl⟩
  | grant h rt c origin ih => exact ih.grantFrom c origin
  | ambient h ih =>
    rw [grantAmbientDeclassify]
    split_ifs <;> exact ⟨ih.ceiling, ih.delegated⟩
  | check h rt audit c source granted reason ih =>
    rw [record]
    split_ifs
    · exact ih.pushAudit _
    · exact ih
  | enter h d ih => exact ⟨ih.ceiling, ih.delegated.trans (prefix_append ..)⟩
  | leave h hbelow ih =>
    refine ⟨ih.ceiling, ?_⟩
    rw [popDelegation, dropLast_eq_take]
    exact prefix_take_iff.mpr ⟨ih.delegated, Nat.le_sub_one_of_lt hbelow⟩
  | deny h c ih | child h name ih => exact ⟨ih.ceiling, ih.delegated⟩
  | sandbox h rt name allowed ih =>
    have hfold : ∀ t : CapabilitySet, Below root t →
        Below root (allowed.foldl (fun sandbox cap => sandbox.grantFrom rt cap "program") t) := by
      induction allowed with
      | nil => exact fun t ht => ht
      | cons c allowed ih => exact fun t ht => ih _ (ht.grantFrom c _)
    exact hfold _ ⟨ih.ceiling, ih.delegated⟩

/-- **No derived set escapes**: what a check admits, of any set that comes of `root` by grants,
denials, blocks, children and sandboxes and with any parents, is within the ceilings of `root`. -/
theorem derived_bounded (h : Derived root s)
    (hok : (checkInner rt requested source audit s parents).1 = .ok ()) :
    WithinLimits rt.toMachine requested { root with denied := [] } := by
  obtain ⟨pre, g, post, hchain, -, hlimits⟩ := withinLimits_of_admitted (checkInner_ok_iff.mp hok)
  have hs : s ∈ pre ++ [g] := by
    cases pre with
    | nil => exact mem_singleton.mpr (cons.inj hchain).1
    | cons t pre => exact (cons.inj hchain).1 ▸ mem_cons_self
  have hw := hlimits s hs
  refine ⟨fun d hd => absurd hd not_mem_nil, fun c hc => ?_, fun d hd => ?_, fun d hd => ?_⟩
  · exact hw.ceiling c ((below_of_derived h).ceiling.trans hc)
  · exact hw.delegated d ((below_of_derived h).delegated.subset hd)
  · exact hw.deterministic d ((below_of_derived h).delegated.subset hd)

/-- A child of the program's set, with that as its parent. -/
theorem derived_bounded_child :
    WithinLimits bareRuntime.toMachine { ty := .stdout, scope := none }
      { blockSet with denied := [] } :=
  derived_bounded (.child .root "task") (rfl : (checkInner bareRuntime
    { ty := .stdout, scope := none } "print" true (blockSet.createChild "task") [blockSet]).1 = .ok ())

end CapabilitySet

end Synsema.Capability
