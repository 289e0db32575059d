import Synsema.Capability.Ceiling
import Synsema.Capability.Reading

/-!
# The subject of a child program

On whose behalf a unit of work runs, and under which delegated ceilings.  `run_program` hands the
subject to the child as one JSON document (`synsema-runtime/src/subject.rs`): the ceilings layer by
layer, each capability as its type and its scope, which the child builds anew.

The document is written and read by `serde_json`, which is not part of the repository: it is a
parameter, with its two functions, and the theorems say of one document that it is read back.
-/

namespace Synsema

open Text Capability List

/-- `serde_json::Value`. -/
inductive Value where
  | null
  | bool (b : Bool)
  | posInt (n : UInt64)
  | negInt (n : Int64)
  | float (token : Text)
  | string (s : Text)
  | array (vs : List Value)
  | object (entries : List (Text × Value))

namespace Value

/-- `Value::get` of a key. -/
def get (v : Value) (key : Text) : Option Value :=
  match v with
  | object entries => entries.lookup key
  | _ => none

def asStr : Value → Option Text
  | string s => some s
  | _ => none

def asArray : Value → Option (List Value)
  | array vs => some vs
  | _ => none

def asBool : Value → Option Bool
  | bool b => some b
  | _ => none

def asU64 : Value → Option UInt64
  | posInt n => some n
  | _ => none

/-- `json!` of an option. -/
def ofOption {α : Type} (f : α → Value) : Option α → Value
  | none => null
  | some a => f a

end Value

/-- `serde_json::to_string` and `serde_json::from_str`. -/
structure SerdeJson where
  toString : Value → Text
  fromStr : Text → Option Value

/-! ## Writing and reading -/

/-- On whose behalf a unit of work runs. -/
structure Subject where
  identity : Option Text
  spendLimits : List (Text × Text)
  llmTokens : Option UInt64
  delegations : List Delegation

namespace Subject

/-- A capability of a layer. -/
def capToJson (c : Capability) : Value :=
  .object [("ty", .string c.ty.wireName), ("scope", .ofOption .string c.scope)]

def delegationToJson (d : Delegation) : Value :=
  let id := match d.source with
    | .token id => some id
    | _ => none
  .object [("token", .ofOption .string id), ("deterministic", .bool d.deterministic),
    ("layers", .array (d.layers.map fun l => .array (l.map capToJson)))]

/-- The document of a subject. -/
def toJson (s : Subject) : Value :=
  .object [("identity", .ofOption .string s.identity),
    ("spend_limits", .array (s.spendLimits.map fun (u, a) => .array [.string u, .string a])),
    ("llm_tokens", .ofOption .posInt s.llmTokens),
    ("delegations", .array (s.delegations.map delegationToJson))]

def toEnvJson (json : SerdeJson) (s : Subject) : Text := json.toString s.toJson

/-- A scope, or that there is none. -/
def scopeFromJson : Value → Option (Option Text)
  | .null => some none
  | s => s.asStr.map some

/-- Where a delegated ceiling comes from: a token, or the calling program. -/
def sourceFromJson : Value → Option DelegationSource
  | .string id => some (.token id)
  | .null => some .caller
  | _ => none

/-- A capability of a layer, built anew. -/
def capFromJson (m : Platform) (v : Value) : Option Capability := do
  let ty ← v.get "ty" >>= Value.asStr >>= capabilityTypeFromName
  let scope ← v.get "scope" >>= scopeFromJson
  return Capability.new m ty scope

/-- A layer: all of its capabilities, or none. -/
def layerFromJson (m : Platform) (v : Value) : Option (List Capability) := do
  let caps ← v.asArray
  caps.mapM (capFromJson m)

def delegationFromJson (m : Platform) (v : Value) : Option Delegation := do
  let layers ← v.get "layers" >>= Value.asArray
  let layers ← layers.mapM (layerFromJson m)
  let last ← layers.getLast?
  let deterministic ← v.get "deterministic" >>= Value.asBool
  let source ← v.get "token" >>= sourceFromJson
  return { caps := last, earlier := layers.dropLast, source, deterministic }

/-- `Delegation::caller` of no capability: the layer of what cannot be read. -/
def closed : Delegation := { caps := [], earlier := [], source := .caller, deterministic := false }

/-- A limit of spending. -/
def limitFromJson (v : Value) : Option (Text × Text) :=
  match v with
  | .array (u :: a :: _) => return (← u.asStr, ← a.asStr)
  | _ => none

def fromEnvJson (json : SerdeJson) (m : Platform) (s : Text) : Option Subject := do
  let v ← json.fromStr s
  return {
    identity := v.get "identity" >>= Value.asStr
    spendLimits := ((v.get "spend_limits" >>= Value.asArray).map
      (List.filterMap limitFromJson)).getD []
    llmTokens := v.get "llm_tokens" >>= Value.asU64
    delegations := match v.get "delegations" with
      | none => []
      | some (.array ds) => ds.map fun d => (delegationFromJson m d).getD closed
      | some _ => [closed] }

/-! ## What a document says -/

/-- The document of a capability says its type, and its scope or that it has none. -/
def SaysCap (v : Value) (ty : CapabilityType) (scope : Option Text) : Prop :=
  (∃ name, v.get "ty" = some (.string name) ∧ capabilityTypeFromName name = some ty) ∧
    v.get "scope" = some (.ofOption .string scope)

/-- The document of a layer lists its capabilities. -/
def SaysLayer (m : Platform) (v : Value) (layer : List Capability) : Prop :=
  ∃ vs, v = .array vs ∧
    Forall₂ (fun v c ↦ ∃ ty scope, SaysCap v ty scope ∧ c = Capability.new m ty scope) vs layer

/-- The document of a delegated ceiling lists its layers, of which there is one at least, and says
whether it is deterministic and which token it comes from, if any. -/
def SaysDelegation (m : Platform) (v : Value) (d : Delegation) : Prop :=
  (∃ vs, v.get "layers" = some (.array vs) ∧ Forall₂ (SaysLayer m) vs d.layers) ∧
    v.get "deterministic" = some (.bool d.deterministic) ∧
    ((∃ id, v.get "token" = some (.string id) ∧ d.source = .token id) ∨
      v.get "token" = some .null ∧ d.source = .caller)

variable {v : Value} {m : Platform} {d : Delegation}

theorem asStr_eq_some {s : Text} : v.asStr = some s ↔ v = .string s := by
  cases v <;> simp [Value.asStr]

theorem asArray_eq_some {vs : List Value} : v.asArray = some vs ↔ v = .array vs := by
  cases v <;> simp [Value.asArray]

theorem asBool_eq_some {b : Bool} : v.asBool = some b ↔ v = .bool b := by
  cases v <;> simp [Value.asBool]

theorem capFromJson_iff {c : Capability} :
    capFromJson m v = some c ↔ ∃ ty scope, SaysCap v ty scope ∧ c = Capability.new m ty scope := by
  have hscope (w : Value) (scope : Option Text) :
      scopeFromJson w = some scope ↔ w = .ofOption .string scope := by
    cases w <;> cases scope <;> simp [scopeFromJson, Value.ofOption, Value.asStr]
  unfold capFromJson SaysCap
  simp only [Option.bind_eq_bind, Option.bind_eq_some_iff, asStr_eq_some, hscope, Option.pure_def,
    Option.some.injEq]
  constructor
  · rintro ⟨ty, ⟨name, ⟨w, hw, rfl⟩, hty⟩, scope, ⟨w', hw', rfl⟩, rfl⟩
    exact ⟨ty, scope, ⟨⟨name, hw, hty⟩, hw'⟩, rfl⟩
  · rintro ⟨ty, scope, ⟨⟨name, hw, hty⟩, hw'⟩, rfl⟩
    exact ⟨ty, ⟨name, ⟨_, hw, rfl⟩, hty⟩, scope, ⟨_, hw', rfl⟩, rfl⟩

theorem layerFromJson_iff {layer : List Capability} :
    layerFromJson m v = some layer ↔ SaysLayer m v layer := by
  unfold layerFromJson SaysLayer
  cases v with
  | array vs =>
    simp only [Value.asArray, Option.bind_eq_bind, Option.bind_some, Option.mapM_eq_some_iff,
      capFromJson_iff, Value.array.injEq, exists_eq_left']
  | _ => simp [Value.asArray]

theorem delegationFromJson_iff :
    delegationFromJson m v = some d ↔ SaysDelegation m v d := by
  have hsource (w : Value) (source : DelegationSource) :
      sourceFromJson w = some source ↔
        (∃ id, w = .string id ∧ source = .token id) ∨ w = .null ∧ source = .caller := by
    cases w <;> simp [sourceFromJson, eq_comm]
  unfold delegationFromJson SaysDelegation
  simp only [Option.bind_eq_bind, Option.bind_eq_some_iff, asArray_eq_some, asBool_eq_some,
    Option.mapM_eq_some_iff, layerFromJson_iff, Option.pure_def, Option.some.injEq, hsource]
  constructor
  · rintro ⟨vs, ⟨w, hw, rfl⟩, layers, hvs, last, hlast, b, ⟨w', hw', rfl⟩, source, ⟨w'', hw'', hs⟩,
      rfl⟩
    refine ⟨⟨vs, hw, ?_⟩, hw', ?_⟩
    · rwa [Delegation.layers, dropLast_append_getLast? last hlast]
    · rcases hs with ⟨id, rfl, rfl⟩ | ⟨rfl, rfl⟩
      · exact .inl ⟨id, hw'', rfl⟩
      · exact .inr ⟨hw'', rfl⟩
  · rintro ⟨⟨vs, hw, hvs⟩, hdet, hs⟩
    refine ⟨vs, ⟨_, hw, rfl⟩, d.layers, hvs, d.caps, getLast?_concat, d.deterministic,
      ⟨_, hdet, rfl⟩, d.source, ?_, ?_⟩
    · rcases hs with ⟨id, hw, hs⟩ | ⟨hw, hs⟩
      · exact ⟨_, hw, .inl ⟨id, rfl, hs⟩⟩
      · exact ⟨_, hw, .inr ⟨rfl, hs⟩⟩
    · rw [Delegation.layers, dropLast_concat]

/-! ## There and back -/

/-- A layer, its capabilities built anew. -/
def rebuilt (m : Platform) (layer : List Capability) : List Capability :=
  layer.map fun c => Capability.new m c.ty c.scope

/-- What the child makes of a delegated ceiling. -/
def received (m : Platform) (d : Delegation) : Delegation where
  caps := rebuilt m d.caps
  earlier := d.earlier.map (rebuilt m)
  source := match d.source with
    | .token id => .token id
    | _ => .caller
  deterministic := d.deterministic

theorem layers_received (m : Platform) (d : Delegation) :
    (received m d).layers = d.layers.map (rebuilt m) := by
  simp [Delegation.layers, received]

theorem saysLayer_map (m : Platform) (layer : List Capability) :
    SaysLayer m (.array (layer.map capToJson)) (rebuilt m layer) := by
  refine ⟨_, rfl, ?_⟩
  rw [rebuilt, forall₂_map_left_iff, forall₂_map_right_iff, forall₂_same]
  intro c _
  refine ⟨c.ty, c.scope, ⟨⟨_, rfl, CapabilityType.capabilityTypeFromName_wireName c.ty⟩, rfl⟩, rfl⟩

theorem delegationFromJson_toJson (m : Platform) (d : Delegation) :
    delegationFromJson m (delegationToJson d) = some (received m d) := by
  rw [delegationFromJson_iff]
  refine ⟨⟨_, rfl, ?_⟩, rfl, ?_⟩
  · rw [layers_received, forall₂_map_left_iff, forall₂_map_right_iff, forall₂_same]
    exact fun layer _ => saysLayer_map m layer
  · unfold received delegationToJson
    cases d.source with
    | token id => exact .inl ⟨id, rfl, rfl⟩
    | block | caller => exact .inr ⟨rfl, rfl⟩

/-- Two ceilings decide alike: the same layers, one by one, and the same flag. -/
structure SameDelegation (m : Machine) (d d' : Delegation) : Prop where
  deterministic : d'.deterministic = d.deterministic
  layers : Forall₂ (fun l l' => ∀ req, layerCovers m l' req = layerCovers m l req)
    d.layers d'.layers
  token : ∀ id, d'.source = .token id ↔ d.source = .token id

theorem SameDelegation.covers {m : Machine} {d' : Delegation} (h : SameDelegation m d d')
    (req : Capability) : d'.covers m req = d.covers m req := by
  unfold Delegation.covers
  rw [h.deterministic]
  have hall : d'.layers.all (fun layer => layerCovers m layer req) =
      d.layers.all fun layer => layerCovers m layer req := by
    have hlayers := h.layers
    generalize d.layers = ls at hlayers
    generalize d'.layers = ls' at hlayers
    induction hlayers with
    | nil => rfl
    | cons hl _ ih => rw [all_cons, all_cons, hl, ih]
  rw [hall]

/-- The child reads each scope as the caller does. -/
def ReadAlike (m : Platform) (d : Delegation) : Prop :=
  ∀ layer ∈ d.layers, ∀ c ∈ layer, SameReading c (Capability.new m c.ty c.scope)

theorem sameDelegation_received {m : Machine} (h : ReadAlike m.toPlatform d) :
    SameDelegation m d (received m.toPlatform d) := by
  refine ⟨rfl, ?_, fun id => ?_⟩
  · rw [layers_received, forall₂_map_right_iff, forall₂_same]
    intro layer hlayer req
    refine (layerCovers_congr ?_ req).symm
    rw [rebuilt, forall₂_map_right_iff, forall₂_same]
    exact h layer hlayer
  · unfold received
    cases d.source <;> simp

theorem covers_closed {m : Machine} {req : Capability} (h : req.ty.isProcessLocal = false) :
    closed.covers m req = false := by
  unfold Delegation.covers
  rw [h]
  rfl

/-- Covers a ceiling nothing but what is local to the process? -/
def CoversNothing (m : Machine) (d : Delegation) : Prop :=
  ∀ req : Capability, req.ty.isProcessLocal = false → d.covers m req = false

/-- **The subject crosses to a child.**  What is written is read back as the same subject, whose
ceilings decide alike; and whatever the document, a ceiling that it does not say completely covers
nothing. -/
theorem fromEnvJson_subject (json : SerdeJson) (m : Machine) :
    (∀ s : Subject, json.fromStr (json.toString s.toJson) = some s.toJson →
      (∀ d ∈ s.delegations, ReadAlike m.toPlatform d) →
        ∃ s', fromEnvJson json m.toPlatform (toEnvJson json s) = some s' ∧
          s'.identity = s.identity ∧ s'.spendLimits = s.spendLimits ∧
          s'.llmTokens = s.llmTokens ∧
          Forall₂ (SameDelegation m) s.delegations s'.delegations ∧
          ∀ req, (s'.delegations.all fun d => d.covers m req) =
            s.delegations.all fun d => d.covers m req) ∧
      ∀ text v, json.fromStr text = some v → ∃ s', fromEnvJson json m.toPlatform text = some s' ∧
        (∀ vs, v.get "delegations" = some (.array vs) →
          Forall₂ (fun v d => SaysDelegation m.toPlatform v d ∨
            (∀ d', ¬ SaysDelegation m.toPlatform v d') ∧ CoversNothing m d) vs s'.delegations) ∧
        (∀ w, v.get "delegations" = some w → w.asArray = none →
          s'.delegations ≠ [] ∧ ∀ d ∈ s'.delegations, CoversNothing m d) := by
  refine ⟨fun s hread halike => ?_, fun text v hv => ?_⟩
  · have hsame : Forall₂ (SameDelegation m) s.delegations
        (s.delegations.map (received m.toPlatform)) := by
      rw [forall₂_map_right_iff, forall₂_same]
      exact fun d hd => sameDelegation_received (halike d hd)
    refine ⟨{ s with delegations := s.delegations.map (received m.toPlatform) }, ?_, rfl, rfl, rfl,
      hsame, fun req => ?_⟩
    · rw [fromEnvJson, toEnvJson, hread]
      have hlimits : (s.spendLimits.map fun (u, a) => Value.array [.string u, .string a]).filterMap
          limitFromJson = s.spendLimits := by
        rw [filterMap_map]
        exact filterMap_some
      have hidentity : (Value.ofOption .string s.identity).asStr = s.identity := by
        cases s.identity <;> rfl
      have htokens : (Value.ofOption .posInt s.llmTokens).asU64 = s.llmTokens := by
        cases s.llmTokens <;> rfl
      have hdelegations : ((s.delegations.map delegationToJson).map fun d =>
          (delegationFromJson m.toPlatform d).getD closed) =
            s.delegations.map (received m.toPlatform) := by
        rw [map_map]
        refine map_congr_left fun d _ => ?_
        rw [Function.comp_apply, delegationFromJson_toJson, Option.getD_some]
      change some ({ identity := _, spendLimits := _, llmTokens := _, delegations := _ } : Subject) =
        some _
      refine congrArg some ?_
      rw [Subject.mk.injEq]
      exact ⟨hidentity, hlimits, htokens, hdelegations⟩
    · rw [all_map]
      rw [Bool.eq_iff_iff, all_eq_true, all_eq_true]
      refine forall₂_congr fun d hd => ?_
      rw [Function.comp_apply, (sameDelegation_received (halike d hd)).covers req]
  · have hclosed : CoversNothing m closed := fun req => covers_closed
    refine ⟨_, by rw [fromEnvJson, hv]; rfl, fun vs hvs => ?_, fun w hw hnot => ?_⟩
    · dsimp only
      rw [hvs]
      dsimp only
      rw [forall₂_map_right_iff, forall₂_same]
      intro w _
      cases hd : delegationFromJson m.toPlatform w with
      | some d => exact .inl (delegationFromJson_iff.mp hd)
      | none =>
        refine .inr ⟨fun d' hd' => ?_, hclosed⟩
        rw [delegationFromJson_iff.mpr hd'] at hd
        cases hd
    · dsimp only
      rw [hw]
      cases w with
      | array vs => cases hnot
      | _ => exact ⟨cons_ne_nil _ _, forall_mem_singleton.mpr hclosed⟩

/-! ## A child of an agent -/

/-- A machine without a disk. -/
def diskless (m : Platform) : Machine := { m with disk := { fs := none, physicalOverride := none } }

/-- An agent below a token of two blocks. -/
def agentSubject : Subject where
  identity := some "agent-7".toList
  spendLimits := [("USD", "0.5")]
  llmTokens := some 1000
  delegations := [{
    caps := [⟨.net, some "intranet.corp".toList⟩], earlier := [[⟨.net, some "*".toList⟩]]
    source := .token "tok-1", deterministic := true }]

def agentText : Text :=
  ("\x7b\"identity\":\"agent-7\",\"spend_limits\":[[\"USD\",\"0.5\"]],\"llm_tokens\":1000," ++
    "\"delegations\":[\x7b\"token\":\"tok-1\",\"deterministic\":true,\"layers\":[" ++
    "[\x7b\"ty\":\"net\",\"scope\":\"*\"\x7d]," ++
    "[\x7b\"ty\":\"net\",\"scope\":\"intranet.corp\"\x7d]]\x7d]\x7d").toList

/-- `serde_json` on the document of the agent. -/
def agentJson : SerdeJson where
  toString _ := agentText
  fromStr text := if text = agentText then some agentSubject.toJson else none

theorem fromEnvJson_agent :
    ∃ s', fromEnvJson agentJson bareMachine (toEnvJson agentJson agentSubject) = some s' ∧
      s'.identity = agentSubject.identity ∧ s'.spendLimits = agentSubject.spendLimits ∧
      s'.llmTokens = agentSubject.llmTokens ∧
      Forall₂ (SameDelegation (diskless bareMachine)) agentSubject.delegations
        s'.delegations ∧
      ∀ req, (s'.delegations.all fun d => d.covers (diskless bareMachine) req) =
        agentSubject.delegations.all fun d => d.covers (diskless bareMachine) req := by
  have halike : ∀ d ∈ agentSubject.delegations, ReadAlike bareMachine d := by
    unfold ReadAlike
    decide
  have hread : agentJson.fromStr (agentJson.toString agentSubject.toJson) =
      some agentSubject.toJson := by simp [agentJson]
  exact (fromEnvJson_subject agentJson (diskless bareMachine)).1 agentSubject hread halike

/-- A ceiling `net("[[a:80]]")`, as it is stored. -/
def bracketSubject : Subject where
  identity := none
  spendLimits := []
  llmTokens := none
  delegations := [{ closed with caps := [⟨.net, some "[a:80]".toList⟩] }]

def bracketJson : SerdeJson := ⟨fun _ => [], fun _ => some bracketSubject.toJson⟩

/-- A document whose one ceiling is `null`. -/
def unreadable : Value := .object [("delegations", .array [.null])]

/-- A host in two pairs of brackets is stored in one, and the child takes that one off too: what
was the host `a:80` is then the host `a` at the port 80.  And what cannot be read still covers
what is local to the process. -/
theorem not_fromEnvJson_subject :
    (¬ ∀ (json : SerdeJson) (m : Machine) (s : Subject),
      json.fromStr (json.toString s.toJson) = some s.toJson →
        (∀ d ∈ s.delegations, ∀ layer ∈ d.layers, ∀ c ∈ layer,
          ∃ scope, c = Capability.new m.toPlatform c.ty scope) →
          ∃ s', fromEnvJson json m.toPlatform (toEnvJson json s) = some s' ∧
            ∀ req, (s'.delegations.all fun d => d.covers m req) =
              s.delegations.all fun d => d.covers m req) ∧
      ¬ ∀ (json : SerdeJson) (m : Machine) (text : Text) (v : Value),
        json.fromStr text = some v → ∃ s', fromEnvJson json m.toPlatform text = some s' ∧
          ∀ vs, v.get "delegations" = some (.array vs) →
            Forall₂ (fun v d => SaysDelegation m.toPlatform v d ∨
              ∀ req, d.covers m req = false) vs s'.delegations := by
  constructor
  · intro h
    obtain ⟨s', hs', hreq⟩ := h bracketJson (diskless bareMachine) bracketSubject rfl fun d hd => by
      rw [mem_singleton.mp hd]
      intro layer hlayer c hc
      rw [mem_singleton.mp hlayer] at hc
      rw [mem_singleton.mp hc]
      exact ⟨some "[[a:80]]".toList, by decide⟩
    cases hs'
    exact absurd (hreq ⟨.net, some "a:80".toList⟩) (by decide)
  · intro h
    obtain ⟨s', hs', hds⟩ := h ⟨fun _ ↦ [], fun _ ↦ some unreadable⟩ (diskless bareMachine) [] _ rfl
    cases hs'
    have hclosed := (forall₂_cons.mp (hds _ rfl)).1
    rcases hclosed with hsays | hcovers
    · obtain ⟨⟨vs, hvs, -⟩, -⟩ := hsays
      cases hvs
    · exact absurd (hcovers ⟨.stdout, none⟩) (by decide)

end Subject

end Synsema
