import Synsema.Capability.Ceiling
import Synsema.Capability.Set
import Synsema.Capscope.Normal

/-!
# The ceiling of a child program

`run_program` runs another program under the capabilities it asks for and its caller covers.
They are judged as they are written, made absolute, and handed to the child as one text
(`synsema-runtime/src/run_program.rs`, `absolute_paths` and the ceiling of the child).
-/

namespace Synsema.RunProgram

open Text Capscope Capability CapabilitySet List

/-! ## The ceiling -/

/-- `absolute_paths`: a path is made absolute; the URL of a database or `:memory:` is no path. -/
def absolutePaths (m : Platform) (cap : Capability) : Capability :=
  match cap.scope with
  | some s =>
    if cap.ty.isPath && !(cap.ty == .db && (isDbUrl s || s == ":memory:")) then
      Capability.new m cap.ty (some (absoluteScope m s))
    else cap
  | none => cap

/-- `check_silent`: a check that leaves nothing in the audit. -/
def checkSilent (rt : Runtime) (cap : Capability) (s : CapabilitySet)
    (parents : List CapabilitySet) : Bool :=
  (checkInner rt cap "silent" false s parents).1.toBool

/-- The entry of a capability that the caller does not cover. -/
def aboveParentEntry (cap : Capability) : CapabilityAuditEntry :=
  { capability := cap, granted := false, source := "run_program()",
    reason := "above parent ceiling", origin := "program", context := none }

/-- The requested capabilities that the caller covers.  Each of the others leaves an entry in
the caller's audit. -/
def intersect (rt : Runtime) (parents : List CapabilitySet) :
    List Capability → CapabilitySet → List Capability × CapabilitySet
  | [], s => ([], s)
  | cap :: rest, s =>
    if checkSilent rt cap s parents then
      let (kept, s) := intersect rt parents rest s
      (cap :: kept, s)
    else intersect rt parents rest (s.pushAudit rt (aboveParentEntry cap))

/-- What the child receives: the capabilities kept, and their text. -/
structure ChildCeiling where
  kept : List Capability
  capSet : Text
deriving DecidableEq

/-- The ceiling of the child, unless the scope of a capability cannot travel. -/
def childCeiling (rt : Runtime) (parents : List CapabilitySet) (requested : List Capability)
    (s : CapabilitySet) : Except Text ChildCeiling × CapabilitySet :=
  let (kept, s) := intersect rt parents requested s
  let kept := kept.map (absolutePaths rt.toPlatform)
  let blank := fun (c : Capability) => c.scope.any fun t => (trim t).isEmpty || trim t != t
  let comma := fun (c : Capability) => c.scope.any fun t => t.contains ','
  match kept.find? blank with
  | some bad =>
    (.error ("run_program: ceiling: the scope of " ++ bad.display ++
      " is empty or has spaces at its ends, which cannot travel to the child"), s)
  | none =>
    match kept.find? comma with
    | some bad =>
      (.error ("run_program: ceiling: the scope of " ++ bad.display ++
        " has a comma, which cannot travel to the child"), s)
    | none => (.ok { kept, capSet := capSetText kept }, s)

/-! ## What is kept -/

variable {rt : Runtime}

variable {s : CapabilitySet} {parents : List CapabilitySet} {a c r : Capability} {m : Platform}
  {p q : CapabilityType}

theorem checkSilent_iff {cap : Capability} :
    checkSilent rt cap s parents ↔ Admitted rt cap s parents := by
  have hok := @checkInner_ok_iff rt cap "silent" false s parents
  rw [checkSilent, ← hok]
  cases (checkInner rt cap "silent" false s parents).1 with
  | error e => exact ⟨nofun, nofun⟩
  | ok u => exact iff_of_true rfl rfl

theorem restricts_auditLog (s : CapabilitySet) (log : List CapabilityAuditEntry) :
    Restricts s { s with auditLog := log } ∧ Restricts { s with auditLog := log } s :=
  ⟨⟨rfl, rfl, List.Subset.refl _, .inr rfl, List.Subset.refl _⟩,
    ⟨rfl, rfl, List.Subset.refl _, .inr rfl, List.Subset.refl _⟩⟩

theorem restricts_pushAudit (s : CapabilitySet) (e : CapabilityAuditEntry) :
    Restricts s (s.pushAudit rt e) ∧ Restricts (s.pushAudit rt e) s := by
  unfold pushAudit
  cases rt.pcPrivate with
  | true => exact restricts_auditLog s s.auditLog
  | false => exact restricts_auditLog s _

theorem checkSilent_pushAudit (cap : Capability) (s : CapabilitySet) (e : CapabilityAuditEntry)
    (parents : List CapabilitySet) :
    checkSilent rt cap (s.pushAudit rt e) parents = checkSilent rt cap s parents := by
  have hparents : Forall₂ Restricts parents parents :=
    forall₂_same.mpr fun t _ => (restricts_auditLog t t.auditLog).1
  obtain ⟨hle, hge⟩ := @restricts_pushAudit rt s e
  rw [Bool.eq_iff_iff, checkSilent_iff, checkSilent_iff]
  exact ⟨Admitted.of_restricts hle hparents, Admitted.of_restricts hge hparents⟩

theorem intersect_fst (requested : List Capability) (s : CapabilitySet)
    (parents : List CapabilitySet) :
    (intersect rt parents requested s).1 = requested.filter fun c ↦ checkSilent rt c s parents := by
  induction requested generalizing s with
  | nil => rfl
  | cons cap rest ih =>
    unfold intersect
    cases hcap : checkSilent rt cap s parents with
    | true =>
      rw [filter_cons_of_pos (p := fun c => checkSilent rt c s parents) hcap]
      exact congrArg (cap :: ·) (ih s)
    | false =>
      rw [filter_cons_of_neg (p := fun c => checkSilent rt c s parents) (by simp [hcap])]
      refine (ih _).trans (filter_congr fun c _ => ?_)
      exact checkSilent_pushAudit c s _ parents

theorem childCeiling_eq_ok {requested : List Capability} {out : ChildCeiling}
    (h : (childCeiling rt parents requested s).1 = .ok out) :
    out.kept = (requested.filter fun c => checkSilent rt c s parents).map
        (absolutePaths rt.toPlatform) ∧
      out.capSet = capSetText out.kept ∧ ∀ c ∈ out.kept, Separable c := by
  unfold childCeiling at h
  rw [← intersect_fst]
  generalize intersect rt parents requested s = i at h
  obtain ⟨kept, s'⟩ := i
  simp only at h
  split at h
  · cases h
  · rename_i hblank
    split at h
    · cases h
    · rename_i hcomma
      cases h
      refine ⟨rfl, rfl, fun c hc t ht => ?_⟩
      have hb := find?_eq_none.mp hblank c hc
      have hk := find?_eq_none.mp hcomma c hc
      simp only [ht, Option.any_some, Bool.or_eq_true, not_or, bne_iff_ne, ne_eq, not_not] at hb hk
      refine ⟨?_, hb.2, ?_⟩
      · rintro rfl
        exact hb.1 rfl
      · simpa using hk

/-! ## What the ceiling covers -/

/-- Are the item `a`, the kept capability `c` in absolute form and the request `r` paths of the
disk? -/
def onDisk (m : Platform) (a c r : Capability) : Bool :=
  a.physicalScopePair c && (absolutePaths m c).physicalScopePair r &&
    c.scope != some ":memory:".toList

/-- The item `a` of the caller bounds the kept capability `c`, in absolute form, for the request
`r`.  A path it bounds when the request is absolute and the scopes are made absolute in the form
in which they are compared; anything else when it covers `c` and its pattern contains that of
`c`. -/
def Bounds (m : Platform) (a c r : Capability) : Prop :=
  c.scope = r.scope ∨
    if onDisk m a c r then
      ∀ g s t, a.scope = some g → c.scope = some s → r.scope = some t →
        Settled m g ∧ Anchored m s ∧ isRooted (normalizePath m t) = true
    else a.coversByName m (absolutePaths m c) = true ∧ Narrows m a (absolutePaths m c) r

theorem absolutePaths_ty (m : Platform) (c : Capability) : (absolutePaths m c).ty = c.ty := by
  unfold absolutePaths
  split
  · split <;> rfl
  · rfl

theorem physicalScopePair_iff {b : Capability} :
    a.physicalScopePair b ↔ a.ty.isPath ∧ b.ty.isPath ∧
      (∀ s, a.ty = .db → a.scope = some s → isDbUrl s = false) ∧
      (∀ s, b.ty = .db → b.scope = some s → isDbUrl s = false) := by
  have hurl : ∀ c : Capability, (!(c.ty == .db && c.scope.any isDbUrl)) = true ↔
      ∀ s, c.ty = .db → c.scope = some s → isDbUrl s = false := by
    intro c
    cases c.scope with
    | none => simp
    | some s =>
      cases hdb : c.ty == CapabilityType.db with
      | true => simp [beq_iff_eq.mp hdb]
      | false => simp [beq_eq_false_iff_ne.mp hdb]
  simp only [physicalScopePair, Bool.and_eq_true, hurl, and_assoc]

variable {ty : CapabilityType} {layer : List Capability} {g t : CapabilitySet}

theorem pathScopeCovers_of_pair {g s : Text} (hg : ty = .db → isDbUrl g = false)
    (hs : ty = .db → isDbUrl s = false) : pathScopeCovers m (ty == .db) g s = pathCovers m g s := by
  unfold pathScopeCovers
  cases hdb : ty == CapabilityType.db with
  | true => simp [hg (beq_iff_eq.mp hdb), hs (beq_iff_eq.mp hdb)]
  | false => simp

theorem storedScope_of_isPath (h : ty.isPath) (s : Text) : storedScope m ty s = s := by
  cases ty with
  | net | secret => cases h
  | _ => rfl

theorem absolutePaths_of_pair {s : Text} (h : a.physicalScopePair c)
    (hmem : c.scope ≠ some ":memory:".toList) (hs : c.scope = some s) :
    absolutePaths m c = { c with scope := some (absoluteScope m s) } := by
  obtain ⟨-, hpath, -, hurl⟩ := physicalScopePair_iff.mp h
  have hcond : (c.ty.isPath && !(c.ty == .db && (isDbUrl s || s == ":memory:"))) := by
    rw [hpath, Bool.true_and, Bool.not_eq_true', Bool.and_eq_false_iff]
    by_cases hdb : c.ty = .db
    · refine .inr (Bool.or_eq_false_iff.mpr ⟨hurl s hdb hs, ?_⟩)
      exact beq_eq_false_iff_ne.mpr fun heq => hmem (heq ▸ hs)
    · exact .inl (beq_eq_false_iff_ne.mpr hdb)
  unfold absolutePaths
  rw [hs]
  simp only [hcond, if_true, Capability.new, Option.map_some, storedScope_of_isPath hpath]

theorem db_of_covers (h : p.covers q) : p = .db ↔ q = .db := by
  rcases CapabilityType.covers_iff.mp h with rfl | ⟨rfl, rfl | rfl⟩
  · rfl
  · exact ⟨nofun, nofun⟩
  · exact ⟨nofun, nofun⟩

theorem coversByName_path_iff (h : a.physicalScopePair c) :
    a.coversByName m c ↔ a.ty.covers c.ty ∧
      ∀ g, a.scope = some g → ∃ s, c.scope = some s ∧ pathCovers m g s = true := by
  obtain ⟨hpath, hpath', hurl, hurl'⟩ := physicalScopePair_iff.mp h
  have hllm : a.ty.scopedCoversUnscoped = false := by
    cases hty : a.ty with
    | llm | judge => rw [hty] at hpath; cases hpath
    | _ => rfl
  rw [coversByName_iff hllm]
  refine and_congr_right fun hty => forall₂_congr fun g hg => exists_congr fun s =>
    and_congr_right fun hs => ?_
  rw [scopeCovers_of_path hpath, pathScopeCovers_of_pair (fun hdb => hurl g hdb hg)
    fun hdb => hurl' s ((db_of_covers hty).mp hdb) hs]

theorem coversByName_of_scope_eq (hscope : c.scope = r.scope) (hty : c.ty.covers r.ty)
    (h : a.coversByName m c) : a.coversByName m r = true := by
  have har := CapabilityType.covers_trans (ty_covers_of_coversByName h) hty
  unfold coversByName at h ⊢
  rw [ty_covers_of_coversByName h] at h
  rw [har, ← hscope]
  exact h

theorem coversByName_of_bounds (hcwd : ∀ cwd, m.currentDir = some cwd → startsWith "/" cwd)
    (hb : Bounds m a c r) (h₁ : a.coversByName m c) (h₂ : (absolutePaths m c).coversByName m r) :
    a.coversByName m r = true := by
  have hty : c.ty.covers r.ty := absolutePaths_ty m c ▸ ty_covers_of_coversByName h₂
  rcases hb with hscope | hb
  · exact coversByName_of_scope_eq hscope hty h₁
  · split at hb
    · rename_i hdisk
      simp only [onDisk, Bool.and_eq_true, bne_iff_ne] at hdisk
      obtain ⟨⟨hac, hcr⟩, hmem⟩ := hdisk
      have har : a.physicalScopePair r := by
        obtain ⟨hpath, -, hurl, -⟩ := physicalScopePair_iff.mp hac
        obtain ⟨-, hpath', -, hurl'⟩ := physicalScopePair_iff.mp hcr
        exact physicalScopePair_iff.mpr ⟨hpath, hpath', hurl, hurl'⟩
      obtain ⟨hty₁, h₁⟩ := (coversByName_path_iff hac).mp h₁
      obtain ⟨-, h₂⟩ := (coversByName_path_iff hcr).mp h₂
      refine (coversByName_path_iff har).mpr ⟨CapabilityType.covers_trans hty₁ hty, ?_⟩
      intro g hg
      obtain ⟨s, hs, hgs⟩ := h₁ g hg
      obtain ⟨t, ht, hst⟩ := h₂ (absoluteScope m s) (by rw [absolutePaths_of_pair hac hmem hs])
      obtain ⟨hsettled, hanchored, hroot⟩ := hb g s t hg hs ht
      exact ⟨t, ht, pathCovers_of_narrows
        (pathNarrows_absoluteScope hcwd hsettled hanchored hroot hgs) hst⟩
    · exact coversByName_of_narrows hb.2 hb.1 h₂

/-! ## The chain of the caller -/

/-- Every item that bounds a set: its grants, its ceiling and the layers of its delegations. -/
def items (s : CapabilitySet) : List Capability :=
  s.granted ++ s.ceiling.getD [] ++ (s.delegated.flatMap Delegation.layers).flatten

/-- Do the ceilings of the set cover the request by name? -/
structure WithinByName (m : Platform) (r : Capability) (s : CapabilitySet) : Prop where
  ceiling : ∀ c, s.ceiling = some c → ∃ a ∈ c, a.coversByName m r = true
  delegated : ∀ d ∈ s.delegated, r.ty.isProcessLocal = false →
    ∀ layer ∈ d.layers, ∃ a ∈ layer, a.coversByName m r = true
  deterministic : ∀ d ∈ s.delegated, d.deterministic = true → r.ty ≠ .time ∧ r.ty ≠ .random

/-- The request is covered by name: a set of the chain grants it, within the ceilings of that set
and of those before it. -/
def CoveredByName (m : Platform) (r : Capability) (chain : List CapabilitySet) : Prop :=
  ∃ pre g post, chain = pre ++ g :: post ∧ (∃ a ∈ g.granted, a.coversByName m r = true) ∧
    ∀ t ∈ pre ++ [g], WithinByName m r t

/-- Nothing but names decides the request: no denial, no folder lent to a child, and what covers
it by name covers it on disk. -/
structure NamesDecide (rt : Runtime) (r : Capability) (chain : List CapabilitySet) : Prop where
  denied : ∀ t ∈ chain, t.deniedBy rt.toMachine r = none
  crossing : (rt.crossing r).isNone = true
  disk : ∀ t ∈ chain, ∀ a ∈ items t, a.coversByName rt.toPlatform r = true →
    a.covers rt.toMachine r = true

theorem exists_coversByName_of_layerCovers {m : Machine} (h : layerCovers m layer c) :
    ∃ a ∈ layer, a.coversByName m.toPlatform c = true := by
  rcases Bool.or_eq_true_iff.mp h with h | h
  · obtain ⟨a, ha, hcov⟩ := any_eq_true.mp h
    exact ⟨a, ha, (Bool.and_eq_true_iff.mp hcov).1⟩
  · obtain ⟨a, ha, hcov⟩ := any_eq_true.mp (Bool.and_eq_true_iff.mp h).1
    exact ⟨a, ha, (Bool.and_eq_true_iff.mp hcov).2⟩

theorem layerCovers_of_covers {m : Machine} (ha : a ∈ layer) (h : a.covers m r) :
    layerCovers m layer r = true :=
  Bool.or_eq_true_iff.mpr (.inl (any_eq_true.mpr ⟨a, ha, h⟩))

theorem isPath_of_covers (h : p.covers q) (hp : p.isPath) : q.isPath = true := by
  rcases CapabilityType.covers_iff.mp h with rfl | ⟨-, rfl | rfl⟩
  · exact hp
  · rfl
  · rfl

/-- A set whose grants accept a capability accepts what they cover of it.  A request without
scope is looked for among the grants without scope only. -/
theorem grants_of_covers {m : Machine} (hg : g.grants m c) (hty : c.ty.covers r.ty)
    (hname : ∀ a ∈ g.granted, a.coversByName m.toPlatform c → a.coversByName m.toPlatform r)
    (hdisk : ∀ a ∈ g.granted, a.coversByName m.toPlatform r → a.covers m r)
    (hscope : r.scope = none → r.ty.family.scopedCoversUnscoped = false → c.scope = none) :
    g.grants m r = true := by
  have hfam := family_eq_of_covers hty
  cases hsel : r.scope.isNone && !r.ty.family.scopedCoversUnscoped with
  | false =>
    obtain ⟨a, ha, hac⟩ := exists_coversByName_of_layerCovers (layerCovers_of_grants hg)
    have har := hname a ha hac
    refine Bool.or_eq_true_iff.mpr (.inl ?_)
    simp only [firstCovering, hsel, Bool.false_eq_true, if_false, find?_isSome, mem_filter,
      beq_iff_eq]
    exact ⟨a, ⟨ha, family_eq_of_covers (ty_covers_of_coversByName har)⟩, hdisk a ha har⟩
  | true =>
    obtain ⟨hnone, hllm⟩ := Bool.and_eq_true_iff.mp hsel
    rw [Option.isNone_iff_eq_none] at hnone
    rw [Bool.not_eq_true'] at hllm
    have hcnone := hscope hnone hllm
    have hcsel : (c.scope.isNone && !c.ty.family.scopedCoversUnscoped) := by
      rw [hcnone, hfam, hllm]
      rfl
    rcases Bool.or_eq_true_iff.mp hg with h | h
    · refine Bool.or_eq_true_iff.mpr (.inl ?_)
      simp only [firstCovering, hcsel, if_true] at h
      simp only [firstCovering, hsel, if_true]
      rw [getLast?_isSome] at h ⊢
      obtain ⟨a, ha⟩ := exists_mem_of_ne_nil _ h
      simp only [mem_filter, Bool.and_eq_true, beq_iff_eq] at ha
      obtain ⟨hmem, hafam, hac⟩ := ha
      have ha : a ∈ g.granted := mem_reverse.mp ((List.takeWhile_prefix _).subset hmem)
      refine ne_nil_of_mem (mem_filter.mpr ⟨hmem, ?_⟩)
      rw [Bool.and_eq_true, beq_iff_eq]
      exact ⟨hafam.trans hfam, hdisk a ha (hname a ha (Bool.and_eq_true_iff.mp hac).1)⟩
    · refine Bool.or_eq_true_iff.mpr (.inr ?_)
      simp only [layerCoversSplit, Bool.and_eq_true, any_eq_true] at h ⊢
      obtain ⟨⟨a, ha, hpair, hac⟩, b, hb, hbc⟩ := h
      have hpairs : ∀ x : Capability, x.physicalScopePair c → x.physicalScopePair r := by
        intro x hx
        obtain ⟨hpath, hpath', hurl, -⟩ := physicalScopePair_iff.mp hx
        exact physicalScopePair_iff.mpr ⟨hpath, isPath_of_covers hty hpath', hurl,
          fun s _ hs => by rw [hnone] at hs; cases hs⟩
      refine ⟨⟨a, ha, hpairs a hpair, hname a ha hac⟩, b, hb, ?_⟩
      simp only [coversPhysically, Bool.and_eq_true, hcnone] at hbc
      simp only [coversPhysically, Bool.and_eq_true, hnone]
      obtain ⟨⟨hbty, hbpair⟩, hbscope⟩ := hbc
      refine ⟨⟨CapabilityType.covers_trans hbty hty, hpairs b hbpair⟩, ?_⟩
      cases hs : b.scope with
      | none => rfl
      | some t =>
        rw [hs] at hbscope
        cases hbscope

/-! ## The child and its caller -/

theorem admitted_of_passes {pre post : List CapabilitySet}
    (hpass : ∀ t ∈ pre ++ [g], ∀ ps, Passes rt r t ps) (hg : g.grants rt.toMachine r)
    (h : s :: parents = pre ++ g :: post) : Admitted rt r s parents := by
  induction pre generalizing s parents with
  | nil =>
    obtain ⟨rfl, rfl⟩ := cons.inj h
    have hs := hpass s mem_cons_self
    cases parents with
    | nil => exact ⟨hs [], hg⟩
    | cons p parents => exact ⟨hs _, .inl hg⟩
  | cons p pre ih =>
    obtain ⟨rfl, hrest⟩ := cons.inj h
    cases parents with
    | nil => simp at hrest
    | cons q parents =>
      refine ⟨hpass s mem_cons_self _, .inr (ih ?_ hrest)⟩
      exact fun t ht => hpass t (mem_cons_of_mem s ht)

theorem mem_items :
    a ∈ items s ↔ a ∈ s.granted ∨ (∃ c, s.ceiling = some c ∧ a ∈ c) ∨
      ∃ d ∈ s.delegated, ∃ layer ∈ d.layers, a ∈ layer := by
  simp only [items, mem_append, mem_flatten, mem_flatMap, or_assoc]
  refine or_congr_right (or_congr ?_ ?_)
  · cases s.ceiling <;> simp
  · constructor
    · rintro ⟨layer, ⟨d, hd, hl⟩, ha⟩
      exact ⟨d, hd, layer, hl, ha⟩
    · rintro ⟨d, hd, layer, hl, ha⟩
      exact ⟨layer, ⟨d, hd, hl⟩, ha⟩

theorem passes_of_names {chain : List CapabilitySet} (h : NamesDecide rt r chain) (ht : t ∈ chain)
    (hw : WithinByName rt.toPlatform r t) (ps : List CapabilitySet) : Passes rt r t ps where
  denied := h.denied t ht
  crossing := h.crossing
  ceiling _ := by
    unfold withinCeiling
    cases hc : t.ceiling with
    | none => rfl
    | some c =>
      obtain ⟨a, ha, har⟩ := hw.ceiling c hc
      exact layerCovers_of_covers ha
        (h.disk t ht a (mem_items.mpr (.inr (.inl ⟨c, hc, ha⟩))) har)
  delegated _ := by
    refine find?_eq_none.mpr fun d hd => ?_
    rw [Bool.not_eq_true', Bool.not_eq_false]
    unfold Delegation.covers
    cases hlocal : r.ty.isProcessLocal with
    | true =>
      simp only [if_true, Bool.not_eq_true', Bool.and_eq_false_iff, decide_eq_false_iff_not]
      cases hdet : d.deterministic with
      | false => exact .inl rfl
      | true =>
        obtain ⟨htime, hrandom⟩ := hw.deterministic d hd hdet
        exact .inr (by simp [htime, hrandom])
    | false =>
      simp only [Bool.false_eq_true, if_false]
      refine all_eq_true.mpr fun layer hl => ?_
      obtain ⟨a, ha, har⟩ := hw.delegated d hd hlocal layer hl
      exact layerCovers_of_covers ha
        (h.disk t ht a (mem_items.mpr (.inr (.inr ⟨d, hd, layer, hl, ha⟩))) har)

theorem withinByName_of_limits (h : WithinLimits rt.toMachine c t) (hty : c.ty.covers r.ty)
    (hname : ∀ a ∈ items t, a.coversByName rt.toPlatform c → a.coversByName rt.toPlatform r) :
    WithinByName rt.toPlatform r t := by
  have hlocal : r.ty.isProcessLocal = false → c.ty.isProcessLocal = false := by
    rcases CapabilityType.covers_iff.mp hty with heq | ⟨heq, -⟩
    · exact fun hr => heq ▸ hr
    · exact fun _ => by rw [heq]; rfl
  constructor
  · intro l hl
    obtain ⟨a, ha, hac⟩ := exists_coversByName_of_layerCovers (h.ceiling l hl)
    exact ⟨a, ha, hname a (mem_items.mpr (.inr (.inl ⟨l, hl, ha⟩))) hac⟩
  · intro d hd hr layer hl
    obtain ⟨a, ha, hac⟩ := exists_coversByName_of_layerCovers (h.delegated d hd (hlocal hr) layer hl)
    exact ⟨a, ha, hname a (mem_items.mpr (.inr (.inr ⟨d, hd, layer, hl, ha⟩))) hac⟩
  · intro d hd hdet
    obtain ⟨htime, hrandom⟩ := h.deterministic d hd hdet
    rcases CapabilityType.covers_iff.mp hty with heq | ⟨-, heq | heq⟩
    · exact heq ▸ ⟨htime, hrandom⟩
    · rw [heq]
      exact ⟨nofun, nofun⟩
    · rw [heq]
      exact ⟨nofun, nofun⟩

theorem scope_eq_none_of_absolutePaths (h : (absolutePaths m c).scope = none) : c.scope = none := by
  unfold absolutePaths at h
  split at h
  · split at h
    · cases h
    · exact h
  · assumption

theorem scope_eq_none_of_coversByName (h : c.coversByName m r) (hr : r.scope = none)
    (hllm : r.ty.family.scopedCoversUnscoped = false) : c.scope = none := by
  have hty := ty_covers_of_coversByName h
  have hfam : ∀ ty : CapabilityType, ty.family.scopedCoversUnscoped = ty.scopedCoversUnscoped := by
    intro ty
    cases ty <;> rfl
  have hc : c.ty.scopedCoversUnscoped = false := by
    rw [← hfam, family_eq_of_covers hty, hllm]
  cases hs : c.scope with
  | none => rfl
  | some g =>
    obtain ⟨t, ht, -⟩ := ((coversByName_iff hc).mp h).2 g hs
    rw [hr] at ht
    cases ht

/-- What the absolute form of a capability that the caller covers reaches by name, the caller
reaches by name, and where names decide a check says so. -/
theorem bounded_of_admitted
    (hcwd : ∀ cwd, rt.currentDir = some cwd → startsWith "/" cwd)
    (hadm : Admitted rt c s parents)
    (hr : (absolutePaths rt.toPlatform c).coversByName rt.toPlatform r)
    (hb : ∀ t ∈ s :: parents, ∀ a ∈ items t, a.coversByName rt.toPlatform c →
      Bounds rt.toPlatform a c r) :
    CoveredByName rt.toPlatform r (s :: parents) ∧
      (NamesDecide rt r (s :: parents) → Admitted rt r s parents) := by
  have hty : c.ty.covers r.ty :=
    absolutePaths_ty rt.toPlatform c ▸ ty_covers_of_coversByName hr
  have hname : ∀ t ∈ s :: parents, ∀ a ∈ items t, a.coversByName rt.toPlatform c = true →
      a.coversByName rt.toPlatform r = true := fun t ht a ha hac =>
    coversByName_of_bounds hcwd (hb t ht a ha hac) hac hr
  obtain ⟨pre, g, post, hchain, hgrants, hlimits⟩ := withinLimits_of_admitted hadm
  have hmem : ∀ t ∈ pre ++ [g], t ∈ s :: parents := by
    intro t ht
    rw [hchain]
    rcases mem_append.mp ht with ht | ht
    · exact mem_append_left _ ht
    · exact mem_append_right _ (mem_singleton.mp ht ▸ mem_cons_self)
  have hgmem : g ∈ s :: parents := hmem g (mem_append_right _ (mem_singleton_self g))
  have hgitems : ∀ a ∈ g.granted, a ∈ items g := fun a ha => mem_items.mpr (.inl ha)
  have hwithin : ∀ t ∈ pre ++ [g], WithinByName rt.toPlatform r t := fun t ht =>
    withinByName_of_limits (hlimits t ht) hty (hname t (hmem t ht))
  constructor
  · obtain ⟨a, ha, hac⟩ := exists_coversByName_of_layerCovers (layerCovers_of_grants hgrants)
    exact ⟨pre, g, post, hchain, ⟨a, ha, hname g hgmem a (hgitems a ha) hac⟩, hwithin⟩
  · intro hn
    refine admitted_of_passes (fun t ht => passes_of_names hn (hmem t ht) (hwithin t ht)) ?_ hchain
    exact grants_of_covers hgrants hty (fun a ha => hname g hgmem a (hgitems a ha))
      (fun a ha => hn.disk g hgmem a (hgitems a ha))
      fun hr' hllm => scope_eq_none_of_absolutePaths (scope_eq_none_of_coversByName hr hr' hllm)

/-- **A child gets no more than its caller.**  When `run_program` launches a child, the ceiling it
hands over is the capabilities that the caller covers, in absolute form.  The child reads exactly
those back when each of them travels, and only then.  And what one of them covers by name, where
the caller's items bound it, the caller covers by name; where nothing but names decides, a check
of the caller says yes. -/
theorem childCeiling_bounded (rt : Runtime) (child : Platform) (debug : Text → Text)
    (parents : List CapabilitySet) (requested : List Capability) (s : CapabilitySet)
    (out : ChildCeiling) (hcwd : ∀ cwd, rt.currentDir = some cwd → startsWith "/" cwd = true)
    (h : (childCeiling rt parents requested s).1 = .ok out) :
    out.kept = (requested.filter fun c => checkSilent rt c s parents).map
        (absolutePaths rt.toPlatform) ∧
      (buildCeiling child debug false (some out.capSet) = .ok (some out.kept) ↔
        ∀ c ∈ out.kept, Travels child debug c) ∧
      ∀ c ∈ requested, checkSilent rt c s parents = true → ∀ r,
        (absolutePaths rt.toPlatform c).coversByName rt.toPlatform r = true →
        (∀ t ∈ s :: parents, ∀ a ∈ items t, a.coversByName rt.toPlatform c = true →
          Bounds rt.toPlatform a c r) →
        CoveredByName rt.toPlatform r (s :: parents) ∧
          (NamesDecide rt r (s :: parents) → checkSilent rt r s parents = true) := by
  obtain ⟨hkept, hset, hsep⟩ := childCeiling_eq_ok h
  refine ⟨hkept, hset ▸ buildCeiling_capSet_iff hsep, ?_⟩
  intro c _ hc r hr hb
  obtain ⟨hname, hcheck⟩ := bounded_of_admitted hcwd (checkSilent_iff.mp hc) hr hb
  exact ⟨hname, fun hn => checkSilent_iff.mpr (hcheck hn)⟩

/-! ## What is not bounded

A denial does not travel to the child, nor does what a link on disk leads away.  And three things
go wrong on the way: a scope in two pairs of brackets loses the second in the child, a `?` of the
caller takes the `*` of the child for a character, and the wildcards of the current directory
become part of the child's pattern. -/

/-- Is the child's ceiling what was kept, and all that it covers by name covered for the
caller? -/
def ChildBounded (rt : Runtime) (debug : Text → Text) (parents : List CapabilitySet)
    (requested : List Capability) (s : CapabilitySet) : Prop :=
  ∀ out, (childCeiling rt parents requested s).1 = .ok out →
    buildCeiling rt.toPlatform debug false (some out.capSet) = .ok (some out.kept) ∧
      ∀ r : Capability, (r.scope.all fun t => !wild t) = true →
        (∃ c ∈ out.kept, c.coversByName rt.toPlatform r = true) →
        checkSilent rt r s parents = true

/-- A set of a program with one grant. -/
def grantedSet (c : Capability) : CapabilitySet := { empty "main" with granted := [c] }

/-- A directory `/data` with a link out of it. -/
def linkedRuntime : Runtime :=
  { bareRuntime with
    disk :=
      { fs := some
          { canonicalize := fun p =>
              if p = "/data/link" then some "/etc".toList else some p
            isSymlink := fun p => some (p == "/data/link")
            readLink := fun _ => none }
        physicalOverride := none } }

/-- A current directory whose name has a wildcard, on a disk without links. -/
def starRuntime : Runtime :=
  { bareRuntime with
    currentDir := some "/a*b".toList
    disk :=
      { fs := some
          { canonicalize := some
            isSymlink := fun _ => some false
            readLink := fun _ => none }
        physicalOverride := none } }

/-- A capability to read files. -/
abbrev fileRead (s : String) : Capability := ⟨.fileRead, some s.toList⟩

/-- A text between quotes. -/
def quoted (t : Text) : Text := '"' :: t ++ ['"']

theorem not_childBounded :
    ¬ ChildBounded bareRuntime quoted [] [fileRead "/data/**"]
        { grantedSet (fileRead "/data/**") with denied := [fileRead "/data/key"] } ∧
      ¬ ChildBounded linkedRuntime quoted [] [fileRead "/data/**"]
        (grantedSet (fileRead "/data/**")) ∧
      ¬ ChildBounded bareRuntime quoted [] [Capability.new bareMachine .net (some "[[::1]]".toList)]
        (grantedSet ⟨.net, none⟩) ∧
      ¬ ChildBounded bareRuntime quoted [] [⟨.env, some "K*".toList⟩]
        (grantedSet ⟨.env, some "K?".toList⟩) ∧
      ¬ ChildBounded starRuntime quoted [] [fileRead "data"] (grantedSet (fileRead "data")) := by
  refine ⟨?_, ?_, ?_, ?_, ?_⟩
  · intro h
    have hr := (h ⟨[fileRead "/data/**"], "file.read=/data/**"⟩ (by decide +kernel)).2
      (fileRead "/data/key") (by decide) ⟨_, mem_singleton_self _, by decide +kernel⟩
    revert hr
    decide +kernel
  · intro h
    have hr := (h ⟨[fileRead "/data/**"], "file.read=/data/**"⟩ (by decide +kernel)).2
      (fileRead "/data/link") (by decide) ⟨_, mem_singleton_self _, by decide +kernel⟩
    revert hr
    decide +kernel
  · intro h
    have hread := (h ⟨[⟨.net, some "[::1]".toList⟩], "net=[::1]"⟩ (by decide +kernel)).1
    revert hread
    decide +kernel
  · intro h
    have hr := (h ⟨[⟨.env, some "K*".toList⟩], "env=K*"⟩ (by decide +kernel)).2
      ⟨.env, some "Kabc".toList⟩ (by decide) ⟨_, mem_singleton_self _, by decide +kernel⟩
    revert hr
    decide +kernel
  · intro h
    have hr := (h ⟨[fileRead "/a*b/data"], "file.read=/a*b/data"⟩ (by decide +kernel)).2
      (fileRead "/aXb/data") (by decide) ⟨_, mem_singleton_self _, by decide +kernel⟩
    revert hr
    decide +kernel

/-- A current directory on a disk without links. -/
def srvRuntime : Runtime := { starRuntime with currentDir := some "/srv".toList }

/-- The child of a program that may read `data/**` reads back `/srv/data/**`, and its caller may
read what that covers. -/
theorem childCeiling_bounded_srv :
    buildCeiling srvRuntime.toPlatform quoted false (some "file.read=/srv/data/**".toList) =
        .ok (some [fileRead "/srv/data/**"]) ∧
      checkSilent srvRuntime (fileRead "/srv/data/a.csv") (grantedSet (fileRead "data/**")) [] =
        true := by
  have hitems : ∀ t ∈ [grantedSet (fileRead "data/**")], ∀ a ∈ items t, a = fileRead "data/**" := by
    intro t ht a ha
    rw [mem_singleton.mp ht] at ha
    exact mem_singleton.mp ha
  obtain ⟨-, hread, hreach⟩ := childCeiling_bounded srvRuntime srvRuntime.toPlatform quoted []
    [fileRead "data/**"] (grantedSet (fileRead "data/**"))
    ⟨[fileRead "/srv/data/**"], "file.read=/srv/data/**"⟩
    (by rintro cwd ⟨⟩; decide) (by decide +kernel)
  obtain ⟨-, hcheck⟩ := hreach (fileRead "data/**") mem_cons_self (by decide +kernel)
    (fileRead "/srv/data/a.csv") (by decide +kernel) (by
      intro t ht a ha _
      rw [hitems t ht a ha]
      refine .inr ?_
      rw [if_pos (by decide +kernel)]
      rintro g s t ⟨⟩ ⟨⟩ ⟨⟩
      exact ⟨by decide +kernel, ⟨by decide +kernel, by decide +kernel, by decide +kernel⟩,
        by decide +kernel⟩)
  refine ⟨hread.mpr ?_, hcheck ⟨?_, rfl, ?_⟩⟩
  · intro c hc s hs
    rw [mem_singleton.mp hc] at hs ⊢
    exact ⟨rfl, nofun, rfl⟩
  · intro t ht
    rw [mem_singleton.mp ht]
    rfl
  · intro t ht a ha _
    rw [hitems t ht a ha]
    decide +kernel

end Synsema.RunProgram
