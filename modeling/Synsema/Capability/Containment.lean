import Synsema.Capability.Model

/-!
# Containment of scopes

A ceiling and a parent block compare a scope with a scope: they accept the narrower one
by name, and what they accept is meant to bound everything it reaches.  That holds when
covering by name is transitive.

For paths it is (`pathCovers_trans`).  The other types read the narrower scope as a plain
text, so that a `?` of the wider scope may consume a `*` of the narrower one, and a name
pattern may match the text of a network.  `Narrows` is the relation that a comparison
would have to check instead.
-/

namespace Synsema.Capability

open Text Capscope Net Wildcard List

/-! ## Names -/

/-- Does every text of the pattern `b` match the pattern `a`? -/
def patternContains (a b : Text) : Bool := contains (patternOf a) (patternOf b)

/-- The name pattern `a` bounds the name pattern `b`. -/
def NameNarrows (a b : Text) : Prop := a = b ∨ patternContains a b = true

instance (a b : Text) : Decidable (NameNarrows a b) := inferInstanceAs (Decidable (_ ∨ _))

variable {a w g r b c s : Text} {m : Platform} {ty : CapabilityType}

theorem lit_mem_patternOf {c : Char} : Sym.lit c ∈ patternOf a ↔ c ∈ a ∧ c ≠ '*' ∧ c ≠ '?' := by
  simp only [patternOf, mem_map]
  constructor
  · rintro ⟨x, hx, h⟩
    split at h
    · cases h
    · split at h
      · cases h
      · cases h
        exact ⟨hx, ‹_›, ‹_›⟩
  · rintro ⟨hc, hs, hq⟩
    exact ⟨c, hc, by simp [hs, hq]⟩

theorem accepts_patternOf_self (a : Text) : Accepts (patternOf a) a := by
  induction a with
  | nil => exact .nil
  | cons c a ih =>
    by_cases hs : c = '*'
    · subst hs
      exact .skip (.stop ih)
    · by_cases hq : c = '?'
      · subst hq
        exact .one ih
      · simpa [patternOf, hs, hq] using Accepts.lit ih

theorem eq_of_accepts_literal (ha : '*' ∉ a ∧ '?' ∉ a) (h : Accepts (patternOf a) w) : w = a := by
  induction a generalizing w with
  | nil => exact accepts_nil_iff.mp h
  | cons c a ih =>
    simp only [List.mem_cons, not_or] at ha
    have hc : patternOf (c :: a) = .lit c :: patternOf a := by
      simp [patternOf, Ne.symm ha.1.1, Ne.symm ha.2.1]
    rw [hc] at h
    obtain ⟨w', rfl, hw⟩ := accepts_lit_iff.mp h
    rw [ih ⟨ha.1.2, ha.2.2⟩ hw]

theorem plainScopeCovers_iff :
    plainScopeCovers g r ↔ Accepts (patternOf g) r := by
  rw [plainScopeCovers, Bool.or_eq_true, beq_iff_eq, fnmatch_iff]
  constructor
  · rintro (rfl | h)
    · exact accepts_patternOf_self g
    · exact h
  · exact .inr

theorem NameNarrows.accepts (h : NameNarrows a b) (hw : Accepts (patternOf b) w) :
    Accepts (patternOf a) w := by
  rcases h with rfl | h
  · exact hw
  · exact accepts_of_contains h hw

/-- A name that is not bounded leaves a text without wildcards that only the narrower
pattern matches, of the characters of that pattern and one that `a` does not use. -/
theorem exists_rejected {z : Char} (hz : z ∉ a ∧ z ≠ '*' ∧ z ≠ '?') (h : ¬ NameNarrows a b) :
    ∃ w, Accepts (patternOf b) w ∧ ¬ Accepts (patternOf a) w ∧ wild w = false ∧
      ∀ c ∈ w, c = z ∨ c ∈ b := by
  have hc : contains (patternOf a) (patternOf b) = false := by
    simpa [patternContains] using (not_or.mp h).2
  have hz' : Sym.lit z ∉ patternOf a := fun hm => hz.1 (lit_mem_patternOf.mp hm).1
  obtain ⟨w, hb, ha, hmem⟩ := rejected_of_contains hz' hc
  have hlit : ∀ c ∈ w, c ≠ '*' ∧ c ≠ '?' := by
    intro c hc
    rcases hmem c hc with rfl | hl
    · exact hz.2
    · exact (lit_mem_patternOf.mp hl).2
  refine ⟨w, hb, ha, ?_, fun c hc => (hmem c hc).imp_right fun hl => (lit_mem_patternOf.mp hl).1⟩
  exact wild_eq_false_iff.mpr ⟨fun hs => (hlit _ hs).1 rfl, fun hq => (hlit _ hq).2 rfl⟩

/-! ## Secrets -/

theorem secretScopeCovers_iff :
    secretScopeCovers g r ↔
      Accepts (patternOf (splitSecretScope g).1) (splitSecretScope r).1 ∧
        ∀ gh, (splitSecretScope g).2 = some gh → ∃ rh, (splitSecretScope r).2 = some rh ∧
          ∀ h ∈ split '|' rh, ∃ p ∈ split '|' gh, boundHostCovers p h = true := by
  have hname := @plainScopeCovers_iff (splitSecretScope g).1 (splitSecretScope r).1
  unfold plainScopeCovers at hname
  simp only [secretScopeCovers, Bool.and_eq_true, hname]
  refine and_congr_right fun _ => ?_
  cases hg : (splitSecretScope g).2 with
  | none => simp
  | some gh =>
    cases hr : (splitSecretScope r).2 with
    | none | some rh => simp

theorem secretScopeCovers_trans (h : NameNarrows (splitSecretScope a).1 (splitSecretScope b).1)
    (h₁ : secretScopeCovers a b) (h₂ : secretScopeCovers b c) : secretScopeCovers a c = true := by
  rw [secretScopeCovers_iff] at h₁ h₂ ⊢
  refine ⟨h.accepts h₂.1, ?_⟩
  intro ah hah
  obtain ⟨bh, hbh, hab⟩ := h₁.2 ah hah
  obtain ⟨ch, hch, hbc⟩ := h₂.2 bh hbh
  refine ⟨ch, hch, ?_⟩
  intro k hk
  obtain ⟨q, hq, hqk⟩ := hbc k hk
  obtain ⟨p, hp, hpq⟩ := hab q hq
  exact ⟨p, hp, boundHostCovers_trans hpq hqk⟩

/-! ## Hosts -/

/-- The host `a` of a `net` scope bounds the host `b`: they are one, or `b` is an address
of the network `a`, or the pattern `a` bounds the pattern `b` and, when `b` is a
network, the text of every address in it. -/
def HostNarrows (a b : Text) : Prop :=
  a = b ∨ cidrCovers a b = true ∨
    (patternContains a b = true ∧ ∀ t, cidrCovers b t = true → Accepts (patternOf a) t)

theorem netScopeCovers_iff :
    netScopeCovers g r ↔
      (Accepts (patternOf (splitNetScope g).1) (splitNetScope r).1 ∨
        cidrCovers (splitNetScope g).1 (splitNetScope r).1) ∧
        portOk (splitNetScope g).2 (splitNetScope r).2 = true := by
  simp only [netScopeCovers, Bool.and_eq_true, Bool.or_eq_true, beq_iff_eq, fnmatch_iff]
  refine and_congr_left fun _ => or_congr_left ?_
  constructor
  · rintro ((h | h) | rfl)
    · exact h ▸ accepts_patternOf_self _
    · exact h
    · exact accepts_patternOf_self _
  · exact fun h => .inl (.inr h)

theorem eq_of_accepts_addr (ha : ∀ c ∈ a, isAddrChar c) (h : Accepts (patternOf a) w) : w = a := by
  refine eq_of_accepts_literal ⟨?_, ?_⟩ h
  · exact fun hm => absurd (ha _ hm) (by decide)
  · exact fun hm => absurd (ha _ hm) (by decide)

theorem netScopeCovers_trans (h : HostNarrows (splitNetScope a).1 (splitNetScope b).1)
    (h₁ : netScopeCovers a b) (h₂ : netScopeCovers b c) : netScopeCovers a c = true := by
  rw [netScopeCovers_iff] at h₁ h₂ ⊢
  refine ⟨?_, portOk_trans h₁.2 h₂.2⟩
  rcases h with h | h | ⟨hpat, hnet⟩
  · exact h ▸ h₂.1
  · -- the middle host is an address: it covers itself only
    have haddr := isAddrChar_of_cidrCovers h
    rcases h₂.1 with hc | hc
    · exact .inr (eq_of_accepts_addr haddr hc ▸ h)
    · rw [cidrCovers_of_addr haddr] at hc
      cases hc
  · rcases h₂.1 with hc | hc
    · exact .inl (accepts_of_contains hpat hc)
    · exact .inl (hnet _ hc)

/-! ## Models -/

/-- The principal of a scope of `llm`, and the provider. -/
def splitLlmScope (s : Text) : Text × Option Text :=
  match rsplitOnce '@' s with
  | some (p, h) => (p, some (toAsciiLowercase h))
  | none => (s, none)

/-- The provider `a` bounds the provider `b`; a scope that names none speaks of all. -/
def ProviderNarrows : Option Text → Option Text → Prop
  | none, _ => True
  | some g, none => patternContains g "*" = true
  | some g, some r => NameNarrows g r

theorem llmScopeCovers_some_iff :
    llmScopeCovers (some g) (some r) ↔
      Accepts (patternOf (splitLlmScope g).1) (splitLlmScope r).1 ∧
        ∀ gh rh, (splitLlmScope g).2 = some gh → (splitLlmScope r).2 = some rh →
          Accepts (patternOf gh) rh := by
  have key : ∀ {g r : Text}, (g == r || fnmatch r g) = true ↔ Accepts (patternOf g) r :=
    plainScopeCovers_iff
  simp only [llmScopeCovers, Bool.and_eq_true]
  refine and_congr key ?_
  show _ ↔ ∀ gh rh, (splitLlmScope g).2 = some gh → (splitLlmScope r).2 = some rh → _
  unfold splitLlmScope
  cases rsplitOnce '@' g with
  | none => simp
  | some pg =>
    cases rsplitOnce '@' r with
    | none => simp
    | some pr => simpa using key

theorem llmScopeCovers_trans (h : NameNarrows (splitLlmScope a).1 (splitLlmScope b).1)
    (hh : ProviderNarrows (splitLlmScope a).2 (splitLlmScope b).2)
    (h₂ : llmScopeCovers (some b) (some c)) : llmScopeCovers (some a) (some c) = true := by
  rw [llmScopeCovers_some_iff] at h₂ ⊢
  refine ⟨h.accepts h₂.1, ?_⟩
  intro ah ch hah hch
  rw [hah] at hh
  cases hb : (splitLlmScope b).2 with
  | none =>
    rw [hb] at hh
    exact accepts_of_contains hh (fnmatch_iff.mp (fnmatch_star ch))
  | some bh =>
    rw [hb] at hh
    exact NameNarrows.accepts hh (h₂.2 bh ch hb hch)

/-! ## Paths and databases -/

/-- The scope `a` bounds the scope `b` for the request `c`: a path as `PathNarrows`, the
URL of a database as a name. -/
def PathScopeNarrows (m : Platform) (isDb : Bool) (a b c : Text) : Prop :=
  if isDb && isDbUrl c then NameNarrows (canonDb m a) (canonDb m b)
  else (isDb = true → isDbUrl a = false ∧ isDbUrl b = false) ∧ PathNarrows m a b c

theorem pathScopeCovers_of_narrows {isDb : Bool} (h : PathScopeNarrows m isDb a b c)
    (h₂ : pathScopeCovers m isDb b c) : pathScopeCovers m isDb a c = true := by
  cases hc : isDb && isDbUrl c with
  | true =>
    simp only [PathScopeNarrows, hc, if_true] at h
    obtain ⟨rfl, hurl⟩ := Bool.and_eq_true_iff.mp hc
    have key : ∀ g, pathScopeCovers m true g c = plainScopeCovers (canonDb m g) (canonDb m c) := by
      intro g
      simp [pathScopeCovers, hurl, plainScopeCovers]
    rw [key, plainScopeCovers_iff] at h₂ ⊢
    exact h.accepts h₂
  | false =>
    simp only [PathScopeNarrows, hc, Bool.false_eq_true, if_false] at h
    have key : ∀ g, (isDb = true → isDbUrl g = false) →
        pathScopeCovers m isDb g c = pathCovers m g c := by
      intro g hg
      cases isDb with
      | false => simp [pathScopeCovers]
      | true =>
        have hc' : isDbUrl c = false := by simpa using hc
        simp [pathScopeCovers, hg rfl, hc']
    rw [key b fun hd => (h.1 hd).2] at h₂
    rw [key a fun hd => (h.1 hd).1]
    exact pathCovers_of_narrows h.2 h₂

/-! ## Capabilities -/

/-- The scope `a` bounds the scope `b`, of a type whose scopes are no paths. -/
def ScopeNarrows (ty : CapabilityType) (a b : Text) : Prop :=
  match ty with
  | .secret => NameNarrows (splitSecretScope a).1 (splitSecretScope b).1
  | .net => HostNarrows (splitNetScope a).1 (splitNetScope b).1
  | .llm | .judge =>
    NameNarrows (splitLlmScope a).1 (splitLlmScope b).1 ∧
      ProviderNarrows (splitLlmScope a).2 (splitLlmScope b).2
  | _ => NameNarrows a b

/-- The capability `a` bounds the capability `b` for the request `c`. -/
def Narrows (m : Platform) (a b c : Capability) : Prop :=
  ∀ g r s, a.scope = some g → b.scope = some r → c.scope = some s →
    if a.ty.isPath then PathScopeNarrows m (a.ty == .db) g r s else ScopeNarrows a.ty g r

namespace CapabilityType

variable {r : CapabilityType}

theorem covers_iff {g : CapabilityType} :
    g.covers r ↔ g = r ∨ (g = .file ∧ (r = .fileRead ∨ r = .fileWrite)) := by
  simp [covers]

theorem eq_or_file_of_covers {g : CapabilityType} (h : g.covers r) :
    g = r ∨ (g.isPath = true ∧ r.isPath ∧ g ≠ .db ∧ r ≠ .db ∧
      g.scopedCoversUnscoped = false ∧ r.scopedCoversUnscoped = false) := by
  rcases covers_iff.mp h with h | ⟨rfl, rfl | rfl⟩
  · exact .inl h
  · exact .inr (by decide)
  · exact .inr (by decide)

theorem covers_trans {p q : CapabilityType} (h₁ : p.covers q) (h₂ : q.covers r) :
    p.covers r = true := by
  rw [covers_iff] at h₁ h₂ ⊢
  rcases h₁ with rfl | ⟨rfl, rfl | rfl⟩
  · exact h₂
  · exact .inr ⟨rfl, .inl (by simpa [eq_comm] using h₂)⟩
  · exact .inr ⟨rfl, .inr (by simpa [eq_comm] using h₂)⟩

end CapabilityType

theorem coversByName_iff {a b : Capability} (h : a.ty.scopedCoversUnscoped = false) :
    a.coversByName m b ↔ a.ty.covers b.ty ∧
      ∀ g, a.scope = some g → ∃ r, b.scope = some r ∧ scopeCovers m a.ty g r = true := by
  unfold coversByName
  cases a.ty.covers b.ty with
  | false => simp
  | true =>
    cases ha : a.scope with
    | none => simp [h]
    | some g =>
      cases hb : b.scope with
      | none | some r => simp [h]

theorem coversByName_llm_iff {a b : Capability} (h : a.ty.scopedCoversUnscoped) :
    a.coversByName m b ↔
      a.ty.covers b.ty ∧ llmScopeCovers a.scope b.scope = true := by
  unfold coversByName
  cases a.ty.covers b.ty <;> simp [h]

theorem scopeCovers_of_path (h : ty.isPath) (g r : Text) :
    scopeCovers m ty g r = pathScopeCovers m (ty == .db) g r := by
  simp [scopeCovers, h]

theorem scopeCovers_of_narrows (hpath : ty.isPath = false) (hllm : ty.scopedCoversUnscoped = false)
    (h : ScopeNarrows ty g r) (h₁ : scopeCovers m ty g r) (h₂ : scopeCovers m ty r s)
    : scopeCovers m ty g s = true := by
  by_cases hs : ty = .secret
  · subst hs
    exact secretScopeCovers_trans h h₁ h₂
  · by_cases hn : ty = .net
    · subst hn
      exact netScopeCovers_trans h h₁ h₂
    · have key : ∀ x y, scopeCovers m ty x y = plainScopeCovers x y := by
        intro x y
        simp [scopeCovers, hpath, hs, hn]
      have hname : NameNarrows g r := by
        cases ty with
        | net => exact absurd rfl hn
        | secret => exact absurd rfl hs
        | llm | judge => cases hllm
        | _ => exact h
      rw [key, plainScopeCovers_iff] at h₂ ⊢
      exact hname.accepts h₂

theorem coversByName_of_narrows {a b c : Capability} (h : Narrows m a b c) (h₁ : a.coversByName m b)
    (h₂ : b.coversByName m c) : a.coversByName m c = true := by
  cases hllm : a.ty.scopedCoversUnscoped with
  | true =>
    obtain ⟨ht₁, hc₁⟩ := (coversByName_llm_iff hllm).mp h₁
    have hty : a.ty = b.ty := by
      rcases CapabilityType.eq_or_file_of_covers ht₁ with hty | hfile
      · exact hty
      · rw [hfile.2.2.2.2.1] at hllm
        cases hllm
    obtain ⟨ht₂, hc₂⟩ := (coversByName_llm_iff (hty ▸ hllm)).mp h₂
    refine (coversByName_llm_iff hllm).mpr ⟨CapabilityType.covers_trans ht₁ ht₂, ?_⟩
    cases hs : c.scope with
    | none => simp [llmScopeCovers]
    | some s =>
      rw [hs] at hc₂
      cases hr : b.scope with
      | none => simp [hr, llmScopeCovers] at hc₂
      | some r =>
        rw [hr] at hc₁ hc₂
        cases hg : a.scope with
        | none => simp [hg, llmScopeCovers] at hc₁
        | some g =>
          have hn := h g r s hg hr hs
          have hty' : a.ty = .llm ∨ a.ty = .judge := by
            simpa [CapabilityType.scopedCoversUnscoped] using hllm
          rcases hty' with hty' | hty'
          · rw [hty'] at hn
            exact llmScopeCovers_trans hn.1 hn.2 hc₂
          · rw [hty'] at hn
            exact llmScopeCovers_trans hn.1 hn.2 hc₂
  | false =>
    obtain ⟨ht₁, hc₁⟩ := (coversByName_iff hllm).mp h₁
    have hllm' : b.ty.scopedCoversUnscoped = false := by
      rcases CapabilityType.eq_or_file_of_covers ht₁ with hty | hfile
      · exact hty ▸ hllm
      · exact hfile.2.2.2.2.2
    obtain ⟨ht₂, hc₂⟩ := (coversByName_iff hllm').mp h₂
    refine (coversByName_iff hllm).mpr ⟨CapabilityType.covers_trans ht₁ ht₂, ?_⟩
    intro g hg
    obtain ⟨r, hr, hgr⟩ := hc₁ g hg
    obtain ⟨s, hs, hrs⟩ := hc₂ r hr
    refine ⟨s, hs, ?_⟩
    have hn := h g r s hg hr hs
    cases hpath : a.ty.isPath with
    | true =>
      rw [if_pos hpath] at hn
      rw [scopeCovers_of_path hpath]
      have hdb : b.ty.isPath = true ∧ (b.ty == .db) = (a.ty == .db) := by
        rcases CapabilityType.eq_or_file_of_covers ht₁ with hty | hfile
        · exact hty ▸ ⟨hpath, rfl⟩
        · refine ⟨hfile.2.1, ?_⟩
          simp [hfile.2.2.1, hfile.2.2.2.1]
      rw [scopeCovers_of_path hdb.1, hdb.2] at hrs
      exact pathScopeCovers_of_narrows hn hrs
    | false =>
      rw [if_neg (by simp [hpath])] at hn
      have hty : a.ty = b.ty := by
        rcases CapabilityType.eq_or_file_of_covers ht₁ with hty | hfile
        · exact hty
        · rw [hfile.1] at hpath
          cases hpath
      rw [← hty] at hrs
      exact scopeCovers_of_narrows hpath hllm hn hgr hrs

/-! ## Path scopes -/

/-- Are two path scopes both absolute or both relative? -/
def SameRooted (m : Platform) (a b : Text) : Prop :=
  isRooted (normalizePath m a) = isRooted (normalizePath m b)

instance (m : Platform) (a b : Text) : Decidable (SameRooted m a b) :=
  inferInstanceAs (Decidable (_ = _))

/-- The types whose scopes are files. -/
def fileTypes : List CapabilityType := [.file, .fileRead, .fileWrite]

theorem coversByName_file_iff {p q : CapabilityType} (hp : p ∈ fileTypes) :
    (new m p (some a)).coversByName m (new m q (some b)) ↔
      p.covers q ∧ pathCovers m a b = true := by
  have hty : p.isPath = true ∧ p.scopedCoversUnscoped = false ∧ (p == .db) = false ∧
      ∀ s, storedScope m p s = s := by
    simp only [fileTypes, List.mem_cons, not_mem_nil, or_false] at hp
    rcases hp with rfl | rfl | rfl <;> exact ⟨rfl, rfl, rfl, fun _ => rfl⟩
  obtain ⟨hpath, hllm, hdb, hstored⟩ := hty
  rw [coversByName_iff hllm]
  refine and_congr_right fun hpq => ?_
  have hq : storedScope m q b = b := by
    rcases CapabilityType.covers_iff.mp hpq with rfl | ⟨rfl, rfl | rfl⟩
    · exact hstored b
    · rfl
    · rfl
  simp [new, hstored, hq, scopeCovers_of_path hpath, hdb, pathScopeCovers]

/-- **A path scope bounds what the scopes it accepts reach**: covering by name is
transitive among paths of one rootedness, for the matcher and for the capabilities that
a ceiling, a `require` and a request are. -/
theorem path_containment (m : Platform) (a b c : Text) (hab : SameRooted m a b)
    (hbc : SameRooted m b c) :
    (pathCovers m a b = true → pathCovers m b c = true → pathCovers m a c = true) ∧
      ∀ p ∈ fileTypes, ∀ q ∈ fileTypes, ∀ r ∈ fileTypes,
        (new m p (some a)).coversByName m (new m q (some b)) = true →
        (new m q (some b)).coversByName m (new m r (some c)) = true →
        (new m p (some a)).coversByName m (new m r (some c)) = true := by
  refine ⟨pathCovers_trans hab hbc, ?_⟩
  intro p hp q hq r hr h₁ h₂
  rw [coversByName_file_iff hp] at h₁ ⊢
  rw [coversByName_file_iff hq] at h₂
  exact ⟨CapabilityType.covers_trans h₁.1 h₂.1, pathCovers_trans hab hbc h₁.2 h₂.2⟩

/-- A machine without environment. -/
def bareMachine : Platform :=
  { envVar := fun _ => none, currentDir := none, toLowercase := toAsciiLowercase }

/-- A ceiling `/data/**`, a `require` of `/data/logs/*` and the file it reads. -/
theorem path_containment_logs :
    pathCovers bareMachine "/data/**" "/data/logs/*" = true ∧
      pathCovers bareMachine "/data/logs/*" "/data/logs/a.txt" = true ∧
      pathCovers bareMachine "/data/**" "/data/logs/a.txt" = true :=
  ⟨by decide, by decide,
    (path_containment bareMachine _ "/data/logs/*" _ (by decide) (by decide)).1
      (by decide) (by decide)⟩

/-! ## Scopes that are names -/

/-- The types whose scopes are names, hosts or units. -/
def namedTypes : List CapabilityType :=
  [.net, .env, .exec, .secret, .spend, .sign, .wallet, .reveal, .memory, .declassify]

/-- A scope that names one thing: no wildcard, and in `net` no network. -/
def Concrete (ty : CapabilityType) (c : Text) : Prop :=
  wild c = false ∧ (ty = .net → parseCidr (splitNetScope c).1 = none)

/-- The scope `a` bounds every concrete scope that a scope `b` it accepts reaches. -/
def ContainmentSound (m : Platform) (ty : CapabilityType) (a b : Text) : Prop :=
  ∀ c, Concrete ty c →
    (new m ty (some a)).coversByName m (new m ty (some b)) = true →
    (new m ty (some b)).coversByName m (new m ty (some c)) = true →
    (new m ty (some a)).coversByName m (new m ty (some c)) = true

/-- `K?` accepts `K*`, which reaches `Kabc`; `K?` does not. -/
theorem not_containmentSound :
    ¬ ∀ ty ∈ namedTypes, ∀ a b, ContainmentSound bareMachine ty a b := by
  intro h
  have hsound := h .env (by decide) "K?" "K*" "Kabc"
    ⟨by decide, by simp⟩ (by decide) (by decide)
  revert hsound
  decide

theorem namedTypes_isPath (h : ty ∈ namedTypes) :
    ty.isPath = false ∧ ty.scopedCoversUnscoped = false := by
  simp only [namedTypes, List.mem_cons, not_mem_nil, or_false] at h
  rcases h with rfl | rfl | rfl | rfl | rfl | rfl | rfl | rfl | rfl | rfl <;> decide

theorem coversByName_named_iff (hty : ty ∈ namedTypes) :
    (new m ty (some a)).coversByName m (new m ty (some b)) ↔
      scopeCovers m ty (storedScope m ty a) (storedScope m ty b) = true := by
  rw [coversByName_iff (namedTypes_isPath hty).2]
  simp [new, CapabilityType.covers]

theorem splitSecretScope_of_not_mem (h : '@' ∉ s) : splitSecretScope s = (s, none) := by
  simp [splitSecretScope, rsplitOnce_eq_none_iff.mpr h]

theorem at_mem_storedScope (h : '@' ∈ s) : '@' ∈ storedScope m .secret s := by
  unfold storedScope
  cases hs : rsplitOnce '@' s with
  | none => exact absurd h (rsplitOnce_eq_none_iff.mp hs)
  | some nh => simp

theorem scopeCovers_plain_iff (hty : ty ∈ namedTypes) (hnet : ty ≠ .net)
    (ha : ty = .secret → '@' ∉ a) (hb : ty = .secret → '@' ∉ b) :
    scopeCovers m ty (storedScope m ty a) (storedScope m ty b) ↔
      Accepts (patternOf a) b := by
  by_cases hs : ty = .secret
  · subst hs
    have hstored : ∀ s : Text, '@' ∉ s → storedScope m .secret s = s := by
      intro s h
      simp [storedScope, rsplitOnce_eq_none_iff.mpr h]
    rw [hstored a (ha rfl), hstored b (hb rfl)]
    show secretScopeCovers a b = true ↔ _
    simp [secretScopeCovers_iff, splitSecretScope_of_not_mem (ha rfl),
      splitSecretScope_of_not_mem (hb rfl)]
  · have hstored : ∀ s, storedScope m ty s = s := by
      intro s
      cases ty with
      | net => exact absurd rfl hnet
      | secret => exact absurd rfl hs
      | _ => rfl
    rw [hstored, hstored, ← plainScopeCovers_iff]
    simp [scopeCovers, (namedTypes_isPath hty).1, hs, hnet]

theorem scopeNarrows_plain_iff (hty : ty ∈ namedTypes) (hnet : ty ≠ .net)
    (ha : ty = .secret → '@' ∉ a) (hb : ty = .secret → '@' ∉ b) :
    ScopeNarrows ty a b ↔ NameNarrows a b := by
  cases ty with
  | net => exact absurd rfl hnet
  | secret =>
    show NameNarrows _ _ ↔ _
    rw [splitSecretScope_of_not_mem (ha rfl), splitSecretScope_of_not_mem (hb rfl)]
  | llm | judge => exact absurd hty (by decide)
  | _ => exact Iff.rfl

theorem exists_uncovered (hty : ty ∈ namedTypes) (hnet : ty ≠ .net) (hb : ty = .secret → '@' ∉ b)
    (hz : ∃ z : Char, z ∉ a ∧ z ≠ '*' ∧ z ≠ '?' ∧ z ≠ '@')
    (h₁ : (new m ty (some a)).coversByName m (new m ty (some b)))
    (hn : ¬ ScopeNarrows ty (storedScope m ty a) (storedScope m ty b)) :
    ∃ w, wild w = false ∧ (new m ty (some b)).coversByName m (new m ty (some w)) ∧
      ¬ (new m ty (some a)).coversByName m (new m ty (some w)) = true := by
  obtain ⟨z, hza, hz⟩ := hz
  have hcov := (coversByName_named_iff hty).mp h₁
  -- a bound secret does not accept one that is not bound
  have ha : ty = .secret → '@' ∉ a := by
    rintro rfl hat
    obtain ⟨nh, hnh⟩ := Option.ne_none_iff_exists'.mp
      (mt rsplitOnce_eq_none_iff.mp (not_not.mpr (at_mem_storedScope (m := m) hat)))
    have hg := (secretScopeCovers_iff.mp hcov).2 nh.2 (by simp [splitSecretScope, hnh])
    have hstored : storedScope m .secret b = b := by
      simp [storedScope, rsplitOnce_eq_none_iff.mpr (hb rfl)]
    rw [hstored, splitSecretScope_of_not_mem (hb rfl)] at hg
    simp at hg
  have hstored : ∀ s : Text, (ty = .secret → '@' ∉ s) → storedScope m ty s = s := by
    intro s hs
    cases ty with
    | net => exact absurd rfl hnet
    | secret => simp [storedScope, rsplitOnce_eq_none_iff.mpr (hs rfl)]
    | _ => rfl
  rw [hstored a ha, hstored b hb, scopeNarrows_plain_iff hty hnet ha hb] at hn
  obtain ⟨w, hbw, haw, hwild, hmem⟩ := exists_rejected ⟨hza, hz.1, hz.2.1⟩ hn
  have hw : ty = .secret → '@' ∉ w := by
    intro hs hat
    rcases hmem _ hat with hz' | hbm
    · exact hz.2.2 hz'.symm
    · exact hb hs hbm
  refine ⟨w, hwild, ?_, ?_⟩
  · rw [coversByName_named_iff hty, scopeCovers_plain_iff hty hnet hb hw]
    exact hbw
  · rw [coversByName_named_iff hty, scopeCovers_plain_iff hty hnet ha hw]
    exact haw

/-- **When a scope bounds what the scopes it accepts reach.**  It does when the scope
narrows those it accepts; and, away from `net` and for secrets that are not bound to
hosts, only then, given one character that the wider scope does not use. -/
theorem containmentSound_iff_narrows (m : Platform) (ty : CapabilityType) (hty : ty ∈ namedTypes)
    (a b : Text) :
    (((new m ty (some a)).coversByName m (new m ty (some b)) = true →
        ScopeNarrows ty (storedScope m ty a) (storedScope m ty b)) →
      ContainmentSound m ty a b) ∧
    (ty ≠ .net → (ty = .secret → '@' ∉ b) →
      (∃ z : Char, z ∉ a ∧ z ≠ '*' ∧ z ≠ '?' ∧ z ≠ '@') → ContainmentSound m ty a b →
      (new m ty (some a)).coversByName m (new m ty (some b)) = true →
        ScopeNarrows ty (storedScope m ty a) (storedScope m ty b)) := by
  constructor
  · intro hn c _ h₁ h₂
    have h := hn h₁
    rw [coversByName_named_iff hty] at h₁ h₂ ⊢
    exact scopeCovers_of_narrows (namedTypes_isPath hty).1 (namedTypes_isPath hty).2 h h₁ h₂
  · intro hnet hb hz hsound h₁
    by_contra hn
    obtain ⟨w, hwild, h₂, h₃⟩ := exists_uncovered hty hnet hb hz h₁ hn
    exact h₃ (hsound w ⟨hwild, fun h => absurd h hnet⟩ h₁ h₂)

/-- `K*` bounds `K?x`, whatever `K?x` reaches. -/
theorem containmentSound_iff_narrows_prefix :
    ContainmentSound bareMachine .env "K*" "K?x" :=
  (containmentSound_iff_narrows bareMachine .env (by decide) _ _).1 fun _ => .inr (by decide)

end Synsema.Capability
