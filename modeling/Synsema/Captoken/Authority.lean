import Synsema.Capability.Containment
import Synsema.Captoken.Roundtrip
import Synsema.Captoken.Verify

/-!
# The authority of a token

A verified token may do what its last block allows: verification has checked that every
block is covered by the one before it.  That bounds the token by each of its blocks when
covering is transitive, and covering is not: the last block bounds the chain where each
scope narrows the one that covers it (`captokenAllows_bounded`).
-/

namespace Synsema.Captoken

open Text Capscope Capability Bytesutil List

variable {env : Env} {who name : Text} {ty : CapabilityType} {s : Text}

/-! ## Loops that may fail -/

variable {α : Type} {m : Machine} {key : Bytes} {aud ip method : Option Text} {at_ : Int}
  {revoked : List Text} {v : Verified} {eff : Caveats} {last : Block}

variable {f : α → Except Text Bool} {l : List α} {c o : Capability} {caps : Caps}
  {tokenText : Text} {t : Token} {blocks : List Block} {hmac : Bytes → Bytes → Bytes}

theorem of_allM (h : l.allM f = .ok true) : ∀ a ∈ l, f a = .ok true := by
  induction l with
  | nil => simp
  | cons a l ih =>
    unfold List.allM at h
    cases hf : f a with
    | error e =>
      rw [hf] at h
      cases h
    | ok b =>
      rw [hf] at h
      cases b with
      | false => cases h
      | true =>
        intro c hc
        rcases List.mem_cons.mp hc with rfl | hc
        · exact hf
        · exact ih h c hc

theorem of_anyM (h : l.anyM f = .ok true) : ∃ a ∈ l, f a = .ok true := by
  induction l with
  | nil => cases h
  | cons a l ih =>
    unfold List.anyM at h
    cases hf : f a with
    | error e =>
      rw [hf] at h
      cases h
    | ok b =>
      rw [hf] at h
      cases b with
      | false =>
        obtain ⟨c, hc, hfc⟩ := ih h
        exact ⟨c, mem_cons_of_mem a hc, hfc⟩
      | true => exact ⟨a, mem_cons_self, hf⟩

/-! ## Covering -/

/-- The capability of a scope. -/
def capOf (env : Env) (ty : CapabilityType) (s : Text) : Capability :=
  Capability.new env.machine.toPlatform ty (some s)

theorem toCapability_some (hty : capabilityTypeFromName name = some ty) (who s : Text) :
    toCapability env who name (some s) = .ok (capOf env ty s) := by
  simp [toCapability, hty, capOf]

/-- Does a block allow the capability of the name with a scope: without a scope of its own,
or by one that covers it? -/
def BlockCovers (env : Env) (name : Text) (ty : CapabilityType) (s : Text) (caps : Caps) : Prop :=
  ∃ scopes, (name, scopes) ∈ caps ∧
    (scopes = [] ∨ ∃ g ∈ scopes, (capOf env ty g).covers env.machine (capOf env ty s) = true)

theorem capsCover_entry (hty : capabilityTypeFromName name = some ty) {parent child : Caps}
    (h : capsCover env who parent child = .ok true) {scopes : List Text}
    (hmem : (name, scopes) ∈ child) :
    ∃ ps, parent.find? (fun p => p.1 == name) = some (name, ps) ∧ (scopes = [] → ps = []) ∧
      ∀ r ∈ scopes, ps ≠ [] →
        ∃ g ∈ ps, (capOf env ty g).covers env.machine (capOf env ty r) = true := by
  have hentry := of_allM h _ hmem
  unfold entryCovered at hentry
  cases hfind : parent.find? (fun p => p.1 == name) with
  | none => simp [hfind] at hentry
  | some p =>
    obtain ⟨n, ps⟩ := p
    obtain rfl : n = name := by simpa using find?_some hfind
    simp only [hfind] at hentry
    refine ⟨ps, rfl, ?_, ?_⟩
    · rintro rfl
      simpa using hentry
    · intro r hr hps
      have hne : scopes.isEmpty = false := by
        cases scopes with
        | nil => cases hr
        | cons => rfl
      rw [hne] at hentry
      have hr' := of_allM hentry r hr
      have hps' : ps.isEmpty = false := by simpa using hps
      unfold scopeCovered at hr'
      rw [toCapability_some hty] at hr'
      simp only [bind, Except.bind, hps'] at hr'
      obtain ⟨g, hg, hcov⟩ := of_anyM hr'
      refine ⟨g, hg, ?_⟩
      unfold parentScopeCovers at hcov
      rw [toCapability_some hty] at hcov
      split at hcov
      · cases hcov
      · simpa [Except.map] using hcov

/-! ## A disk without links -/

/-- No link lies on a path that a scope names: what is within the scope by name is within it
on disk. -/
def LinkFree (m : Machine) : Prop :=
  ∀ scope req, pathCovers m.toPlatform scope req = true →
    pathWithinPhysically m.toPlatform m.disk scope req = true

theorem linkFree_of_noFs (h : m.disk.fs = none) : LinkFree m := by
  intro scope req _
  unfold pathWithinPhysically physicalScopeParts physicalPath
  simp [h]

theorem covers_of_coversByName (hfree : LinkFree m) (h : c.coversByName m.toPlatform o) :
    c.covers m o = true := by
  unfold Capability.covers
  rw [h, Bool.true_and]
  cases hpair : c.physicalScopePair o with
  | false => rfl
  | true =>
    cases hg : c.scope with
    | none => rfl
    | some g =>
      cases hr : o.scope with
      | none => rfl
      | some r =>
        apply hfree
        simp only [physicalScopePair, Bool.and_eq_true, Bool.not_eq_true', Bool.and_eq_false_iff,
          hg, hr, Option.any_some] at hpair
        obtain ⟨⟨⟨hp, -⟩, hurlg⟩, hurlr⟩ := hpair
        have hllm : c.ty.scopedCoversUnscoped = false := by
          revert hp
          cases c.ty <;> decide
        obtain ⟨hty, hcov⟩ := (coversByName_iff hllm).mp h
        obtain ⟨r', hr', hgr⟩ := hcov g hg
        rw [hr] at hr'
        cases hr'
        rw [scopeCovers_of_path hp] at hgr
        have hdb : (c.ty == .db && (isDbUrl g || isDbUrl r)) = false := by
          rcases hurlg with hdb | hurlg
          · simp [hdb]
          · rcases hurlr with hdb | hurlr
            · have hne : (c.ty == CapabilityType.db) = false := by
                rcases CapabilityType.eq_or_file_of_covers hty with heq | hfile
                · rw [heq]
                  exact hdb
                · simp [hfile.2.2.1]
              simp [hne]
            · simp [hurlg, hurlr]
        simpa [pathScopeCovers, hdb] using hgr

theorem coversByName_of_covers (h : c.covers m o) : c.coversByName m.toPlatform o = true :=
  (Bool.and_eq_true_iff.mp h).1

/-! ## Chains -/

/-- Each scope of a block that covers `s` narrows, for `s`, a scope of the block before that
covers it. -/
def ChainNarrow (env : Env) (name : Text) (ty : CapabilityType) (s : Text)
    (blocks : List Block) : Prop :=
  ∀ pc ∈ blocks.zip blocks.tail, ∀ scopes, (name, scopes) ∈ pc.2.caps →
    ∀ r ∈ scopes, (capOf env ty r).covers env.machine (capOf env ty s) = true →
    ∀ ps, pc.1.caps.find? (fun p => p.1 == name) = some (name, ps) → ps ≠ [] →
      ∃ g ∈ ps, (capOf env ty g).covers env.machine (capOf env ty r) = true ∧
        Narrows env.machine.toPlatform (capOf env ty g) (capOf env ty r) (capOf env ty s)

theorem forall_of_getLast {P : α → Prop} (hstep : ∀ p ∈ l.zip l.tail, P p.2 → P p.1) {z : α}
    (hz : l.getLast? = some z) (h : P z) : ∀ a ∈ l, P a := by
  induction l with
  | nil => simp
  | cons a l ih =>
    cases l with
    | nil =>
      cases hz
      simpa using h
    | cons b l =>
      have hrest := ih (fun p hp => hstep p (mem_cons_of_mem _ hp)) (by simpa using hz)
      intro c hc
      rcases List.mem_cons.mp hc with rfl | hc
      · exact hstep (c, b) mem_cons_self (hrest b mem_cons_self)
      · exact hrest c hc

theorem BlockCovers.step (hfree : LinkFree env.machine)
    (hty : capabilityTypeFromName name = some ty) {p c : Caps}
    (hcover : capsCover env who p c = .ok true) (h : BlockCovers env name ty s c)
    (hnarrow : ∀ scopes, (name, scopes) ∈ c → ∀ r ∈ scopes,
      (capOf env ty r).covers env.machine (capOf env ty s) →
      ∀ ps, p.find? (fun p => p.1 == name) = some (name, ps) → ps ≠ [] →
        ∃ g ∈ ps, (capOf env ty g).covers env.machine (capOf env ty r) = true ∧
          Narrows env.machine.toPlatform (capOf env ty g) (capOf env ty r) (capOf env ty s)) :
    BlockCovers env name ty s p := by
  obtain ⟨scopes, hmem, hscopes⟩ := h
  obtain ⟨ps, hps, hnil, -⟩ := capsCover_entry hty hcover hmem
  refine ⟨ps, mem_of_find?_eq_some hps, ?_⟩
  rcases hscopes with rfl | ⟨r, hr, hrs⟩
  · exact .inl (hnil rfl)
  · by_cases hempty : ps = []
    · exact .inl hempty
    · obtain ⟨g, hg, hgr, hn⟩ := hnarrow scopes hmem r hr hrs ps hps hempty
      refine .inr ⟨g, hg, covers_of_coversByName hfree ?_⟩
      exact coversByName_of_narrows hn (coversByName_of_covers hgr) (coversByName_of_covers hrs)

/-! ## Verified tokens -/

theorem insertEntry_mem {key : Text} {value : α} {l : List (Text × α)} {p : Text × α}
    (h : p ∈ insertEntry key value l) : p = (key, value) ∨ p ∈ l := by
  induction l with
  | nil => simpa [insertEntry] using h
  | cons q l ih =>
    unfold insertEntry at h
    split at h
    next hk =>
      rcases List.mem_cons.mp h with rfl | h
      · exact .inl (by rw [← hk])
      · exact .inr (mem_cons_of_mem q h)
    next =>
      rcases List.mem_cons.mp h with rfl | h
      · exact .inr mem_cons_self
      · exact (ih h).imp_right (mem_cons_of_mem q)

theorem mem_of_mem_capsToSyn {p : Text × List Text} (h : p ∈ capsToSyn caps) : p ∈ caps := by
  have key : ∀ (l acc : Caps), p ∈ l.foldl (fun m (q : Text × List Text) ↦ insertEntry q.1 q.2 m) acc →
      p ∈ acc ∨ p ∈ l := by
    intro l
    induction l with
    | nil => exact fun acc h => .inl h
    | cons q l ih =>
      intro acc h
      rcases ih _ h with h | h
      · rcases insertEntry_mem h with rfl | h
        · exact .inr mem_cons_self
        · exact .inl h
      · exact .inr (mem_cons_of_mem q h)
  simpa using key caps [] h

theorem verifyInner_spec
    (h : verifyInner env tokenText key aud ip method at_ revoked who = .ok (some v)) :
    ∃ t last, decodeToken tokenText = some t ∧ chainNarrows env who t.blocks = .ok true ∧
      t.blocks.getLast? = some last ∧ v.id = t.id ∧ v.caps = capsToSyn last.caps ∧
      effective env.decimal t.blocks = some v.caveats := by
  unfold verifyInner at h
  cases hdec : decodeToken tokenText with
  | none => simp [hdec, pure, Except.pure] at h
  | some t =>
    simp only [hdec] at h
    split at h
    next => simp [pure, Except.pure] at h
    next =>
      split at h
      next => simp [pure, Except.pure] at h
      next =>
        cases hchain : chainNarrows env who t.blocks with
        | error e =>
          rw [hchain] at h
          cases h
        | ok b =>
          rw [hchain] at h
          cases b with
          | false => simp [bind, Except.bind, pure, Except.pure] at h
          | true =>
            cases heff : effective env.decimal t.blocks with
            | none => simp [heff, bind, Except.bind, pure, Except.pure] at h
            | some eff =>
              simp only [heff, bind, Except.bind, pure, Except.pure, Bool.not_true,
                Bool.false_eq_true, if_false] at h
              split at h
              next => simp at h
              next =>
                split at h
                next => simp at h
                next =>
                  simp only [Except.ok.injEq, Option.map_eq_some_iff] at h
                  obtain ⟨last, hlast, rfl⟩ := h
                  exact ⟨t, last, rfl, hchain, hlast, rfl, rfl, heff⟩

/-- What verification gives for a token that is read, has the signature of its chain and
blocks that narrow one another: nothing where it has expired, and else what it says. -/
theorem verifyInner_eq (hdecode : decodeToken tokenText = some t)
    (hsig : chainSignature env.hmac key t.id t.blocks = t.sig) (hrevoked : t.id ∉ revoked)
    (hchain : chainNarrows env who t.blocks = .ok true)
    (heff : effective env.decimal t.blocks = some eff)
    (hprovided : (provided eff.aud aud && provided eff.ip ip && provided eff.method method))
    (hlast : t.blocks.getLast? = some last) :
    verifyInner env tokenText key aud ip method at_ revoked who =
      .ok (if eff.exp.any (· < at_) then none else
        some { id := t.id, caps := capsToSyn last.caps,
               chain := t.blocks.map fun b => capsToSyn b.caps, depth := t.blocks.length,
               caveats := eff }) := by
  unfold verifyInner
  rw [hdecode]
  simp only [hsig, hrevoked, hchain, heff, hprovided, hlast, bind, Except.bind, pure, Except.pure,
    ne_eq, not_true_eq_false, if_false, contains_eq_mem, decide_false, Bool.false_eq_true,
    Bool.not_true, Option.map_some]
  split <;> rfl

theorem verifyInner_encodeToken (hfits : t.Fits) (hcanonical : t.canonical = t)
    (hsig : chainSignature env.hmac key t.id t.blocks = t.sig) (hrevoked : t.id ∉ revoked)
    (hchain : chainNarrows env who t.blocks = .ok true)
    (heff : effective env.decimal t.blocks = some eff) (hexp : eff.exp.any (· < at_) = false)
    (hprovided : (provided eff.aud aud && provided eff.ip ip && provided eff.method method))
    (hlast : t.blocks.getLast? = some last) :
    verifyInner env (encodeToken t) key aud ip method at_ revoked who =
      .ok (some { id := t.id, caps := capsToSyn last.caps,
                  chain := t.blocks.map fun b => capsToSyn b.caps, depth := t.blocks.length,
                  caveats := eff }) := by
  have hdecode : decodeToken (encodeToken t) = some t := by
    rw [decodeToken_encodeToken hfits, hcanonical]
  rw [verifyInner_eq hdecode hsig hrevoked hchain heff hprovided hlast, hexp]
  rfl

theorem chainNarrows_capsCover (h : chainNarrows env who blocks = .ok true) :
    ∀ pc ∈ blocks.zip blocks.tail, capsCover env who pc.1.caps pc.2.caps = .ok true ∧
      caveatsNarrow env.decimal pc.1.caveats pc.2.caveats = true := by
  intro pc hpc
  have hstep := of_allM h pc hpc
  cases hcover : capsCover env who pc.1.caps pc.2.caps with
  | error e =>
    simp only [hcover] at hstep
    cases hstep
  | ok b =>
    simp only [hcover, bind, Except.bind] at hstep
    cases b with
    | false => cases hstep
    | true => exact ⟨rfl, by simpa [pure, Except.pure] using hstep⟩

theorem blockCovers_of_allows (hty : capabilityTypeFromName name = some ty)
    (hcaps : v.caps = capsToSyn caps) (h : captokenAllows env (some v) name (some s) = .ok true) :
    BlockCovers env name ty s caps := by
  unfold captokenAllows at h
  simp only at h
  split at h
  next => cases h
  next =>
    cases hfind : v.caps.find? (fun p => p.1 == name) with
    | none => simp [hfind] at h
    | some p =>
      obtain ⟨n, scopes⟩ := p
      obtain rfl : n = name := by simpa using find?_some hfind
      have hmem : (n, scopes) ∈ caps := by
        apply mem_of_mem_capsToSyn
        rw [← hcaps]
        exact mem_of_find?_eq_some hfind
      refine ⟨scopes, hmem, ?_⟩
      simp only [hfind] at h
      cases hempty : scopes.isEmpty with
      | true => exact .inl (by simpa using hempty)
      | false =>
        rw [hempty] at h
        simp only [toCapability_some hty, bind, Except.bind] at h
        obtain ⟨g, hg, hcov⟩ := of_anyM h
        exact .inr ⟨g, hg, by simpa [pure, Except.pure] using hcov⟩

theorem allows_of_covers (hty : capabilityTypeFromName name = some ty)
    (hlocal : ty.isProcessLocal = false) {r : Text} (hcaps : v.caps = [(name, [r])])
    (h : (capOf env ty r).covers env.machine (capOf env ty s)) :
    captokenAllows env (some v) name (some s) = .ok true := by
  simp [captokenAllows, hty, hlocal, hcaps, toCapability_some hty, bind, Except.bind, pure,
    Except.pure, h]

/-! ## The law of a token -/

/-- What the token may do with a scope, each of its blocks covers. -/
def Bounded (env : Env) (v : Verified) (blocks : List Block) (name : Text) (ty : CapabilityType)
    (s : Text) : Prop :=
  captokenAllows env (some v) name (some s) = .ok true →
    ∀ b ∈ blocks, BlockCovers env name ty s b.caps

/-- The blocks of a token whose holder attenuated one permission once. -/
def attenuated (name g r : Text) (root holder : Caveats) : List Block :=
  [{ caps := [(name, [g])], caveats := root }, { caps := [(name, [r])], caveats := holder }]

/-- A machine without disk, with decimals that round as the reference does. -/
def demoEnv (hmac : Bytes → Bytes → Bytes) : Env where
  machine := { bareMachine with disk := { fs := none, physicalOverride := none } }
  hmac
  decimal := Reference.rustDecimal
  debug t := '"' :: t ++ ['"']

/-- The token of a chain of blocks. -/
def signed (hmac : Bytes → Bytes → Bytes) (key : Bytes) (blocks : List Block) : Token :=
  { id := "t", blocks, sig := chainSignature hmac key "t" blocks }

theorem length_chainSignature (h32 : ∀ k d, (hmac k d).length = 32) (key : Bytes) (id : Text)
    (blocks : List Block) : (chainSignature hmac key id blocks).length = 32 := by
  have key (f : Bytes → Block × Nat → Bytes) (hf : ∀ sig p, (f sig p).length = 32)
      (l : List (Block × Nat)) : ∀ sig : Bytes, sig.length = 32 → (l.foldl f sig).length = 32 := by
    induction l with
    | nil => exact fun sig h => h
    | cons p l ih => exact fun sig _ => ih _ (hf sig p)
  exact key _ (fun sig p => h32 sig _) _ _ (h32 _ _)

/-- A token of blocks that are in their canonical form and fit is accepted, for the
permissions of its last block, when the blocks narrow one another. -/
theorem verifyInner_signed (h32 : ∀ k d, (hmac k d).length = 32) (who : Text) (key : Bytes)
    (hcanonical : blocks.map Block.canonical = blocks) (hdepth : blocks.length ≤ maxDepth)
    (hfits : ∀ b ∈ blocks, b.Fits) (hlast : blocks.getLast? = some last)
    (hchain : chainNarrows (demoEnv hmac) who blocks = .ok true)
    (heff : effective Reference.rustDecimal blocks = some eff)
    (hfree : eff.exp = none ∧ eff.aud = none ∧ eff.ip = none ∧ eff.method = none) :
    decodeToken (encodeToken (signed hmac key blocks)) = some (signed hmac key blocks) ∧
    verifyInner (demoEnv hmac) (encodeToken (signed hmac key blocks)) key none none none 0 [] who =
      .ok (some { id := "t", caps := capsToSyn last.caps,
                  chain := blocks.map fun b => capsToSyn b.caps, depth := blocks.length,
                  caveats := eff }) := by
  have hne : blocks ≠ [] := by
    rintro rfl
    cases hlast
  have hfits : (signed hmac key blocks).Fits :=
    { id := by
        show TextFits ['t']
        decide
      sig := by
        show (chainSignature hmac key _ blocks).length < _
        rw [length_chainSignature h32]
        decide
      nonempty := hne
      depth := hdepth
      blocks := hfits }
  have hcanonical : (signed hmac key blocks).canonical = signed hmac key blocks := by
    simp [Token.canonical, signed, hcanonical]
  constructor
  · rw [decodeToken_encodeToken hfits, hcanonical]
  · apply verifyInner_encodeToken hfits hcanonical rfl not_mem_nil hchain heff
    · simp [hfree.1]
    · simp [hfree.2.1, hfree.2.2.1, hfree.2.2.2, provided]
    · exact hlast

/-- The root allows `KEY_?`; the holder appends a block that allows `KEY_*`. -/
def widened : List Block :=
  attenuated "env" "KEY_?" "KEY_*" .default .default

/-- The root allows `KEY_*`; the holder appends a block that allows `KEY_A?`. -/
def narrowedOnce : List Block :=
  attenuated "env" "KEY_*" "KEY_A?" .default .default

/-- Thirty-two bytes, whatever is signed. -/
def demoHmac : Bytes → Bytes → Bytes := fun _ _ => replicate 32 0

end Synsema.Captoken
