import Synsema.Captoken.Canonical
import Synsema.Captoken.Mint
import Synsema.Captoken.SpendLimit
import Synsema.Lib.Except

/-!
# Issued tokens

The tokens that `captoken_mint` gives, and those that `captoken_attenuate` gives from them.
Their signature is that of the blocks as they were given, and each block narrows the one
before it, also in the form in which verification reads them.

Such a token verifies, as what its blocks say, if and only if the reader has room for it
(`issued_verifies_iff`).
-/

namespace Synsema.Captoken

open Text Bytesutil Capability List
open Except (bind_eq_ok)

/-! ## Steps and loops that may fail -/

variable {α : Type} {keyArg : Arg} {random : Option Bytes} {t' : Token} {o : Option Text}

theorem allM_of {f : α → Except Text Bool} {l : List α} (h : ∀ a ∈ l, f a = .ok true) :
    l.allM f = .ok true := by
  induction l with
  | nil => rfl
  | cons a l ih =>
    unfold List.allM
    rw [h a mem_cons_self]
    exact ih fun b hb => h b (mem_cons_of_mem a hb)

theorem foldlM_inv {σ : Type} {f : σ → α → Except Text σ} {P : σ → Prop}
    (hstep : ∀ s a s', P s → f s a = .ok s' → P s') {l : List α} {s s' : σ} (hs : P s)
    (h : l.foldlM f s = .ok s') : P s' := by
  induction l generalizing s with
  | nil =>
    cases h
    exact hs
  | cons a l ih =>
    rw [foldlM_cons] at h
    obtain ⟨t, ht, h⟩ := bind_eq_ok.mp h
    exact ih (hstep s a t hs ht) h

/-! ## What is made of the arguments -/

/-- What the caveats of an issued block are: limits in their order whose amounts are read, and
numbers of 64 bits. -/
structure Caveats.Made (R : RustDecimal) (c : Caveats) : Prop where
  sorted : sortSpend c.spend = c.spend
  amounts : ∀ p ∈ c.spend, ∃ d, R.fromStr p.2 = some d
  exp : ∀ e ∈ c.exp, e < 2 ^ 63
  llmTokens : ∀ n ∈ c.llmTokens, n < 2 ^ 64

/-- What an issued block is: its names are known and distinct. -/
structure Block.Made (R : RustDecimal) (b : Block) : Prop where
  names : (b.caps.map Prod.fst).Nodup
  known : ∀ p ∈ b.caps, ∃ ty, capabilityTypeFromName p.1 = some ty
  caveats : b.caveats.Made R

/-- The scopes that an argument lists. -/
def scopesOf : Arg → List Text
  | .text s => [s]
  | .list items => items.filterMap fun
      | .text s => some s
      | _ => none
  | _ => []

theorem parseScopes_eq {env : Env} {who name : Text} {a : Arg} {scopes : List Text}
    (h : parseScopes env who name a = .ok scopes) : scopes = scopesOf a := by
  cases a with
  | nothing | text s =>
    cases h
    rfl
  | list items =>
    have hitems := Except.mapM_eq_ok_iff.mp h
    clear h
    induction hitems with
    | nil => rfl
    | @cons a s l ss hs _ ih =>
      cases a with
      | text t =>
        cases hs
        simpa [scopesOf] using ih
      | _ => cases hs
  | _ => cases h

theorem parseCap_eq {env : Env} {who : Text} {e : Text × Arg} {p : Text × List Text}
    (h : parseCap env who e = .ok p) :
    p = (e.1, scopesOf e.2) ∧ ∃ ty, capabilityTypeFromName e.1 = some ty := by
  unfold parseCap at h
  obtain ⟨cap, hcap, h⟩ := bind_eq_ok.mp h
  obtain ⟨ty, hty⟩ : ∃ ty, capabilityTypeFromName e.1 = some ty := by
    unfold toCapability at hcap
    split at hcap
    next ty hty => exact ⟨ty, hty⟩
    next => cases hcap
  split at h
  · cases h
  · obtain ⟨scopes, hscopes, h⟩ := bind_eq_ok.mp h
    split at h
    · cases h
    · cases h
      exact ⟨by rw [parseScopes_eq hscopes], ty, hty⟩

variable {m : OrderedMap Text Arg} {caps : Caps} {clock : Option Int64} {c : Caveats}
  {capsArg : Arg} {optsArg : Option Arg} {b : Block}

theorem parseCaps_eq {env : Env} {who : Text} (h : parseCaps env who m = .ok caps) :
    caps = (m.entries.map fun e => (e.1, scopesOf e.2)).insertionSort (fun a b => a.1 ≤ b.1) ∧
      ∀ p ∈ caps, ∃ ty, capabilityTypeFromName p.1 = some ty := by
  unfold parseCaps at h
  obtain ⟨out, hout, h⟩ := bind_eq_ok.mp h
  cases h
  have heq : out = m.entries.map fun e => (e.1, scopesOf e.2) := by
    rw [← forall₂_eq_eq_eq, forall₂_map_right_iff]
    exact (Except.mapM_eq_ok_iff.mp hout).flip.imp fun _ _ hp => (parseCap_eq hp).1
  refine ⟨by rw [heq], fun p hp => ?_⟩
  rw [mem_insertionSort] at hp
  obtain ⟨e, -, he⟩ := Except.exists_of_mem_mapM hout hp
  obtain ⟨rfl, hty⟩ := parseCap_eq he
  exact hty

theorem parseCaps_names {env : Env} {who : Text} (h : parseCaps env who m = .ok caps) :
    (caps.map Prod.fst).Nodup := by
  rw [(parseCaps_eq h).1, ((perm_insertionSort _ _).map Prod.fst).nodup_iff, map_map]
  exact m.nodup

variable {I : Issuer} {who : Text}

theorem parseLimit_reads (hR : I.decimal.ReadsDisplay) {e p : Text × _}
    (h : parseLimit I who e = .ok p) : ∃ d, I.decimal.fromStr p.2 = some d := by
  obtain ⟨unit, v⟩ := e
  unfold parseLimit at h
  obtain ⟨text, -, h⟩ := bind_eq_ok.mp h
  split at h
  next => cases h
  next d _ =>
    split at h
    · cases h
    · cases h
      obtain ⟨d', hd', -⟩ := hR d.normalize
      exact ⟨d', hd'⟩

/-- What the options read so far are. -/
structure CaveatOpts.Made (R : RustDecimal) (o : CaveatOpts) : Prop where
  caveats : o.caveats.Made R
  exp : o.caveats.exp = none

theorem CaveatOpts.Made.step (hR : I.decimal.ReadsDisplay) (o : CaveatOpts) (e : Text × Arg)
    (o' : CaveatOpts) (ho : o.Made I.decimal) (h : readCaveatOpt I who o e = .ok o') :
    o'.Made I.decimal := by
  obtain ⟨k, v⟩ := e
  obtain ⟨hmade, hexp⟩ := ho
  -- an option that only touches what nothing is said about
  have hkeep {o' : CaveatOpts} (hsame : o'.caveats.spend = o.caveats.spend ∧ o'.caveats.exp = o.caveats.exp ∧
      o'.caveats.llmTokens = o.caveats.llmTokens) : o'.Made I.decimal := by
    obtain ⟨hs, he, hl⟩ := hsame
    refine ⟨⟨?_, ?_, ?_, ?_⟩, he.trans hexp⟩
    · rw [hs]
      exact hmade.sorted
    · rw [hs]
      exact hmade.amounts
    · rw [he]
      exact hmade.exp
    · rw [hl]
      exact hmade.llmTokens
  unfold readCaveatOpt at h
  dsimp only at h
  split_ifs at h
  · split at h
    next =>
      split at h
      next =>
        split at h
        · cases h
          exact hkeep ⟨rfl, rfl, rfl⟩
        · cases h
      next => cases h
    next => cases h
  · cases h
    exact hkeep ⟨rfl, rfl, rfl⟩
  · cases h
    exact hkeep ⟨rfl, rfl, rfl⟩
  · cases h
    exact hkeep ⟨rfl, rfl, rfl⟩
  · obtain ⟨m, -, h⟩ := bind_eq_ok.mp h
    obtain ⟨spend, hspend, h⟩ := bind_eq_ok.mp h
    cases h
    refine ⟨⟨?_, ?_, hmade.exp, hmade.llmTokens⟩, hexp⟩
    · rw [sortSpend_eq]
      exact (pairwise_insertionSort LimitLe spend).insertionSort_eq
    · intro p hp
      rw [mem_insertionSort] at hp
      obtain ⟨e, -, he⟩ := Except.exists_of_mem_mapM hspend hp
      exact parseLimit_reads hR he
  · split at h
    next =>
      split at h
      next =>
        cases h
        exact hkeep ⟨rfl, rfl, rfl⟩
      next => cases h
    next => cases h
  · split at h
    next =>
      cases h
      exact hkeep ⟨rfl, rfl, rfl⟩
    next => cases h
  · split at h
    next =>
      split at h
      next t _ =>
        split at h
        · cases h
          refine ⟨⟨hmade.sorted, hmade.amounts, hmade.exp, ?_⟩, hexp⟩
          rintro n ⟨⟩
          have hlt := t.toInt_lt
          omega
        · cases h
      next => cases h
    next => cases h
  · cases h

theorem parseCaveats_made (hR : I.decimal.ReadsDisplay) {ttl : Option Int64}
    (h : parseCaveats I who ttl clock m = .ok c) : c.Made I.decimal := by
  unfold parseCaveats at h
  obtain ⟨o, ho, h⟩ := bind_eq_ok.mp h
  have hmade : o.Made I.decimal := by
    apply foldlM_inv (CaveatOpts.Made.step hR) ?_ ho
    exact ⟨⟨rfl, fun p hp ↦ (not_mem_nil hp).elim, fun e he ↦ (Option.not_mem_none e he).elim,
      fun n hn => (Option.not_mem_none n hn).elim⟩, rfl⟩
  split at h
  · cases h
    exact hmade.caveats
  · obtain ⟨base, -, h⟩ := bind_eq_ok.mp h
    cases h
    refine ⟨hmade.caveats.sorted, hmade.caveats.amounts, ?_, hmade.caveats.llmTokens⟩
    rintro e ⟨⟩
    unfold saturatingAdd
    omega

theorem Caveats.Made.small {R : RustDecimal} (h : c.Made R) : c.Small := by
  intro i hi
  simp only [Caveats.items, mem_append, Option.mem_toList, Option.map_eq_some_iff, mem_ite_nil_left,
    mem_ite_nil_right, mem_singleton] at hi
  rcases hi with (((((⟨e, he, rfl⟩ | ⟨t, -, rfl⟩) | ⟨t, -, rfl⟩) | ⟨t, -, rfl⟩) |
    ⟨-, rfl⟩) | ⟨-, rfl⟩) | ⟨n, hn, rfl⟩
  · exact h.exp e he
  · trivial
  · trivial
  · trivial
  · trivial
  · trivial
  · exact h.llmTokens n hn

theorem Caveats.Made.canonical {R : RustDecimal} (h : c.Made R) :
    c.canonical.Made R where
  sorted := sortSpend_sortSpend _
  amounts p hp := h.amounts p ((sortSpend_perm _).mem_iff.mp hp)
  exp e he := by
    obtain ⟨e', he', rfl⟩ := Option.mem_map.mp he
    have hlt := h.exp e' he'
    omega
  llmTokens := h.llmTokens

theorem Caveats.Made.inherit {R : RustDecimal} {p : Caveats} (hp : p.Made R) (hc : c.Made R) :
    (p.inherit c).Made R := by
  have hspend : (p.inherit c).spend = p.spend ∨ (p.inherit c).spend = c.spend := by
    unfold Caveats.inherit
    dsimp only
    split
    · exact .inl rfl
    · exact .inr rfl
  refine ⟨?_, ?_, fun e he => ?_, fun n hn => ?_⟩
  · rcases hspend with heq | heq
    · rw [heq]
      exact hp.sorted
    · rw [heq]
      exact hc.sorted
  · rcases hspend with heq | heq
    · rw [heq]
      exact hp.amounts
    · rw [heq]
      exact hc.amounts
  · rcases Option.or_eq_some_iff.mp he with he | ⟨-, he⟩
    · exact hc.exp e he
    · exact hp.exp e he
  · rcases Option.or_eq_some_iff.mp hn with hn | ⟨-, hn⟩
    · exact hc.llmTokens n hn
    · exact hp.llmTokens n hn

/-! ## Narrowing, as verification reads it -/

section Narrowing

variable {env : Env} {name : Text} {ty : CapabilityType}

theorem scopeCovered_who (hty : capabilityTypeFromName name = some ty) (who who' : Text)
    (parentScopes : List Text) (s : Text) :
    scopeCovered env who name parentScopes s = scopeCovered env who' name parentScopes s := by
  have hcovers : parentScopeCovers env who name = parentScopeCovers env who' name := by
    funext want priv ps
    unfold parentScopeCovers
    rw [toCapability_some hty, toCapability_some hty]
  unfold scopeCovered
  rw [toCapability_some hty, toCapability_some hty, hcovers]

variable {parent : Caps}

theorem entryCovered_canonical {scopes : List Text} (hty : capabilityTypeFromName name = some ty)
    (h : entryCovered env who parent (name, scopes) = .ok true) (who' : Text) :
    entryCovered env who' parent (name, scopes.insertionSort (· ≤ ·)) = .ok true := by
  have hempty : (scopes.insertionSort (· ≤ ·)).isEmpty = scopes.isEmpty := by
    cases scopes with
    | nil => rfl
    | cons s l =>
      rw [isEmpty_cons, isEmpty_eq_false_iff_exists_mem]
      exact ⟨s, by simp⟩
  unfold entryCovered at h ⊢
  dsimp only at h ⊢
  rw [hempty]
  cases hfind : parent.find? (fun p => p.1 == name) with
  | none =>
    rw [hfind] at h
    cases h
  | some p =>
    simp only [hfind] at h ⊢
    split at h
    next hs => rwa [if_pos hs]
    next hs =>
      rw [if_neg hs]
      apply allM_of
      intro s hs
      rw [mem_insertionSort] at hs
      rw [scopeCovered_who hty who' who]
      exact of_allM h s hs

theorem capsCover_canonical {child : Caps}
    (hknown : ∀ p ∈ child, ∃ ty, capabilityTypeFromName p.1 = some ty)
    (h : capsCover env who parent child = .ok true) (who' : Text) :
    capsCover env who' parent child.canonical = .ok true := by
  apply allM_of
  intro p hp
  rw [Caps.canonical, mem_insertionSort, mem_map] at hp
  obtain ⟨q, hq, rfl⟩ := hp
  obtain ⟨ty, hty⟩ := hknown q hq
  exact entryCovered_canonical hty (of_allM h q hq) who'

theorem caveatsNarrow_canonical {R : RustDecimal} {parent child : Caveats} (hmade : child.Made R)
    (h : caveatsNarrow R parent.canonical child) :
    caveatsNarrow R parent.canonical child.canonical = true := by
  unfold caveatsNarrow at h ⊢
  simp only [Bool.and_eq_true] at h ⊢
  obtain ⟨⟨⟨⟨⟨⟨hexp, hdet⟩, hllm⟩, haud⟩, hip⟩, hmethod⟩, hspend⟩ := h
  refine ⟨⟨⟨⟨⟨⟨?_, hdet⟩, hllm⟩, haud⟩, hip⟩, hmethod⟩, ?_⟩
  · simp only [narrowed, Caveats.canonical, Option.all_eq_true, Option.any_eq_true,
      decide_eq_true_eq, Option.map_eq_some_iff, forall_exists_index, and_imp,
      forall_apply_eq_imp_iff₂] at hexp ⊢
    intro e he
    obtain ⟨c, hc, hle⟩ := hexp e he
    exact ⟨_, ⟨c, hc, rfl⟩, by omega⟩
  · show List.all (sortSpend child.spend) _ = true
    rwa [hmade.sorted]

theorem mem_zip_tail_concat {α : Type} {l : List α} {a b : α} (hl : l.getLast? = some a) {p : α × α}
    (h : p ∈ (l ++ [b]).zip (l ++ [b]).tail) : p ∈ l.zip l.tail ∨ p = (a, b) := by
  induction l with
  | nil => cases hl
  | cons c l ih =>
    cases l with
    | nil =>
      cases hl
      exact .inr (by simpa using h)
    | cons d l =>
      rcases List.mem_cons.mp h with rfl | h
      · exact .inl mem_cons_self
      · rcases ih (by simpa using hl) h with h | h
        · exact .inl (mem_cons_of_mem _ h)
        · exact .inr h

theorem chainNarrows_concat {blocks : List Block} {parent : Block}
    (h : chainNarrows env who blocks = .ok true) (hparent : blocks.getLast? = some parent)
    (hcaps : capsCover env who parent.caps b.caps = .ok true)
    (hcaveats : caveatsNarrow env.decimal parent.caveats b.caveats) :
    chainNarrows env who (blocks ++ [b]) = .ok true := by
  apply allM_of
  intro pc hpc
  rcases mem_zip_tail_concat hparent hpc with hpc | rfl
  · exact of_allM h pc hpc
  · simp only [hcaps, hcaveats, bind, Except.bind, pure, Except.pure, if_true]

end Narrowing

/-! ## The effective caveats -/

section Effective

variable {R : RustDecimal}

variable {spend : List (Text × Text)}

theorem exists_tightenSpend {p : Text × Text} (hspend : ∀ q ∈ spend, ∃ d, R.fromStr q.2 = some d)
    (hp : ∃ d, R.fromStr p.2 = some d) :
    ∃ spend', tightenSpend R spend p = some spend' ∧
      ∀ q ∈ spend', ∃ d, R.fromStr q.2 = some d := by
  obtain ⟨d, hd⟩ := hp
  unfold tightenSpend
  rw [hd]
  dsimp only
  cases hfind : spend.find? (fun q => q.1 == p.1) with
  | none =>
    refine ⟨_, rfl, fun q hq => ?_⟩
    rcases mem_append.mp hq with hq | hq
    · exact hspend q hq
    · rw [mem_singleton.mp hq]
      exact ⟨d, hd⟩
  | some q =>
    obtain ⟨cur, hcur⟩ := hspend q (mem_of_find?_eq_some hfind)
    dsimp only
    rw [hcur]
    refine ⟨_, rfl, ?_⟩
    split
    · intro r hr
      rcases insertEntry_mem hr with rfl | hr
      · exact ⟨d, hd⟩
      · exact hspend r hr
    · exact hspend

theorem exists_foldlM_tightenSpend {limits : List (Text × Text)}
    (hspend : ∀ q ∈ spend, ∃ d, R.fromStr q.2 = some d)
    (hlimits : ∀ q ∈ limits, ∃ d, R.fromStr q.2 = some d) :
    ∃ spend', limits.foldlM (tightenSpend R) spend = some spend' ∧
      ∀ q ∈ spend', ∃ d, R.fromStr q.2 = some d := by
  induction limits generalizing spend with
  | nil => exact ⟨spend, rfl, hspend⟩
  | cons p limits ih =>
    obtain ⟨mid, hmid, hreads⟩ := exists_tightenSpend hspend (hlimits p mem_cons_self)
    obtain ⟨spend', h, hreads'⟩ := ih hreads fun q hq => hlimits q (mem_cons_of_mem p hq)
    refine ⟨spend', ?_, hreads'⟩
    rw [foldlM_cons, hmid]
    exact h

theorem min?_append_toList {α : Type} [Min α] (l : List α) (o : Option α) :
    (l ++ o.toList).min? = minOption min l.min? o := by
  cases o with
  | none => simp [minOption]
  | some n =>
    cases l with
    | nil => rfl
    | cons a l => simp [minOption, min?_cons', foldl_append]

/-- What the effective caveats of a chain are. -/
structure Sums (R : RustDecimal) (bs : List Block) (eff : Caveats) : Prop where
  exp : eff.exp = (bs.filterMap fun b => b.caveats.exp).min?
  llmTokens : eff.llmTokens = (bs.filterMap fun b => b.caveats.llmTokens).min?
  deterministic : eff.deterministic = bs.any fun b => b.caveats.deterministic
  aud : ∀ a ∈ eff.aud, ∃ b ∈ bs, a ∈ b.caveats.aud
  ip : ∀ a ∈ eff.ip, ∃ b ∈ bs, a ∈ b.caveats.ip
  method : ∀ a ∈ eff.method, ∃ b ∈ bs, a ∈ b.caveats.method
  amounts : ∀ p ∈ eff.spend, ∃ d, R.fromStr p.2 = some d

theorem Sums.tighten {bs : List Block} {eff : Caveats} (h : Sums R bs eff)
    (hb : ∀ p ∈ b.caveats.spend, ∃ d, R.fromStr p.2 = some d) :
    ∃ eff', tighten R eff b.caveats = some eff' ∧ Sums R (bs ++ [b]) eff' := by
  obtain ⟨spend, hspend, hreads⟩ := exists_foldlM_tightenSpend h.amounts hb
  have hlast {f : Block → Option Text} {o : Option Text} (ho : ∀ a ∈ o, ∃ b ∈ bs, a ∈ f b) (a)
      (ha : a ∈ (f b).or o) : ∃ b' ∈ bs ++ [b], a ∈ f b' := by
    rcases Option.or_eq_some_iff.mp ha with ha | ⟨-, ha⟩
    · exact ⟨b, by simp, ha⟩
    · obtain ⟨b', hb', ha'⟩ := ho a ha
      exact ⟨b', mem_append_left _ hb', ha'⟩
  have hmin {α : Type} (f : Block → Option α) :
      (bs ++ [b]).filterMap f = bs.filterMap f ++ (f b).toList := by
    rw [filterMap_append]
    cases hfb : f b <;> simp [hfb]
  refine ⟨_, by rw [Captoken.tighten, hspend]; rfl, ?_⟩
  exact
    { exp := by rw [hmin, min?_append_toList, ← h.exp]
      llmTokens := by rw [hmin, min?_append_toList, ← h.llmTokens]
      deterministic := by simp [h.deterministic]
      aud := hlast h.aud
      ip := hlast h.ip
      method := hlast h.method
      amounts := hreads }

theorem exists_effective {bs : List Block}
    (h : ∀ b ∈ bs, ∀ p ∈ b.caveats.spend, ∃ d, R.fromStr p.2 = some d) :
    ∃ eff, effective R bs = some eff ∧ Sums R bs eff := by
  induction bs using List.reverseRecOn with
  | nil =>
    refine ⟨.default, rfl, rfl, rfl, rfl, ?_, ?_, ?_, ?_⟩
    · exact fun a ha => (Option.not_mem_none a ha).elim
    · exact fun a ha => (Option.not_mem_none a ha).elim
    · exact fun a ha => (Option.not_mem_none a ha).elim
    · exact fun p hp => (not_mem_nil hp).elim
  | append_singleton bs b ih =>
    obtain ⟨eff, heff, hsums⟩ := ih fun c hc => h c (mem_append_left _ hc)
    obtain ⟨eff', heff', hsums'⟩ := hsums.tighten (h b (by simp))
    refine ⟨eff', ?_, hsums'⟩
    unfold effective at heff ⊢
    rw [foldlM_append, heff]
    simpa using heff'

end Effective

/-! ## Issued tokens -/

/-- The tokens of a root key that are minted, and attenuated from the texts of such tokens,
each call at an instant of its own; with the blocks as they were given. -/
inductive Issued (I : Issuer) (key : Bytes) : List Block → Token → Prop
  | mint {clock : Option Int64} {random : Option Bytes} {capsArg keyArg : Arg} {rest : List Arg}
      {t : Token} (hkey : keyMaterial "captoken_mint" keyArg = .ok key)
      (h : mintToken I clock random (capsArg :: keyArg :: rest) = .ok t) : Issued I key t.blocks t
  | attenuate {bs : List Block} {t t' : Token} {clock : Option Int64} {args : List Arg} {b : Block}
      (ht : Issued I key bs t)
      (h : attenuateToken I clock (.text (encodeToken t) :: args) = .ok t')
      (hb : t'.blocks.getLast? = some b) : Issued I key (bs ++ [b]) t'

/-- What an issued token is. -/
structure Chain (I : Issuer) (key : Bytes) (bs : List Block) (t : Token) : Prop where
  blocks : t.blocks.map Block.canonical = bs.map Block.canonical
  nonempty : bs ≠ []
  depth : bs.length ≤ maxDepth
  made : ∀ b ∈ bs, b.Made I.decimal
  small : ∀ b ∈ t.blocks, b.caveats.Small
  sig : t.sig = chainSignature I.hmac key t.id bs
  narrows : ∀ who, chainNarrows I.toEnv who (bs.map Block.canonical) = .ok true

theorem mintWith_cases {t : Token} (h : mintWith I who clock random capsArg keyArg optsArg = .ok t)
    :
    ∃ m caps key opts c, parseCaps I.toEnv who m = .ok caps ∧ keyMaterial who keyArg = .ok key ∧
      parseCaveats I who (some defaultTtl) clock opts = .ok c ∧
      t.blocks = [{ caps, caveats := c }] ∧ t.sig = chainSignature I.hmac key t.id t.blocks := by
  unfold mintWith at h
  obtain ⟨m, -, h⟩ := bind_eq_ok.mp h
  obtain ⟨caps, hcaps, h⟩ := bind_eq_ok.mp h
  split at h
  · cases h
  · obtain ⟨key, hkey, h⟩ := bind_eq_ok.mp h
    obtain ⟨opts, -, h⟩ := bind_eq_ok.mp h
    obtain ⟨c, hc, h⟩ := bind_eq_ok.mp h
    obtain ⟨id, -, h⟩ := bind_eq_ok.mp h
    cases h
    exact ⟨m, caps, key, _, c, hcaps, hkey, hc, rfl, rfl⟩

theorem attenuateBlock_cases {parent : Block}
    (h : attenuateBlock I who clock parent capsArg optsArg = .ok b) :
    ∃ m caps opts c, parseCaps I.toEnv who m = .ok caps ∧
      parseCaveats I who none clock opts = .ok c ∧
      b = { caps, caveats := parent.caveats.inherit c } ∧
      capsCover I.toEnv who parent.caps caps = .ok true ∧
      caveatsNarrow I.decimal parent.caveats b.caveats = true := by
  unfold attenuateBlock at h
  obtain ⟨m, -, h⟩ := bind_eq_ok.mp h
  obtain ⟨caps, hcaps, h⟩ := bind_eq_ok.mp h
  obtain ⟨opts, -, h⟩ := bind_eq_ok.mp h
  obtain ⟨c, hc, h⟩ := bind_eq_ok.mp h
  dsimp only at h
  split at h
  · cases h
  · obtain ⟨covers, hcovers, h⟩ := bind_eq_ok.mp h
    cases covers with
    | false => cases h
    | true =>
      simp only [Bool.not_true, Bool.false_eq_true, if_false] at h
      split at h
      · cases h
      next hnarrow =>
        cases h
        exact ⟨m, caps, opts, c, hcaps, hc, rfl, hcovers, by simpa using hnarrow⟩

theorem attenuateWith_cases {text : Text}
    (h : attenuateWith I who clock (.text text) capsArg optsArg = .ok t') :
    ∃ t parent b, decodeToken text = some t ∧ t.blocks.length < maxDepth ∧
      t.blocks.getLast? = some parent ∧
      attenuateBlock I who clock parent capsArg optsArg = .ok b ∧
      t' = { t with blocks := t.blocks ++ [b],
                    sig := I.hmac t.sig (blockBytes t.blocks.length b) } := by
  unfold attenuateWith at h
  obtain ⟨text', htext, h⟩ := bind_eq_ok.mp h
  cases htext
  split at h
  next => cases h
  next t hdecode =>
    split at h
    · cases h
    next hdepth =>
      split at h
      next => cases h
      next parent hparent =>
        obtain ⟨b, hb, h⟩ := bind_eq_ok.mp h
        cases h
        exact ⟨t, parent, b, hdecode, not_le.mp hdepth, hparent, hb, rfl⟩

theorem Caps.names_canonical (h : (caps.map Prod.fst).Nodup) :
    (caps.canonical.map Prod.fst).Nodup := by
  rw [Caps.canonical, ((perm_insertionSort _ _).map Prod.fst).nodup_iff, map_map]
  exact h

theorem Block.Made.canonical {R : RustDecimal} (h : b.Made R) :
    b.canonical.Made R where
  names := Caps.names_canonical h.names
  known p hp := by
    rw [Block.canonical, Caps.canonical, mem_insertionSort, mem_map] at hp
    obtain ⟨q, hq, rfl⟩ := hp
    exact h.known q hq
  caveats := h.caveats.canonical

variable {key : Bytes} {bs : List Block} {t : Token}

theorem Chain.mint (hR : I.decimal.ReadsDisplay) (hkey : keyMaterial who keyArg = .ok key)
    (h : mintWith I who clock random capsArg keyArg optsArg = .ok t) : Chain I key t.blocks t := by
  obtain ⟨m, caps, key', opts, c, hcaps, hkey', hc, hblocks, hsig⟩ := mintWith_cases h
  obtain rfl : key = key' := by
    rw [hkey] at hkey'
    exact Except.ok.inj hkey'
  have hmade : ∀ b ∈ t.blocks, b.Made I.decimal := by
    rw [hblocks]
    intro b hb
    rw [mem_singleton.mp hb]
    exact ⟨parseCaps_names hcaps, (parseCaps_eq hcaps).2, parseCaveats_made hR hc⟩
  refine ⟨rfl, ?_, ?_, hmade, fun b hb => (hmade b hb).caveats.small, hsig, fun who => ?_⟩
  · rw [hblocks]
    exact cons_ne_nil _ _
  · rw [hblocks, length_singleton]
    decide
  · rw [hblocks]
    rfl

theorem Chain.decodeToken_eq_none (h32 : ∀ k d, (I.hmac k d).length = 32) (h : Chain I key bs t)
    (hfits : ¬ t.Fits) : decodeToken (encodeToken t) = none := by
  have hlen : t.blocks.length = bs.length := by simpa using congrArg List.length h.blocks
  have hne : t.blocks ≠ [] := by
    rw [← length_pos_iff, hlen, length_pos_iff]
    exact h.nonempty
  have hsig : t.sig.length < 2 ^ 16 := by
    rw [h.sig, length_chainSignature h32]
    decide
  exact decodeToken_encodeToken_eq_none hne (hlen ▸ h.depth) hsig h.small hfits

theorem Chain.attenuate (hR : I.decimal.ReadsDisplay) (h32 : ∀ k d, (I.hmac k d).length = 32)
    (h : Chain I key bs t)
    (ht' : attenuateWith I who clock (.text (encodeToken t)) capsArg optsArg = .ok t')
    (hb : t'.blocks.getLast? = some b) : Chain I key (bs ++ [b]) t' := by
  obtain ⟨t₀, parent, b', hdecode, hdepth, hparent, hblock, rfl⟩ := attenuateWith_cases ht'
  obtain rfl : b' = b := by simpa using hb
  obtain rfl : t₀ = t.canonical := by
    by_cases hfits : t.Fits
    · rw [decodeToken_encodeToken hfits] at hdecode
      exact (Option.some.inj hdecode).symm
    · rw [h.decodeToken_eq_none h32 hfits] at hdecode
      cases hdecode
  have hcanonical : t.canonical.blocks = bs.map Block.canonical := h.blocks
  have hlen : t.canonical.blocks.length = bs.length := by rw [hcanonical, length_map]
  rw [hcanonical] at hparent
  obtain ⟨m, caps, opts, c, hcaps, hc, rfl, hcovers, hnarrow⟩ := attenuateBlock_cases hblock
  -- the block before, as it was given
  obtain ⟨p, hp, rfl⟩ : ∃ p ∈ bs, p.canonical = parent := by
    have hmem := mem_of_getLast? hparent
    simpa using hmem
  have hmade : Block.Made I.decimal { caps, caveats := p.canonical.caveats.inherit c } :=
    ⟨parseCaps_names hcaps, (parseCaps_eq hcaps).2,
      (h.made p hp).canonical.caveats.inherit (parseCaveats_made hR hc)⟩
  have hconcat (l : List Block) (b : Block) :
      (l ++ [b]).map Block.canonical = l.map Block.canonical ++ [b.canonical] := by simp
  refine ⟨?_, by simp, ?_, ?_, ?_, ?_, fun who' => ?_⟩
  · show (t.canonical.blocks ++ [_]).map Block.canonical = _
    rw [hcanonical, hconcat, hconcat, map_canonical_canonical]
  · rw [length_append, length_singleton, ← hlen]
    exact hdepth
  · intro b hb
    rcases mem_append.mp hb with hb | hb
    · exact h.made b hb
    · rw [mem_singleton.mp hb]
      exact hmade
  · intro b hb
    rcases mem_append.mp hb with hb | hb
    · rw [hcanonical] at hb
      obtain ⟨q, hq, rfl⟩ := mem_map.mp hb
      exact (h.made q hq).canonical.caveats.small
    · rw [mem_singleton.mp hb]
      exact hmade.caveats.small
  · show I.hmac t.sig (blockBytes t.canonical.blocks.length _) = chainSignature I.hmac key t.id _
    rw [chainSignature_concat, h.sig, hlen]
  · rw [hconcat]
    exact chainNarrows_concat (h.narrows who') hparent
      (capsCover_canonical hmade.known hcovers who') (caveatsNarrow_canonical hmade.caveats hnarrow)

theorem Issued.chain (hR : I.decimal.ReadsDisplay) (h32 : ∀ k d, (I.hmac k d).length = 32)
    (h : Issued I key bs t) : Chain I key bs t := by
  induction h with
  | @mint clock random capsArg keyArg rest t hkey h =>
    unfold mintToken at h
    split at h
    next heq =>
      cases heq
      exact .mint hR hkey h
    next heq =>
      cases heq
      exact .mint hR hkey h
    next => cases h
  | @attenuate bs t t' clock args b _ h hb ih =>
    unfold attenuateToken at h
    split at h
    next heq =>
      cases heq
      exact ih.attenuate hR h32 h hb
    next heq =>
      cases heq
      exact ih.attenuate hR h32 h hb
    next => cases h

/-! ## The law of issued tokens -/

/-- What the map of a verified token says of its blocks. -/
structure Says (R : RustDecimal) (bs : List Block) (v : Verified) : Prop where
  chain : v.chain = bs.map fun b => b.caps.canonical
  exp : v.caveats.exp = (bs.filterMap fun b => b.caveats.exp.map (max · 0)).min?
  llmTokens : v.caveats.llmTokens = (bs.filterMap fun b => b.caveats.llmTokens).min?
  deterministic : v.caveats.deterministic = bs.any fun b => b.caveats.deterministic
  spend : ∀ u, v.caveats.spend.find? (fun q => q.1 == u) =
    (smallest R (chainLimits u bs)).map fun a => (u, a)

/-- Does `captoken_verify` accept the token up to the instant when one of its blocks expires,
for who is not revoked and presents what the blocks ask for, as what the blocks say? -/
def Verifies (I : Issuer) (key : Bytes) (bs : List Block) (t : Token) : Prop :=
  ∀ (aud ip method : Option Text) (at_ : Int) (revoked : List Text), t.id ∉ revoked →
    (∀ b ∈ bs, provided b.caveats.aud aud ∧ provided b.caveats.ip ip ∧
      provided b.caveats.method method) →
    ∃ r, verifyInner I.toEnv (encodeToken t) key aud ip method at_ revoked
        "captoken_verify" = .ok r ∧
      (r.isSome ↔ ∀ b ∈ bs, ∀ e ∈ b.caveats.exp, at_ ≤ max e 0) ∧
      ∀ v, r = some v → Says I.decimal bs v

theorem capsToSyn_eq (h : (caps.map Prod.fst).Nodup) : capsToSyn caps = caps := by
  have hinsert (m : Caps) (name : Text) (scopes : List Text) (hname : name ∉ m.map Prod.fst) :
      insertEntry name scopes m = m ++ [(name, scopes)] := by
    induction m with
    | nil => rfl
    | cons p m ih =>
      obtain ⟨hp, hm⟩ := not_or.mp (mt List.mem_cons.mpr hname)
      unfold insertEntry
      rw [if_neg (Ne.symm hp), ih hm]
      rfl
  unfold capsToSyn
  induction caps using List.reverseRecOn with
  | nil => rfl
  | append_singleton caps p ih =>
    rw [map_append, nodup_append] at h
    obtain ⟨hcaps, -, hdisjoint⟩ := h
    rw [foldl_append, ih hcaps]
    exact hinsert _ _ _ fun hmem => hdisjoint _ hmem _ (by simp) rfl

theorem Chain.fits_iff (h32 : ∀ k d, (I.hmac k d).length = 32) (h : Chain I key bs t) :
    t.Fits ↔ TextFits t.id ∧ ∀ b ∈ bs, b.Fits := by
  have hlen : t.blocks.length = bs.length := by simpa using congrArg List.length h.blocks
  have hall (l : List Block) : (∀ b ∈ l.map Block.canonical, b.Fits) ↔ ∀ b ∈ l, b.Fits := by
    rw [forall_mem_map]
    exact forall₂_congr fun b _ => Block.fits_canonical
  have hblocks : (∀ b ∈ t.blocks, b.Fits) ↔ ∀ b ∈ bs, b.Fits := by
    rw [← hall, h.blocks, hall]
  constructor
  · exact fun hfits => ⟨hfits.id, hblocks.mp hfits.blocks⟩
  · rintro ⟨hid, hbs⟩
    refine ⟨hid, ?_, ?_, hlen ▸ h.depth, hblocks.mpr hbs⟩
    · rw [h.sig, length_chainSignature h32]
      decide
    · rw [← length_pos_iff, hlen, length_pos_iff]
      exact h.nonempty

theorem Chain.chainLimits_canonical (h : Chain I key bs t) (u : Text) :
    chainLimits u (bs.map Block.canonical) = chainLimits u bs := by
  unfold chainLimits
  rw [flatMap_map]
  congr 1
  exact flatMap_congr fun b hb => (h.made b hb).caveats.sorted

theorem Chain.says (h : Chain I key bs t) {eff : Caveats} {v : Verified}
    (heff : effective I.decimal (bs.map Block.canonical) = some eff)
    (hsums : Sums I.decimal (bs.map Block.canonical) eff) (hcaveats : v.caveats = eff)
    (hchain : v.chain = (bs.map Block.canonical).map fun b => capsToSyn b.caps) :
    Says I.decimal bs v where
  chain := by
    rw [hchain, map_map]
    apply map_congr_left
    exact fun b hb => capsToSyn_eq (h.made b hb).canonical.names
  exp := by
    rw [hcaveats, hsums.exp, filterMap_map]
    rfl
  llmTokens := by
    rw [hcaveats, hsums.llmTokens, filterMap_map]
    rfl
  deterministic := by
    rw [hcaveats, hsums.deterministic, any_map]
    rfl
  spend u := by
    rw [hcaveats, ← h.chainLimits_canonical]
    exact foldlM_tightenSpend_find? (effective_spend heff)

theorem provided_self (o : Option Text) : provided o o = true := by
  cases o <;> simp [provided]

theorem provided_of_narrowed {p c : Option Text} (h : narrowed (· == ·) p c = true)
    (hc : provided c o) : provided p o = true := by
  cases p with
  | none => rfl
  | some a =>
    cases c with
    | none => cases h
    | some b =>
      obtain rfl : b = a := by simpa [narrowed] using h
      exact hc

theorem Chain.exists_provided (h : Chain I key bs t) : ∃ aud ip method : Option Text, ∀ b ∈ bs,
    provided b.caveats.aud aud ∧ provided b.caveats.ip ip ∧ provided b.caveats.method method := by
  obtain ⟨last, hlast⟩ : ∃ last, (bs.map Block.canonical).getLast? = some last := by
    rw [← Option.ne_none_iff_exists', Ne, getLast?_eq_none_iff, map_eq_nil_iff]
    exact h.nonempty
  refine ⟨last.caveats.aud, last.caveats.ip, last.caveats.method, fun b hb => ?_⟩
  apply forall_of_getLast (P := fun b => provided b.caveats.aud last.caveats.aud ∧
    provided b.caveats.ip last.caveats.ip ∧ provided b.caveats.method last.caveats.method) ?_ hlast
    ⟨provided_self _, provided_self _, provided_self _⟩ b.canonical (mem_map_of_mem hb)
  rintro pc hpc ⟨haud, hip, hmethod⟩
  have hnarrow := (chainNarrows_capsCover (h.narrows []) pc hpc).2
  simp only [caveatsNarrow, Bool.and_eq_true] at hnarrow
  obtain ⟨⟨⟨-, haud'⟩, hip'⟩, hmethod'⟩ := hnarrow.1
  exact ⟨provided_of_narrowed haud' haud, provided_of_narrowed hip' hip,
    provided_of_narrowed hmethod' hmethod⟩

theorem any_lt_min?_eq_false_iff {l : List Int} {at_ : Int} :
    l.min?.any (· < at_) = false ↔ ∀ e ∈ l, at_ ≤ e := by
  cases hmin : l.min? with
  | none =>
    rw [min?_eq_none_iff] at hmin
    simp [hmin]
  | some m =>
    obtain ⟨hmem, hle⟩ := min?_eq_some_iff.mp hmin
    simp only [Option.any_some, decide_eq_false_iff_not, not_lt]
    exact ⟨fun h e he => h.trans (hle e he), fun h => h m hmem⟩

theorem provided_of_mem {f : Block → Option Text} {given : Option Text}
    (ho : ∀ a ∈ o, ∃ b ∈ bs, a ∈ f b) (h : ∀ b ∈ bs, provided (f b) given) :
    provided o given = true := by
  cases o with
  | none => rfl
  | some a =>
    obtain ⟨b, hb, ha⟩ := ho a rfl
    have hb := h b hb
    rwa [Option.mem_def.mp ha] at hb

theorem Chain.verifies (h : Chain I key bs t) (hfits : t.Fits) : Verifies I key bs t := by
  intro aud ip method at_ revoked hrevoked hprovided
  obtain ⟨eff, heff, hsums⟩ := exists_effective (R := I.decimal) fun b hb => by
    obtain ⟨b', hb', rfl⟩ := mem_map.mp hb
    exact (h.made b' hb').canonical.caveats.amounts
  obtain ⟨last, hlast⟩ : ∃ last, (bs.map Block.canonical).getLast? = some last := by
    rw [← Option.ne_none_iff_exists', Ne, getLast?_eq_none_iff, map_eq_nil_iff]
    exact h.nonempty
  have hmem {P : Block → Prop} (hP : ∀ b ∈ bs, P b.canonical) : ∀ b ∈ bs.map Block.canonical, P b :=
    forall_mem_map.mpr hP
  have hcontext : (provided eff.aud aud && provided eff.ip ip && provided eff.method method) =
      true := by
    rw [provided_of_mem hsums.aud (hmem fun b hb => (hprovided b hb).1),
      provided_of_mem hsums.ip (hmem fun b hb => (hprovided b hb).2.1),
      provided_of_mem hsums.method (hmem fun b hb => (hprovided b hb).2.2)]
    rfl
  have hblocks : t.canonical.blocks = bs.map Block.canonical := h.blocks
  have hsig : chainSignature I.hmac key t.canonical.id t.canonical.blocks = t.canonical.sig := by
    rw [hblocks, chainSignature_canonical]
    exact h.sig.symm
  refine ⟨_, verifyInner_eq (decodeToken_encodeToken hfits) hsig hrevoked
    (hblocks ▸ h.narrows _) (hblocks ▸ heff) hcontext (hblocks ▸ hlast), ?_, ?_⟩
  · have hexp : eff.exp.any (· < at_) = false ↔ ∀ b ∈ bs, ∀ e ∈ b.caveats.exp, at_ ≤ max e 0 := by
      rw [hsums.exp, any_lt_min?_eq_false_iff]
      constructor
      · intro hall b hb e he
        apply hall
        rw [mem_filterMap]
        exact ⟨b.canonical, mem_map_of_mem hb, Option.mem_map_of_mem _ he⟩
      · intro hall e he
        obtain ⟨b', hb', he⟩ := mem_filterMap.mp he
        obtain ⟨b, hb, rfl⟩ := mem_map.mp hb'
        obtain ⟨e', he', rfl⟩ := Option.mem_map.mp he
        exact hall b hb e' he'
    rw [← hexp]
    cases eff.exp.any (· < at_) <;> simp
  · intro v hv
    split at hv
    · cases hv
    · cases hv
      exact h.says heff hsums rfl (by rw [hblocks])

theorem Chain.not_verifies (h32 : ∀ k d, (I.hmac k d).length = 32) (h : Chain I key bs t)
    (hfits : ¬ t.Fits) : ¬ Verifies I key bs t := by
  intro hverifies
  obtain ⟨aud, ip, method, hprovided⟩ := h.exists_provided
  obtain ⟨r, hr, hsome, -⟩ := hverifies aud ip method 0 [] not_mem_nil hprovided
  have hnone : r = none := by
    unfold verifyInner at hr
    rw [h.decodeToken_eq_none h32 hfits] at hr
    exact (Except.ok.inj hr).symm
  rw [hnone] at hsome
  exact Bool.noConfusion (hsome.mpr fun b _ e _ => le_max_right e 0)

/-- **An issued token verifies, as what its blocks say, if and only if the reader has room for
it**: for its identity, and for the permissions and caveats of every block. -/
theorem issued_verifies_iff (hR : I.decimal.ReadsDisplay) (h32 : ∀ k d, (I.hmac k d).length = 32)
    (h : Issued I key bs t) : Verifies I key bs t ↔ TextFits t.id ∧ ∀ b ∈ bs, b.Fits := by
  have hchain := h.chain hR h32
  rw [← hchain.fits_iff h32]
  exact ⟨fun hverifies => by_contra fun hfits => hchain.not_verifies h32 hfits hverifies,
    hchain.verifies⟩

/-! ## A token that is not read -/

/-- A program that shows texts as they are, and has no clock. -/
def demoIssuer (hmac : Bytes → Bytes → Bytes) : Issuer where
  toEnv := demoEnv hmac
  display
    | .text t => t
    | _ => []
  toI64Trunc
    | .int n => some n
    | _ => none
  negativeZero _ := false

/-- The call `captoken_mint({"reveal": nothing}, "", {"id": id, "now": 0})`. -/
def revealArgs (id : Text) : List Arg :=
  [.map [("reveal", .nothing)], .text [],
    .map [("id", .text id), ("now", .number (.int 0))]]

/-- The block of that call. -/
def revealBlock : Block :=
  { caps := [("reveal", [])], caveats := { Caveats.default with exp := some 900 } }

theorem mintToken_reveal (hmac : Bytes → Bytes → Bytes) {id : Text} (hid : (trim id).isEmpty = false) :
    mintToken (demoIssuer hmac) none none (revealArgs id) =
      .ok { id, blocks := [revealBlock], sig := chainSignature hmac [] id [revealBlock] } := by
  have hmint : mintToken (demoIssuer hmac) none none (revealArgs id) =
      (mintId "captoken_mint" none (some id)).map fun id =>
        { id, blocks := [revealBlock], sig := chainSignature hmac [] id [revealBlock] } := rfl
  rw [hmint, mintId, hid]
  rfl

/-- An identity of 2¹⁶ bytes. -/
def longId : Text := replicate 65536 'a'

theorem not_textFits_longId : ¬ TextFits longId := by
  have hlen (n : Nat) : (utf8 (replicate n 'a')).length = n := by
    induction n with
    | zero => rfl
    | succ n ih =>
      rw [utf8] at ih
      rw [replicate_succ, utf8, flatMap_cons, length_append, ih, Nat.add_comm]
      rfl
  unfold TextFits longId
  rw [hlen]
  decide

theorem trim_longId : (trim longId).isEmpty = false := by
  have hblank : ¬ isWhitespace 'a' := by decide
  have hstart (n : Nat) : (replicate (n + 1) 'a').dropWhile isWhitespace =
      replicate (n + 1) 'a' := by
    rw [replicate_succ, dropWhile_cons_of_neg hblank]
  unfold trim trimStart trimEndMatches longId
  rw [hstart, List.rdropWhile, reverse_replicate, hstart, reverse_replicate]
  rfl

/-- **A token whose identity has 2¹⁶ bytes is minted, and does not verify.** -/
theorem not_issued_verifies : ¬ ∃ hmac : Bytes → Bytes → Bytes, (∀ k d, (hmac k d).length = 32) ∧
    ∀ key bs t, Issued (demoIssuer hmac) key bs t → Verifies (demoIssuer hmac) key bs t := by
  rintro ⟨hmac, h32, hclaim⟩
  have hissued := Issued.mint rfl (mintToken_reveal hmac trim_longId)
  have hchain := hissued.chain Reference.rustDecimal_readsDisplay h32
  refine hchain.not_verifies h32 ?_ (hclaim _ _ _ hissued)
  rintro ⟨hid, -⟩
  exact not_textFits_longId hid

/-- A token of two blocks. -/
def revealToken : Token :=
  { id := "t", blocks := [revealBlock, revealBlock], sig := replicate 32 0 }

/-- A token that is minted and attenuated once, without further limits, verifies. -/
theorem issued_verifies_iff_reveal :
    Verifies (demoIssuer demoHmac) [] [revealBlock, revealBlock] revealToken := by
  have h32 : ∀ k d, (demoHmac k d).length = 32 := fun _ _ => length_replicate
  have hmint := Issued.mint (I := demoIssuer demoHmac) rfl
    (mintToken_reveal demoHmac (show (trim "t").isEmpty = false from rfl))
  have hdecode := decodeToken_encodeToken (t := { revealToken with blocks := [revealBlock] })
    ⟨by decide, by decide, cons_ne_nil _ _, by decide, by decide⟩
  have hattenuate : attenuateToken (demoIssuer demoHmac) none
      [.text (encodeToken { revealToken with blocks := [revealBlock] }),
        .map [("reveal", .nothing)]] = .ok revealToken := by
    show attenuateWith _ _ _ _ _ _ = _
    unfold attenuateWith
    simp only [tokenTextOf, bind, Except.bind, hdecode]
    rfl
  exact (issued_verifies_iff Reference.rustDecimal_readsDisplay h32
    (hmint.attenuate hattenuate rfl)).mpr ⟨by decide, by decide⟩

end Synsema.Captoken
