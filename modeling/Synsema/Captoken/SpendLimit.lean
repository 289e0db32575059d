import Synsema.Captoken.Authority
import Synsema.Spend.Exact
import Mathlib.Data.List.MinMax

/-!
# Delegated limits

A token may carry limits on what its holder spends.  Verification keeps, for each unit, the
smallest limit of the chain, and `spend` holds the total of the identity to it.

The limit passes through two readers.  Verification compares the texts as `from_str` reads
them, which rounds, and `spend` reads the one that is left with `from_str_exact`; a text that
it does not read is no limit.  Where it reads the text, the limit holds over whole runs
(`delegatedSpend_holds`).
-/

namespace Synsema.Captoken

open Text Capability Spend Bytesutil List Option

/-! ## The subject of a token -/

/-- `identity_of`, of a verified token. -/
def identityOf (v : Verified) : Option Text :=
  if (trim v.id).isEmpty then none else some (trim v.id)

/-- `delegated_spend_of`, of a verified token. -/
def delegatedSpendOf (v : Verified) : List (Text × Text) := v.caveats.spend

/-- Does the call run for the holder of the token? -/
def UnderToken (v : Verified) (call : Call) : Prop :=
  call.requestIdentity = identityOf v ∧ call.requestSpendLimits = delegatedSpendOf v

instance (v : Verified) (call : Call) : Decidable (UnderToken v call) :=
  inferInstanceAs (Decidable (_ ∧ _))

/-! ## The smallest limit -/

variable {R : RustDecimal} {u : Text}

/-- The texts of the limits in a unit. -/
def limitsIn (u : Text) (limits : List (Text × Text)) : List Text :=
  (limits.filter fun p => p.1 == u).map Prod.snd

/-- The limits of a chain in a unit. -/
def chainLimits (u : Text) (blocks : List Block) : List Text :=
  limitsIn u (blocks.flatMap fun b => b.caveats.spend)

/-- The amount that verification reads in a text. -/
def amountOf (R : RustDecimal) (t : Text) : ℚ := (R.fromStr t).elim 0 Scaled.Num.value

/-- The limit that verification keeps: the first of the smallest. -/
def smallest (R : RustDecimal) (limits : List Text) : Option Text := limits.argmin (amountOf R)

variable {α : Type} {limits spend : List (Text × Text)} {eff : Caveats}

theorem find?_insertEntry_self (key : Text) (value : α) (l : List (Text × α)) :
    (insertEntry key value l).find? (fun p => p.1 == key) = some (key, value) := by
  induction l with
  | nil => simp [insertEntry]
  | cons p l ih =>
    unfold insertEntry
    split
    next h => simp [h]
    next h => simpa [h] using ih

theorem find?_insertEntry_of_ne {key k : Text} (hne : key ≠ k) (value : α) (l : List (Text × α)) :
    (insertEntry key value l).find? (fun p => p.1 == k) = l.find? fun p => p.1 == k := by
  induction l with
  | nil => simp [insertEntry, hne]
  | cons p l ih =>
    unfold insertEntry
    split
    next h =>
      have hpk : p.1 ≠ k := by
        rw [h]
        exact hne
      simp [hpk]
    next h => rw [find?_cons, find?_cons, ih]

theorem limitsIn_concat (limits : List (Text × Text)) (p : Text × Text) :
    limitsIn u (limits ++ [p]) = limitsIn u limits ++ if p.1 = u then [p.2] else [] := by
  unfold limitsIn
  rw [filter_append, map_append]
  split
  next h => simp [h]
  next h => simp [h]

theorem smallest_concat (limits : List Text) (a : Text) : smallest R (limits ++ [a]) =
    some ((smallest R limits).elim a fun c => if amountOf R a < amountOf R c then a else c) := by
  unfold smallest
  rw [argmin_concat]
  cases limits.argmin (amountOf R) with
  | none => rfl
  | some c => exact (apply_ite some _ _ _).symm

theorem tightenSpend_find? {spend' : List (Text × Text)}
    {p : Text × Text}
    (hspend : spend.find? (fun q ↦ q.1 == u) = (smallest R (limitsIn u limits)).map fun a ↦ (u, a))
    (h : tightenSpend R spend p = some spend') :
    spend'.find? (fun q => q.1 == u) =
      (smallest R (limitsIn u (limits ++ [p]))).map fun a => (u, a) := by
  obtain ⟨unit, a⟩ := p
  rw [limitsIn_concat]
  unfold tightenSpend at h
  cases hdec : R.fromStr a with
  | none => simp [hdec] at h
  | some dec =>
    simp only [hdec] at h
    by_cases hu : unit = u
    · subst hu
      rw [if_pos rfl, smallest_concat]
      cases hcur : smallest R (limitsIn unit limits) with
      | none =>
        rw [hcur, map_none] at hspend
        simp only [hspend, Option.some.injEq] at h
        subst h
        simp [find?_append, hspend]
      | some c =>
        rw [hcur, map_some] at hspend
        simp only [hspend] at h
        cases hc : R.fromStr c with
        | none => simp [hc] at h
        | some cdec =>
          simp only [hc, Option.some.injEq] at h
          subst h
          have hlt : dec.lt cdec = true ↔ amountOf R a < amountOf R c := by
            simp [amountOf, hdec, hc, Scaled.Num.lt_iff]
          by_cases hac : amountOf R a < amountOf R c
          · simp [hac, hlt.mpr hac, find?_insertEntry_self]
          · simp [hac, mt hlt.mp hac, hspend]
    · rw [if_neg hu, append_nil, ← hspend]
      cases hfind : spend.find? (fun q => q.1 == unit) with
      | none =>
        simp only [hfind, Option.some.injEq] at h
        subst h
        simp [find?_append, hu]
      | some q =>
        simp only [hfind] at h
        cases hq : R.fromStr q.2 with
        | none => simp [hq] at h
        | some qdec =>
          simp only [hq, Option.some.injEq] at h
          subst h
          split
          · exact find?_insertEntry_of_ne hu a spend
          · rfl

theorem foldlM_tightenSpend_find? (h : limits.foldlM (tightenSpend R) [] = some spend) :
    spend.find? (fun q => q.1 == u) = (smallest R (limitsIn u limits)).map fun a => (u, a) := by
  induction limits using List.reverseRecOn generalizing spend with
  | nil =>
    cases h
    rfl
  | append_singleton limits p ih =>
    rw [foldlM_append] at h
    obtain ⟨mid, hmid, h⟩ := bind_eq_some_iff.mp h
    apply tightenSpend_find? (ih hmid)
    simpa using h

theorem tighten_spend {eff' c : Caveats} (h : tighten R eff c = some eff') :
    c.spend.foldlM (tightenSpend R) eff.spend = some eff'.spend := by
  obtain ⟨spend, hspend, rfl⟩ := map_eq_some_iff.mp h
  exact hspend

theorem effective_spend {blocks : List Block} (h : effective R blocks = some eff) :
    (blocks.flatMap fun b => b.caveats.spend).foldlM (tightenSpend R) [] = some eff.spend := by
  have key : ∀ acc, blocks.foldlM (fun eff b => tighten R eff b.caveats) acc = some eff →
      (blocks.flatMap fun b => b.caveats.spend).foldlM (tightenSpend R) acc.spend =
        some eff.spend := by
    clear h
    induction blocks with
    | nil =>
      rintro acc ⟨⟩
      rfl
    | cons b blocks ih =>
      intro acc h
      rw [foldlM_cons] at h
      obtain ⟨mid, hmid, h⟩ := bind_eq_some_iff.mp h
      rw [flatMap_cons, foldlM_append, tighten_spend hmid]
      exact ih mid h
  exact key _ h

theorem delegatedSpendOf_find? {env : Env} {who tokenText : Text} {key : Bytes}
    {aud ip method : Option Text} {at_ : Int} {revoked : List Text} {v : Verified} {t : Token}
    (hverify : verifyInner env tokenText key aud ip method at_ revoked who = .ok (some v))
    (hdecode : decodeToken tokenText = some t) (u : Text) :
    (delegatedSpendOf v).find? (fun q => q.1 == u) =
      (smallest env.decimal (chainLimits u t.blocks)).map fun a => (u, a) := by
  obtain ⟨t', -, hdecode', -, -, -, -, heff⟩ := verifyInner_spec hverify
  obtain rfl : t = t' := by simpa [hdecode] using hdecode'
  exact foldlM_tightenSpend_find? (effective_spend heff)

/-! ## Runs -/

variable {host : Host} {v : Verified} {who : Text} {L : Ledger} {call : Call} {limit : Dec}

/-- The sum of the amounts recorded in a unit for the holder of a token. -/
def spentUnder (R : RustDecimal) (v : Verified) (unit : Text) (steps : List Step) : ℚ :=
  spentOn R unit (steps.filter fun s => UnderToken v s.call)

/-- If the step records an amount of the identity in the unit, then the decimals can hold the
sum of the total of the identity and the amount. -/
def IdentityFits (R : RustDecimal) (host : Host) (who u : Text) (s : Step) : Prop :=
  ∀ o newTotal id, Recorded R host s.call s.before o newTotal id → s.call.identity = some who →
    u = o.unit → Representable ((s.before.identityTotal who u).value + o.amount.value)

theorem spentUnder_concat (unit : Text) (steps : List Step) (s : Step) :
    spentUnder R v unit (steps ++ [s]) = spentUnder R v unit steps +
      if UnderToken v s.call then s.amount R unit else 0 := by
  unfold spentUnder
  rw [filter_append]
  split
  next h => simp [spentOn_concat, h]
  next h => simp [h]

/-- What holds after each call: the total of the identity is exact, what the holder of the
token spent is part of it, and is within the limit. -/
structure Held (R : RustDecimal) (v : Verified) (who u : Text) (limit : Dec) (steps : List Step)
    (L : Ledger) : Prop where
  exact : (L.identityTotal who u).value = spentBy R who u steps
  part : spentUnder R v u steps ≤ spentBy R who u steps
  limit : spentUnder R v u steps ≤ limit.value

theorem Held.step (hR : R.Lawful) (hsigns : R.ReadsSigns) (hwho : identityOf v = some who)
    (hlimit : ∀ call, UnderToken v call → call.delegated R u = some limit) {steps : List Step}
    (h : Held R v who u limit steps L) (hfits : IdentityFits R host who u (stepOf R host L call)) :
    Held R v who u limit (steps ++ [stepOf R host L call]) (stepOf R host L call).after := by
  rcases spend_cases R host call L with ⟨e, L', heq, -, hid⟩ | ⟨o, newTotal, id, hrec, heq⟩
  · -- the call failed: nothing changes
    have hafter : (stepOf R host L call).after = L' := by simp [stepOf, heq]
    have hamount := amount_of_error (congrArg Prod.fst heq) u
    have hby : spentBy R who u (steps ++ [stepOf R host L call]) = spentBy R who u steps := by
      rw [spentBy_concat, hamount, ite_self, add_zero]
    have hunder : spentUnder R v u (steps ++ [stepOf R host L call]) = spentUnder R v u steps := by
      rw [spentUnder_concat, hamount, ite_self, add_zero]
    refine ⟨?_, ?_, ?_⟩
    · rw [hby, hafter, Ledger.identityTotal, hid]
      exact h.exact
    · rw [hby, hunder]
      exact h.part
    · rw [hunder]
      exact h.limit
  · have hafter : (stepOf R host L call).after = L.after R call o newTotal id := by
      simp [stepOf, heq]
    have hcall : (stepOf R host L call).call = call := rfl
    have hnonneg : 0 ≤ o.amount.value := readOrder_nonneg hsigns hrec.order
    have hunder : UnderToken v call → call.identity = some who := by
      intro hu
      simp [Call.identity, hu.1, hwho]
    by_cases hcharged : call.identity = some who ∧ u = o.unit
    · -- the call is charged to the identity in the unit
      obtain ⟨hidentity, rfl⟩ := hcharged
      obtain ⟨t, rfl, ht⟩ : ∃ t, id = some (who, t) ∧
          R.checkedAdd (L.identityTotal who o.unit) o.amount = some t := by
        rcases identitySum_cases hrec.identity with ⟨hnone, -⟩ | ⟨who', t, hsome, hid, ht⟩
        · rw [hidentity] at hnone
          cases hnone
        · rw [hidentity] at hsome
          cases hsome
          exact ⟨t, hid, ht⟩
      have hsum : t.value = (L.identityTotal who o.unit).value + o.amount.value := by
        obtain ⟨c, hc, hval⟩ := hR.checkedAdd_exact _ _ (hfits o newTotal _ hrec hidentity rfl)
        change R.checkedAdd (L.identityTotal who o.unit) o.amount = _ at hc
        rw [ht] at hc
        cases hc
        exact hval
      have hby : spentBy R who o.unit (steps ++ [stepOf R host L call]) = t.value := by
        rw [spentBy_concat, hcall, if_pos hidentity, hrec.amount_eq, if_pos rfl, ← h.exact, hsum]
      have hle : spentUnder R v o.unit (steps ++ [stepOf R host L call]) ≤ t.value := by
        rw [spentUnder_concat, hcall, hrec.amount_eq, if_pos rfl, hsum, h.exact]
        have hpart := h.part
        split <;> linarith
      refine ⟨?_, ?_, ?_⟩
      · rw [hby, hafter, identityTotal_after_some, if_pos ⟨rfl, rfl⟩]
      · rw [hby]
        exact hle
      · by_cases htoken : UnderToken v call
        · exact hle.trans (hrec.ceilings.ofDelegation who t rfl limit (hlimit call htoken))
        · rw [spentUnder_concat, hcall, if_neg htoken, add_zero]
          exact h.limit
    · -- the call is charged elsewhere
      have hby : spentBy R who u (steps ++ [stepOf R host L call]) = spentBy R who u steps := by
        rw [spentBy_concat, hcall, hrec.amount_eq]
        split
        next hidentity => rw [if_neg fun hu => hcharged ⟨hidentity, hu⟩, add_zero]
        next => rw [add_zero]
      have hspent : spentUnder R v u (steps ++ [stepOf R host L call]) =
          spentUnder R v u steps := by
        rw [spentUnder_concat, hcall, hrec.amount_eq]
        split
        next htoken => rw [if_neg fun hu => hcharged ⟨hunder htoken, hu⟩, add_zero]
        next => rw [add_zero]
      have htotal : (L.after R call o newTotal id).identityTotal who u =
          L.identityTotal who u := by
        rcases identitySum_cases hrec.identity with ⟨-, rfl⟩ | ⟨who', t, hsome, rfl, -⟩
        · exact identityTotal_after_none who u
        · rw [identityTotal_after_some, if_neg]
          rintro ⟨rfl, hu⟩
          exact hcharged ⟨hsome, hu⟩
      refine ⟨?_, ?_, ?_⟩
      · rw [hby, hafter, htotal]
        exact h.exact
      · rw [hby, hspent]
        exact h.part
      · rw [hspent]
        exact h.limit

theorem held_of_fits (hR : R.Lawful) (hsigns : R.ReadsSigns) (hwho : identityOf v = some who)
    (hlimit : ∀ call, UnderToken v call → call.delegated R u = some limit) (hpos : 0 ≤ limit.value)
    {calls : List Call} (hfits : ∀ s ∈ trace R host .empty calls, IdentityFits R host who u s) :
    Held R v who u limit (trace R host .empty calls) (final R host .empty calls) := by
  induction calls using List.reverseRecOn with
  | nil => exact ⟨Dec.value_zero, le_refl (0 : ℚ), hpos⟩
  | append_singleton calls call ih =>
    rw [trace_concat] at hfits ⊢
    rw [final_concat]
    apply Held.step hR hsigns hwho hlimit
    · exact ih fun s hs => hfits s (mem_append_left _ hs)
    · exact hfits _ (mem_append_right _ (mem_singleton.mpr rfl))

/-! ## The law of a delegated limit -/

/-- Is what the holder of the token spends in a unit within every limit of the chain? -/
def LimitHolds (R : RustDecimal) (host : Host) (v : Verified) (blocks : List Block) (u : Text)
    (calls : List Call) : Prop :=
  ∀ a ∈ chainLimits u blocks, ∀ d, R.fromStr a = some d →
    spentUnder R v (trim u) (trace R host .empty calls) ≤ d.value

/-- The token names an identity, its unit has no blanks around it, and `spend` reads the
smallest limit of the chain, which is not negative. -/
structure LimitReads (R : RustDecimal) (t : Token) (u : Text) : Prop where
  id : trim t.id ≠ []
  unit : trim u = u
  smallest : ∀ a, smallest R (chainLimits u t.blocks) = some a →
    ∃ d, R.fromStrExact a = some d ∧ 0 ≤ d.value

/-- **A delegated limit holds over whole runs where `spend` reads it** and the decimals can
hold the totals of the identity, whatever other calls run in between. -/
theorem delegatedSpend_holds {env : Env} (hR : env.decimal.Lawful)
    (hsigns : env.decimal.ReadsSigns) {tokenText : Text} {key : Bytes}
    {aud ip method : Option Text} {at_ : Int} {revoked : List Text} {v : Verified} {t : Token}
    (hverify : verifyInner env tokenText key aud ip method at_ revoked who = .ok (some v))
    (hdecode : decodeToken tokenText = some t) (host : Host) (u : Text) (calls : List Call)
    (hreads : LimitReads env.decimal t u)
    (hfits : ∀ s ∈ trace env.decimal host .empty calls,
      IdentityFits env.decimal host (trim t.id) u s) :
    LimitHolds env.decimal host v t.blocks u calls := by
  intro a ha d hd
  have hfind := delegatedSpendOf_find? hverify hdecode u
  obtain ⟨t', -, hdecode', -, -, hid, -, -⟩ := verifyInner_spec hverify
  obtain rfl : t = t' := by simpa [hdecode] using hdecode'
  have hwho : identityOf v = some (trim t.id) := by
    simp [identityOf, hid, hreads.id]
  obtain ⟨m, hm⟩ : ∃ m, smallest env.decimal (chainLimits u t.blocks) = some m := by
    rw [← ne_none_iff_exists', smallest, Ne, argmin_eq_none]
    exact ne_nil_of_mem ha
  obtain ⟨limit, hlimit, hpos⟩ := hreads.smallest m hm
  have hdelegated : ∀ call, UnderToken v call → call.delegated env.decimal u = some limit := by
    intro call hcall
    simp [Call.delegated, hcall.2, hfind, hm, hlimit]
  have hheld := held_of_fits hR hsigns hwho hdelegated hpos hfits
  have hle : amountOf env.decimal m ≤ amountOf env.decimal a := le_of_mem_argmin ha hm
  rw [amountOf, amountOf, hR.fromStr_of_exact m limit hlimit, hd] at hle
  rw [hreads.unit]
  exact hheld.limit.trans hle

/-! ## A limit that is not read -/

/-- A root that delegates 10 EUR, and a holder who limits it further. -/
def limited (text : String) : List Block :=
  [{ caps := [("spend", [])],
     caveats := { Caveats.default with spend := [("EUR", "10")] } },
   { caps := [("spend", [])],
     caveats := { Caveats.default with spend := [("EUR", text.toList)] } }]

/-- What the token delegates. -/
def limitedTo (text : String) : Verified where
  id := "t"
  caps := [("spend", [])]
  chain := [[("spend", [])], [("spend", [])]]
  depth := 2
  caveats := { Caveats.default with spend := [("EUR", text.toList)] }

/-- An amount of EUR, spent for the holder of a token. -/
def holderCall (text : String) (amount : Int64) : Call :=
  { demoCall (.int amount) with
    requestIdentity := some "t".toList
    requestSpendLimits := [("EUR", text.toList)] }

theorem verifyInner_limited {hmac : Bytes → Bytes → Bytes} (h32 : ∀ k d, (hmac k d).length = 32)
    {text : String} (hfits : ∀ b ∈ limited text, b.Fits)
    (hcanonical : (limited text).map Block.canonical = limited text)
    (hchain : chainNarrows (demoEnv hmac) [] (limited text) = .ok true)
    (heff : effective Reference.rustDecimal (limited text) = some (limitedTo text).caveats) :
    decodeToken (encodeToken (signed hmac [] (limited text))) =
        some (signed hmac [] (limited text)) ∧
      verifyInner (demoEnv hmac) (encodeToken (signed hmac [] (limited text))) [] none none none
        0 [] [] = .ok (some (limitedTo text)) := by
  have hdepth : (limited text).length ≤ maxDepth := by
    show 2 ≤ maxDepth
    decide
  exact verifyInner_signed h32 [] [] hcanonical hdepth hfits rfl hchain heff ⟨rfl, rfl, rfl, rfl⟩

/-- Five, with 29 decimal places. -/
def longFive : String := "5.00000000000000000000000000000"

/-- **The holder of a token can lift its limit**: verification reads 29 decimal places as 5,
and `spend` reads no limit. -/
theorem not_delegatedSpend_holds : ¬ ∃ hmac : Bytes → Bytes → Bytes,
    (∀ k d, (hmac k d).length = 32) ∧
    ∀ who tokenText key aud ip method at_ revoked v t host u calls,
      verifyInner (demoEnv hmac) tokenText key aud ip method at_ revoked who = .ok (some v) →
      decodeToken tokenText = some t → identityOf v ≠ none → (∀ call ∈ calls, UnderToken v call) →
      LimitHolds Reference.rustDecimal host v t.blocks u calls := by
  rintro ⟨hmac, h32, hclaim⟩
  obtain ⟨hdecode, hverify⟩ := verifyInner_limited h32
    (by decide : ∀ b ∈ limited longFive, b.Fits) (by decide) rfl
    (by decide)
  have hunder : ∀ call ∈ [holderCall longFive 9], UnderToken (limitedTo longFive) call := by
    decide
  have hholds := hclaim _ _ _ _ _ _ _ _ _ _ demoHost "EUR" [holderCall longFive 9]
    hverify hdecode (by decide) hunder
  have hread : ∃ d, Reference.fromStr longFive.toList = some d ∧ d.value = 5 := by
    refine ⟨(Reference.fromStr longFive.toList).get (by decide +kernel), ?_, by decide +kernel⟩
    rw [some_get]
  obtain ⟨d, hd, hfive⟩ := hread
  have hmem : longFive.toList ∈ chainLimits "EUR" (limited longFive) := by decide
  have hnine : spentUnder Reference.rustDecimal (limitedTo longFive) (trim "EUR")
      (trace Reference.rustDecimal demoHost .empty [holderCall longFive 9]) = 9 := by
    decide +kernel
  have hle := hholds _ hmem d hd
  rw [hnine, hfive] at hle
  exact absurd hle (by decide)

def twoEur : Order :=
  { amount := Dec.ofInt64 2, unit := "EUR", reason := "hosting" }

/-- A limit of 3 EUR, and two calls of 2 EUR: the second is refused. -/
theorem delegatedSpend_holds_three : LimitHolds Reference.rustDecimal demoHost (limitedTo "3")
    (limited "3") "EUR" [holderCall "3" 2, holderCall "3" 2] := by
  have h32 : ∀ k d, (demoHmac k d).length = 32 := fun _ _ => length_replicate
  obtain ⟨hdecode, hverify⟩ := verifyInner_limited h32
    (by decide : ∀ b ∈ limited "3", b.Fits) (by decide)
    (rfl : chainNarrows (demoEnv demoHmac) [] (limited "3") = .ok true)
    (by decide)
  refine delegatedSpend_holds Reference.rustDecimal_lawful Reference.rustDecimal_readsSigns
    hverify hdecode demoHost "EUR" _ ?_ ?_
  · refine ⟨by decide, by decide, ?_⟩
    intro a ha
    have hthree : smallest Reference.rustDecimal (chainLimits "EUR" (limited "3")) =
        some "3".toList := by decide +kernel
    obtain rfl : "3" = a := by
      change smallest Reference.rustDecimal (chainLimits "EUR" (limited "3")) = _ at ha
      rw [hthree] at ha
      exact Option.some.inj ha
    exact ⟨Dec.ofInt64 3, by decide +kernel, by decide +kernel⟩
  · have hfits : ∀ {L : Ledger} {t : Dec}, L.identityTotal "t" "EUR" = t →
        Representable (t.value + twoEur.amount.value) →
        IdentityFits Reference.rustDecimal demoHost (trim "t") "EUR"
          (stepOf Reference.rustDecimal demoHost L (holderCall "3" 2)) := by
      intro L t hL hsum o newTotal id hrec _ _
      cases hrec.order
      show Representable ((L.identityTotal "t" "EUR").value + twoEur.amount.value)
      rwa [hL]
    intro s hs
    change s ∈ trace Reference.rustDecimal demoHost .empty [holderCall "3" 2, holderCall "3" 2] at hs
    simp only [trace, List.mem_cons, not_mem_nil, or_false] at hs
    rcases hs with rfl | rfl
    · apply hfits (t := Dec.zero) rfl
      exact ⟨Dec.ofInt64 2, by decide +kernel⟩
    · apply hfits (t := Dec.ofInt64 2) (by decide)
      exact ⟨Dec.ofInt64 4, by decide +kernel⟩

end Synsema.Captoken
