import Synsema.Spend.Ledger

/-!
# The totals of the ledger

What the totals are after any sequence of calls.  A call that fails leaves both totals as
they were, and a total is never above the host's ceiling for its unit, whatever the calls.

The totals are the sums of the amounts recorded as long as the decimals can hold these sums:
`checked_add` rounds a sum that they cannot hold, and the ledger keeps the rounded one
(`ledgerLaw_iff`).
-/

namespace Synsema.Spend

open Text Capability List Option

variable {R : RustDecimal} {host : Host} {call : Call} {L L' : Ledger} {o : Order} {newTotal : Dec}
  {id : Option (Text × Dec)}

/-! ## Ceilings -/

variable {K : Type} {m : K → Option Dec} {c : Dec} {unit : Text} {calls : List Call}
  {e : RuntimeError} {steps : List Step}

theorem insertPositive_pos [DecidableEq K] (h : ∀ k d, m k = some d → 0 < d.value)
    (entry : K × Text) : ∀ k d, insertPositive R m entry k = some d → 0 < d.value := by
  intro k d hd
  unfold insertPositive at hd
  cases he : R.fromStrExact entry.2 with
  | none =>
    rw [he] at hd
    exact h k d hd
  | some e =>
    simp only [he] at hd
    cases hpos : Dec.zero.lt e with
    | false => exact h k d (by simpa [hpos] using hd)
    | true =>
      rw [hpos, if_pos rfl] at hd
      by_cases hk : k = entry.1
      · subst hk
        rw [Function.update_self] at hd
        cases hd
        simpa using Scaled.Num.lt_iff.mp hpos
      · rw [Function.update_of_ne hk] at hd
        exact h k d hd

theorem foldl_insertPositive_pos [DecidableEq K] (entries : List (K × Text))
    (h : ∀ k d, m k = some d → 0 < d.value) :
    ∀ k d, entries.foldl (insertPositive R) m k = some d → 0 < d.value := by
  induction entries generalizing m with
  | nil => exact h
  | cons e es ih => exact ih (insertPositive_pos h e)

theorem spendCeilings_pos (h : host.spendCeilings R unit = some c) : 0 < c.value :=
  foldl_insertPositive_pos _ (fun _ _ hn => by cases hn) unit c h

theorem Breach.of_eq_none_iff {spent total : Dec} {which : Text} {ceiling : Option Dec} :
    Breach.of spent which ceiling total = none ↔ ∀ c, ceiling = some c → total.value ≤ c.value := by
  unfold Breach.of
  rw [map_eq_none_iff, filter_eq_none_iff]
  constructor
  · intro h c hc
    have hlt := h c hc
    rw [Scaled.Num.lt_iff] at hlt
    exact not_lt.mp hlt
  · intro h c hc hlt
    exact absurd (h c hc) (not_le.mpr (Scaled.Num.lt_iff.mp hlt))

/-- The new totals are within every ceiling. -/
structure WithinCeilings (R : RustDecimal) (host : Host) (call : Call) (unit : Text)
    (newTotal : Dec) (id : Option (Text × Dec)) : Prop where
  ofUnit : ∀ c, host.spendCeilings R unit = some c → newTotal.value ≤ c.value
  ofIdentity : ∀ who t, id = some (who, t) →
    ∀ c, host.identityCeilings R (who, unit) = some c → t.value ≤ c.value
  ofDelegation : ∀ who t, id = some (who, t) →
    ∀ c, call.delegated R unit = some c → t.value ≤ c.value

theorem breach_eq_none_iff : breach R host call o L newTotal id = none ↔
    WithinCeilings R host call o.unit newTotal id := by
  unfold breach
  rw [or_eq_none_iff, Breach.of_eq_none_iff]
  cases id with
  | none =>
    constructor
    · rintro ⟨h, -⟩
      exact ⟨h, by simp, by simp⟩
    · intro h
      exact ⟨h.ofUnit, rfl⟩
  | some p =>
    obtain ⟨who, t⟩ := p
    rw [bind_some, or_eq_none_iff, Breach.of_eq_none_iff, Breach.of_eq_none_iff]
    constructor
    · rintro ⟨h, hid, hdel⟩
      refine ⟨h, ?_, ?_⟩
      · rintro _ _ ⟨⟩
        exact hid
      · rintro _ _ ⟨⟩
        exact hdel
    · intro h
      exact ⟨h.ofUnit, h.ofIdentity who t rfl, h.ofDelegation who t rfl⟩

/-! ## What a call does -/

/-- A call that passes every check: its arguments, the branch it runs in, the capabilities,
the sums, the ceilings, the audit. -/
structure Recorded (R : RustDecimal) (host : Host) (call : Call) (L : Ledger) (o : Order)
    (newTotal : Dec) (id : Option (Text × Dec)) : Prop where
  order : readOrder R call.args = .ok o
  branch : call.preflight = .ok ()
  granted : call.checked o.unit = .ok ()
  total : R.checkedAdd (L.total o.unit) o.amount = some newTotal
  identity : call.identitySum R o L = some id
  ceilings : WithinCeilings R host call o.unit newTotal id
  audit : call.auditWrite = .ok ()

/-- The entry that a recorded call leaves in the audit. -/
def grantedEntry (R : RustDecimal) (call : Call) (o : Order) : AuditEntry :=
  { identity := call.identity, unit := o.unit, amount := R.display o.amount, reason := o.reason,
    granted := true, ceilingDenied := false }

/-- The ledger after a recorded call. -/
def Ledger.after (R : RustDecimal) (call : Call) (o : Order) (newTotal : Dec)
    (id : Option (Text × Dec)) (L : Ledger) : Ledger :=
  { L with log := L.log ++ [grantedEntry R call o] }.record o.unit newTotal id

theorem Ledger.SameTotals.refl (L : Ledger) : L.SameTotals L := ⟨rfl, rfl⟩

theorem writeSpendAudit_sameTotals (granted ceilingDenied : Bool) :
    L.SameTotals (call.writeSpendAudit R o granted ceilingDenied L).2 := by
  unfold Call.writeSpendAudit
  split
  · exact .refl L
  · split <;> exact ⟨rfl, rfl⟩

theorem pcPrivate_of_preflight (h : call.preflight = .ok ()) : call.rt.pcPrivate = false := by
  unfold Call.preflight at h
  split at h
  next => cases h
  next hpc => simpa using hpc

theorem writeSpendAudit_error (hbranch : call.preflight = .ok ()) {e : Text}
    (haudit : call.auditWrite = .error e) (granted ceilingDenied : Bool) :
    call.writeSpendAudit R o granted ceilingDenied L = (.error e, L) := by
  simp [Call.writeSpendAudit, pcPrivate_of_preflight hbranch, haudit]

theorem writeSpendAudit_ok (hbranch : call.preflight = .ok ())
    (haudit : call.auditWrite = .ok ()) (granted ceilingDenied : Bool) :
    call.writeSpendAudit R o granted ceilingDenied L =
      (.ok (), { L with log := L.log ++ [{
        identity := call.identity, unit := o.unit, amount := R.display o.amount,
        reason := o.reason, granted, ceilingDenied }] }) := by
  simp [Call.writeSpendAudit, pcPrivate_of_preflight hbranch, haudit]

theorem settle_cases (R : RustDecimal) (host : Host) (o : Order) (L : Ledger) (newTotal : Dec)
    (id : Option (Text × Dec)) (hbranch : call.preflight = .ok ()) :
    (∃ e L', settle R host call o L newTotal id = (.error e, L') ∧ L.SameTotals L') ∨
      (WithinCeilings R host call o.unit newTotal id ∧ call.auditWrite = .ok () ∧
        settle R host call o L newTotal id = (.ok newTotal, L.after R call o newTotal id)) := by
  unfold settle
  cases hb : breach R host call o L newTotal id with
  | some b => exact .inl ⟨_, _, rfl, writeSpendAudit_sameTotals _ _⟩
  | none =>
    cases haudit : call.auditWrite with
    | error e =>
      rw [writeSpendAudit_error hbranch haudit true false]
      exact .inl ⟨_, L, rfl, .refl L⟩
    | ok _ =>
      rw [writeSpendAudit_ok hbranch haudit true false]
      exact .inr ⟨breach_eq_none_iff.mp hb, rfl, rfl⟩

theorem Recorded.spend_eq (h : Recorded R host call L o newTotal id) :
    spend R host call L = (.ok newTotal, L.after R call o newTotal id) := by
  unfold spend charge settle
  simp only [h.order, h.branch, h.granted, h.total, h.identity, breach_eq_none_iff.mpr h.ceilings,
    writeSpendAudit_ok h.branch h.audit]
  rfl

theorem spend_cases (R : RustDecimal) (host : Host) (call : Call) (L : Ledger) :
    (∃ e L', spend R host call L = (.error e, L') ∧ L.SameTotals L') ∨
      ∃ o newTotal id, Recorded R host call L o newTotal id ∧
        spend R host call L = (.ok newTotal, L.after R call o newTotal id) := by
  unfold spend
  cases horder : readOrder R call.args with
  | error e => exact .inl ⟨e, L, rfl, .refl L⟩
  | ok o =>
    dsimp only
    cases hbranch : call.preflight with
    | error e => exact .inl ⟨e, L, rfl, .refl L⟩
    | ok _ =>
      dsimp only
      cases hcheck : call.checked o.unit with
      | error cause => exact .inl ⟨_, _, rfl, writeSpendAudit_sameTotals _ _⟩
      | ok _ =>
        unfold charge
        cases htotal : R.checkedAdd (L.total o.unit) o.amount with
        | none => exact .inl ⟨overflow, L, rfl, .refl L⟩
        | some newTotal =>
          cases hid : call.identitySum R o L with
          | none => exact .inl ⟨overflow, L, rfl, .refl L⟩
          | some id =>
            rcases settle_cases R host o L newTotal id hbranch with h | ⟨hw, haudit, h⟩
            · exact .inl h
            · exact .inr ⟨o, newTotal, id,
                ⟨horder, hbranch, hcheck, htotal, hid, hw, haudit⟩, h⟩

/-! ## Totals after a call -/

theorem total_after (unit : Text) : (L.after R call o newTotal id).total unit =
    if unit = o.unit then newTotal else L.total unit := by
  show ((Function.update L.totals o.unit (some newTotal)) unit).getD Dec.zero = _
  split
  next h => rw [h, Function.update_self, getD_some]
  next h =>
    rw [Function.update_of_ne h]
    rfl

theorem identityTotal_after_none (who unit : Text) :
    (L.after R call o newTotal none).identityTotal who unit = L.identityTotal who unit := rfl

theorem identityTotal_after_some (who' who unit : Text) (t : Dec) :
    (L.after R call o newTotal (some (who', t))).identityTotal who unit =
      if who = who' ∧ unit = o.unit then t else L.identityTotal who unit := by
  show ((Function.update L.identityTotals (who', o.unit) (some t)) (who, unit)).getD Dec.zero = _
  split
  next h =>
    obtain ⟨rfl, rfl⟩ := h
    rw [Function.update_self, getD_some]
  next h =>
    rw [Function.update_of_ne (by rwa [Ne, Prod.mk.injEq])]
    rfl

theorem identitySum_cases (h : call.identitySum R o L = some id) :
    (call.identity = none ∧ id = none) ∨
      ∃ who t, call.identity = some who ∧ id = some (who, t) ∧
        R.checkedAdd (L.identityTotal who o.unit) o.amount = some t := by
  unfold Call.identitySum at h
  cases hwho : call.identity with
  | none =>
    rw [hwho] at h
    cases h
    exact .inl ⟨rfl, rfl⟩
  | some who =>
    simp only [hwho] at h
    obtain ⟨t, ht, rfl⟩ := map_eq_some_iff.mp h
    exact .inr ⟨who, t, rfl, rfl, ht⟩

/-! ## Amounts -/

theorem amountToDecimal_nonneg (hsigns : R.ReadsSigns) {n : Number} {d : Dec}
    (hneg : n.isNegative = false) (hzero : n.isZero = false)
    (h : amountToDecimal R n = .ok d) : 0 ≤ d.value := by
  unfold amountToDecimal at h
  cases hdec : n.toDecimal R with
  | some e =>
    rw [hdec] at h
    cases h
    exact Number.toDecimal_nonneg hsigns hneg hdec
  | none =>
    simp only [hdec] at h
    cases hread : (R.fromStrExact (n.display R)).or (R.fromScientific (n.display R)) with
    | none =>
      rw [hread] at h
      cases h
    | some e =>
      rw [hread] at h
      cases h
      apply hsigns _ _ ?_ (Number.head_display hneg hzero hdec)
      exact (or_eq_some_iff.mp hread).imp_right And.right

theorem readOrder_nonneg (hsigns : R.ReadsSigns) {args : List Arg}
    (h : readOrder R args = .ok o) : 0 ≤ o.amount.value := by
  unfold readOrder at h
  cases hamount : readAmount R args[0]? with
  | error e =>
    rw [hamount] at h
    cases h
  | ok d =>
    have hd : 0 ≤ d.value := by
      unfold readAmount at hamount
      split at hamount
      next n _ =>
        split at hamount
        next => cases hamount
        next hsign =>
          simp only [Bool.not_eq_true, Bool.or_eq_false_iff] at hsign
          cases hconv : amountToDecimal R n with
          | error e =>
            rw [hconv] at hamount
            cases hamount
          | ok e =>
            rw [hconv] at hamount
            cases hamount
            exact amountToDecimal_nonneg hsigns hsign.1 hsign.2 hconv
      next => cases hamount
      next => cases hamount
    cases hunit : readUnit args[1]? with
    | error e =>
      rw [hamount, hunit] at h
      cases h
    | ok unit =>
      cases hreason : readReason args[2]? with
      | error e =>
        rw [hamount, hunit, hreason] at h
        cases h
      | ok reason =>
        rw [hamount, hunit, hreason] at h
        cases h
        exact hd

/-! ## Runs -/

/-- A call of a run, with the ledger before and after it. -/
structure Step where
  before : Ledger
  call : Call
  result : Except RuntimeError Dec
  after : Ledger

/-- The call of `spend` as a step. -/
def stepOf (R : RustDecimal) (host : Host) (L : Ledger) (call : Call) : Step :=
  { before := L, call, result := (spend R host call L).1, after := (spend R host call L).2 }

/-- The ledger after a sequence of calls. -/
def final (R : RustDecimal) (host : Host) (L : Ledger) (calls : List Call) : Ledger :=
  calls.foldl (fun L call => (spend R host call L).2) L

/-- The steps of a sequence of calls. -/
def trace (R : RustDecimal) (host : Host) : Ledger → List Call → List Step
  | _, [] => []
  | L, call :: calls => stepOf R host L call :: trace R host (stepOf R host L call).after calls

theorem final_concat (pre : List Call) (call : Call) :
    final R host L (pre ++ [call]) = (stepOf R host (final R host L pre) call).after := by
  simp [final, stepOf]

theorem trace_append (pre post : List Call) : trace R host L (pre ++ post) =
    trace R host L pre ++ trace R host (final R host L pre) post := by
  induction pre generalizing L with
  | nil => rfl
  | cons call pre ih =>
    show _ :: trace R host _ (pre ++ post) = _
    rw [ih]
    rfl

theorem trace_concat (pre : List Call) (call : Call) : trace R host L (pre ++ [call]) =
    trace R host L pre ++ [stepOf R host (final R host L pre) call] :=
  trace_append pre [call]

theorem exists_of_mem_trace {s : Step} (h : s ∈ trace R host L calls) :
    ∃ pre call, pre ++ [call] <+: calls ∧ s = stepOf R host (final R host L pre) call := by
  induction calls using List.reverseRecOn with
  | nil => cases h
  | append_singleton calls call ih =>
    rw [trace_concat, mem_append, mem_singleton] at h
    rcases h with h | h
    · obtain ⟨pre, c, hpre, hs⟩ := ih h
      exact ⟨pre, c, hpre.trans (prefix_append _ _), hs⟩
    · exact ⟨calls, call, prefix_rfl, h⟩

/-! ## What was spent -/

/-- The amount that a step recorded in a unit. -/
def Step.amount (R : RustDecimal) (unit : Text) (s : Step) : ℚ :=
  match s.result, readOrder R s.call.args with
  | .ok _, .ok o => if unit = o.unit then o.amount.value else 0
  | _, _ => 0

/-- The sum of the amounts recorded in a unit. -/
def spentOn (R : RustDecimal) (unit : Text) (steps : List Step) : ℚ :=
  (steps.map (Step.amount R unit)).sum

/-- The sum of the amounts recorded in a unit for an identity. -/
def spentBy (R : RustDecimal) (who unit : Text) (steps : List Step) : ℚ :=
  spentOn R unit (steps.filter fun s => s.call.identity = some who)

/-- The totals are the sums of what was recorded. -/
structure Exact (R : RustDecimal) (steps : List Step) (L : Ledger) : Prop where
  total : ∀ unit, (L.total unit).value = spentOn R unit steps
  identityTotal : ∀ who unit, (L.identityTotal who unit).value = spentBy R who unit steps

theorem spentOn_concat (unit : Text) (steps : List Step) (s : Step) :
    spentOn R unit (steps ++ [s]) = spentOn R unit steps + s.amount R unit := by
  simp [spentOn]

theorem spentBy_concat (who unit : Text) (steps : List Step) (s : Step) :
    spentBy R who unit (steps ++ [s]) = spentBy R who unit steps +
      if s.call.identity = some who then s.amount R unit else 0 := by
  unfold spentBy
  rw [filter_append]
  split
  next h => simp [spentOn_concat, h]
  next h => simp [h]

theorem amount_of_error (h : (spend R host call L).1 = .error e) (unit : Text) :
    (stepOf R host L call).amount R unit = 0 := by
  simp [Step.amount, stepOf, h]

theorem Recorded.amount_eq (h : Recorded R host call L o newTotal id) (unit : Text) :
    (stepOf R host L call).amount R unit = if unit = o.unit then o.amount.value else 0 := by
  simp [Step.amount, stepOf, h.spend_eq, h.order]

/-! ## Exact totals -/

/-- The decimals can hold the sums of a call: of the total of the unit and the amount, and of
the total of the identity and the amount. -/
structure SumsFit (L : Ledger) (call : Call) (o : Order) : Prop where
  total : Representable ((L.total o.unit).value + o.amount.value)
  identityTotal : ∀ who, call.identity = some who →
    Representable ((L.identityTotal who o.unit).value + o.amount.value)

/-- If the call of the step passes every check, then the decimals can hold its sums. -/
def Step.Fits (R : RustDecimal) (host : Host) (s : Step) : Prop :=
  ∀ o newTotal id, Recorded R host s.call s.before o newTotal id → SumsFit s.before s.call o

theorem Exact.step (hR : R.Lawful) (h : Exact R steps L)
    (hfits : (stepOf R host L call).Fits R host) :
    Exact R (steps ++ [stepOf R host L call]) (stepOf R host L call).after := by
  rcases spend_cases R host call L with ⟨e, L', heq, htot, hid⟩ | ⟨o, newTotal, id, hrec, heq⟩
  · -- the call failed: the totals and the sums are as before
    have hafter : (stepOf R host L call).after = L' := by simp [stepOf, heq]
    have hamount := fun unit => amount_of_error (congrArg Prod.fst heq) unit
    constructor
    · intro unit
      rw [spentOn_concat, hamount, add_zero, hafter, Ledger.total, htot]
      exact h.total unit
    · intro who unit
      rw [spentBy_concat, hamount, ite_self, add_zero, hafter, Ledger.identityTotal, hid]
      exact h.identityTotal who unit
  · have hafter : (stepOf R host L call).after = L.after R call o newTotal id := by
      simp [stepOf, heq]
    have hfit : SumsFit L call o := hfits o newTotal id hrec
    have hsum : newTotal.value = (L.total o.unit).value + o.amount.value := by
      obtain ⟨c, hc, hval⟩ := hR.checkedAdd_exact _ _ hfit.total
      rw [hrec.total] at hc
      cases hc
      exact hval
    constructor
    · intro unit
      rw [spentOn_concat, hrec.amount_eq, hafter, total_after, ← h.total]
      split
      next hu => rw [hsum, hu]
      next => rw [add_zero]
    · intro who unit
      rw [spentBy_concat, hrec.amount_eq, hafter, ← h.identityTotal]
      rcases identitySum_cases hrec.identity with ⟨hnone, rfl⟩ | ⟨who', t, hsome, rfl, ht⟩
      · rw [identityTotal_after_none]
        simp [stepOf, hnone]
      · have hidsum : t.value = (L.identityTotal who' o.unit).value + o.amount.value := by
          obtain ⟨c, hc, hval⟩ := hR.checkedAdd_exact _ _ (hfit.identityTotal who' hsome)
          rw [ht] at hc
          cases hc
          exact hval
        rw [identityTotal_after_some]
        show _ = _ + if call.identity = some who then _ else 0
        rw [hsome]
        by_cases hw : who = who'
        · subst hw
          by_cases hu : unit = o.unit
          · subst hu
            simp [hidsum]
          · simp [hu]
        · simp [hw, Ne.symm hw]

theorem Exact.fits (h : Exact R steps L)
    (h' : Exact R (steps ++ [stepOf R host L call]) (stepOf R host L call).after) :
    (stepOf R host L call).Fits R host := by
  intro o newTotal id hrec
  have hrec' : Recorded R host call L o newTotal id := hrec
  have hafter : (stepOf R host L call).after = L.after R call o newTotal id := by
    simp [stepOf, hrec'.spend_eq]
  rw [hafter] at h'
  constructor
  · have htotal := h'.total o.unit
    rw [spentOn_concat, hrec'.amount_eq, total_after, if_pos rfl, if_pos rfl, ← h.total] at htotal
    exact ⟨newTotal, htotal⟩
  · intro who hwho
    have hid := h'.identityTotal who o.unit
    rw [spentBy_concat, hrec'.amount_eq, ← h.identityTotal, if_pos rfl, if_pos hwho] at hid
    exact ⟨_, hid⟩

theorem exact_empty : Exact R [] Ledger.empty := by
  constructor <;> intros <;> exact Dec.value_zero

/-! ## The law of the ledger -/

/-- What the ledger is to keep in a run that starts with the process: after every call the
totals are the sums of what was recorded, a call that fails leaves both totals, and a total
is within the host's ceiling for its unit. -/
structure LedgerLaw (R : RustDecimal) (host : Host) (calls : List Call) : Prop where
  exact : ∀ pre, pre <+: calls →
    Exact R (trace R host .empty pre) (final R host .empty pre)
  atomic : ∀ s ∈ trace R host .empty calls, ∀ e, s.result = .error e →
    s.before.SameTotals s.after
  ceiling : ∀ pre, pre <+: calls → ∀ unit c, host.spendCeilings R unit = some c →
    ((final R host .empty pre).total unit).value ≤ c.value

theorem spend_error (h : (spend R host call L).1 = .error e) :
    L.SameTotals (spend R host call L).2 := by
  rcases spend_cases R host call L with ⟨e', L', heq, hL⟩ | ⟨o, newTotal, id, -, heq⟩
  · rw [heq]
    exact hL
  · rw [heq] at h
    cases h

theorem spend_ceiling (hc : host.spendCeilings R unit = some c) (h : (L.total unit).value ≤ c.value)
    : ((spend R host call L).2.total unit).value ≤ c.value := by
  rcases spend_cases R host call L with ⟨e, L', heq, htot, -⟩ | ⟨o, newTotal, id, hrec, heq⟩
  · rw [heq, Ledger.total, htot]
    exact h
  · rw [heq, total_after]
    split
    next hu => exact hrec.ceilings.ofUnit c (hu ▸ hc)
    next => exact h

theorem final_ceiling (hc : host.spendCeilings R unit = some c) (h : (L.total unit).value ≤ c.value)
    (calls : List Call) : ((final R host L calls).total unit).value ≤ c.value := by
  induction calls using List.reverseRecOn with
  | nil => exact h
  | append_singleton calls call ih =>
    rw [final_concat]
    exact spend_ceiling hc ih

theorem exact_of_fits (hR : R.Lawful) (h : ∀ s ∈ trace R host .empty calls, s.Fits R host) :
    Exact R (trace R host .empty calls) (final R host .empty calls) := by
  induction calls using List.reverseRecOn with
  | nil => exact exact_empty
  | append_singleton calls call ih =>
    rw [trace_concat] at h ⊢
    rw [final_concat]
    apply Exact.step hR
    · exact ih fun s hs => h s (mem_append_left _ hs)
    · exact h _ (mem_append_right _ (mem_singleton.mpr rfl))

/-- **The ledger keeps its law exactly in the runs where the decimals can hold the sums** of
every call that passes the checks. -/
theorem ledgerLaw_iff (hR : R.Lawful) (host : Host) (calls : List Call) :
    LedgerLaw R host calls ↔ ∀ s ∈ trace R host .empty calls, s.Fits R host := by
  constructor
  · intro hlaw s hs
    obtain ⟨pre, call, hpre, rfl⟩ := exists_of_mem_trace hs
    have hbefore := hlaw.exact pre ((prefix_append _ _).trans hpre)
    have hafter := hlaw.exact (pre ++ [call]) hpre
    rw [trace_concat, final_concat] at hafter
    exact hbefore.fits hafter
  · intro hfits
    constructor
    · rintro pre ⟨post, rfl⟩
      apply exact_of_fits hR
      intro s hs
      rw [trace_append] at hfits
      exact hfits s (mem_append_left _ hs)
    · intro s hs e he
      obtain ⟨pre, call, -, rfl⟩ := exists_of_mem_trace hs
      exact spend_error he
    · intro pre _ unit c hc
      apply final_ceiling hc
      show Dec.zero.value ≤ c.value
      rw [Dec.value_zero]
      exact (spendCeilings_pos hc).le

/-! ## A sum that is rounded -/

/-- A program that may spend, in a run with no identity. -/
def demoCall (amount : Number) : Call where
  args := [.number amount, .text "EUR", .text "hosting"]
  rt := CapabilitySet.bareRuntime
  caps := { CapabilitySet.empty "main" with granted := [{ ty := .spend, scope := none }] }
  parents := []
  requestIdentity := none
  currentAgent := none
  requestSpendLimits := []
  auditWrite := .ok ()

/-- A host that allows 500 EUR. -/
def demoHost : Host :=
  { spendCeiling := some "EUR:500".toList, spendCeilingPerIdentity := none }

/-- The smallest decimal above zero. -/
def tiny : Dec := { mantissa := 1, scale := 28, mantissa_lt := Dec.natAbs_one_lt, scale_le := by decide }

/-- Nine EUR and then the smallest decimal: the ledger keeps 9. -/
theorem not_ledgerLaw : ¬ LedgerLaw Reference.rustDecimal demoHost
    [demoCall (.int 9), demoCall (.decimal tiny)] := by
  intro h
  have htotal := (h.exact _ prefix_rfl).total "EUR"
  exact absurd htotal (by decide +kernel)

def nineEur : Order :=
  { amount := Dec.ofInt64 9, unit := "EUR", reason := "hosting" }

/-- Nine EUR twice: the ledger keeps its law. -/
theorem ledgerLaw_demo :
    LedgerLaw Reference.rustDecimal demoHost [demoCall (.int 9), demoCall (.int 9)] := by
  refine (ledgerLaw_iff Reference.rustDecimal_lawful demoHost _).mpr ?_
  intro s hs
  have hfits : ∀ {L : Ledger} {t : Dec}, L.total "EUR" = t →
      Representable (t.value + nineEur.amount.value) →
      (stepOf Reference.rustDecimal demoHost L (demoCall (.int 9))).Fits
        Reference.rustDecimal demoHost := by
    intro L t hL hsum o newTotal id hrec
    cases hrec.order
    refine ⟨?_, fun who hwho => by cases hwho⟩
    show Representable ((L.total "EUR").value + nineEur.amount.value)
    rwa [hL]
  simp only [trace, List.mem_cons, not_mem_nil, or_false] at hs
  rcases hs with rfl | rfl
  · apply hfits (t := Dec.zero) rfl
    exact ⟨Dec.ofInt64 9, by decide +kernel⟩
  · apply hfits (t := Dec.ofInt64 9) (by decide)
    exact ⟨Dec.ofInt64 18, by decide +kernel⟩

end Synsema.Spend
