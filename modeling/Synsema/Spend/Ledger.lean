import Synsema.Capability.Set
import Synsema.Decimal

/-!
# The spend ledger

The builtin `spend` (`synsema-stdlib/src/spend.rs`): it declares a spend in some unit,
checks it against the capabilities of the program and the ceilings, writes it to the audit
and adds it to the total of the unit and of the identity that asked for it.

The check of the ceilings, the writing and the adding run under one lock, so that the
ledger sees one call after the other whatever runs at the same time.
-/

namespace Synsema.Spend

open Text Capability

/-! ## Ceilings of the host -/

/-- A name, a unit or an identity, with an amount of more than zero. -/
def insertPositive {K : Type} [DecidableEq K] (R : RustDecimal) (m : K → Option Dec)
    (entry : K × Text) : K → Option Dec :=
  match R.fromStrExact entry.2 with
  | some d => if Dec.zero.lt d then Function.update m entry.1 (some d) else m
  | none => m

/-- A text cut at its last `:`, both parts trimmed and not empty. -/
def namedAmount (entry : Text) : Option (Text × Text) :=
  match rsplitOnce ':' entry with
  | some (name, amount) =>
    if (trim name).isEmpty || (trim amount).isEmpty then none else some (trim name, trim amount)
  | none => none

/-- `parse_ceiling_pairs`: the entries `name:amount`, separated by commas.  What has another
form is left out, with a warning. -/
def parseCeilingPairs (raw : Text) : List (Text × Text) :=
  ((split ',' raw).map trim).filterMap namedAmount

/-- The entries `identity=UNIT:amount`, separated by commas. -/
def parseIdentityPairs (raw : Text) : List ((Text × Text) × Text) :=
  ((split ',' raw).map trim).filterMap fun entry =>
    match splitOnce '=' entry with
    | none => none
    | some (identity, rest) =>
      if (trim identity).isEmpty then none
      else (namedAmount (trim rest)).map fun (unit, amount) => ((trim identity, unit), amount)

/-- The environment variables of the host with the ceilings, when they are set. -/
structure Host where
  /-- `SYNSEMA_SPEND_CEILING`. -/
  spendCeiling : Option Text
  /-- `SYNSEMA_SPEND_CEILING_PER_IDENTITY`. -/
  spendCeilingPerIdentity : Option Text

/-- `spend_ceilings`: the ceiling of each unit. -/
def Host.spendCeilings (R : RustDecimal) (host : Host) : Text → Option Dec :=
  (host.spendCeiling.elim [] parseCeilingPairs).foldl (insertPositive R) fun _ => none

/-- `identity_ceilings`: the ceiling of each identity in each unit. -/
def Host.identityCeilings (R : RustDecimal) (host : Host) : Text × Text → Option Dec :=
  (host.spendCeilingPerIdentity.elim [] parseIdentityPairs).foldl (insertPositive R) fun _ => none

/-! ## The ledger -/

/-- An entry of `spend.log`. -/
structure AuditEntry where
  identity : Option Text
  unit : Text
  amount : Text
  reason : Text
  granted : Bool
  ceilingDenied : Bool
deriving DecidableEq

/-- The totals of the process, and what it wrote to the audit. -/
structure Ledger where
  /-- `spend_totals`. -/
  totals : Text → Option Dec
  /-- `identity_totals`. -/
  identityTotals : Text × Text → Option Dec
  log : List AuditEntry

namespace Ledger

/-- The ledger of a process that has just started. -/
def empty : Ledger := { totals := fun _ => none, identityTotals := fun _ => none, log := [] }

/-- `spend_total(unit)`. -/
def total (L : Ledger) (unit : Text) : Dec := (L.totals unit).getD Dec.zero

/-- `spend_total(unit, identity)`. -/
def identityTotal (L : Ledger) (who unit : Text) : Dec :=
  (L.identityTotals (who, unit)).getD Dec.zero

/-- The ledger with new totals of a unit and of an identity. -/
def record (L : Ledger) (unit : Text) (newTotal : Dec) (id : Option (Text × Dec)) : Ledger :=
  { L with
    identityTotals := id.elim L.identityTotals fun (who, t) =>
      Function.update L.identityTotals (who, unit) (some t)
    totals := Function.update L.totals unit (some newTotal) }

/-- Do two ledgers have the same totals? -/
def SameTotals (L L' : Ledger) : Prop :=
  L'.totals = L.totals ∧ L'.identityTotals = L.identityTotals

end Ledger

/-! ## Errors -/

/-- `RuntimeError`, with the marks that a spend may set. -/
structure RuntimeError where
  message : Text
  deniedByToken : Bool := false
  labelCut : Bool := false
deriving DecidableEq

/-- The error of a message. -/
def err (message : Text) : RuntimeError := { message }

def auditedInPrivateBranch (op : Text) : Text :=
  "label_violation: " ++ op ++ " writes the audit log, and here it runs in a branch decided by a private value — whether the entry exists would tell which way the branch went; decide with a public value, or declassify(<the condition>, \"<why it may be published>\") it first"

/-- `denial_message`, of a delegated ceiling. -/
def delegatedMessage (requested : Capability) (d : Delegation) : Text :=
  "Capability not granted: " ++ requested.display ++
    match d.source, d.deterministic && requested.ty.isProcessLocal with
    | .token id, true => " — denied by the deterministic caveat of token " ++ id ++ ": the caller asked for a run without clock or entropy. The program cannot fix this; the caller must mint a token without that caveat"
    | .token id, false => " — denied by the delegated ceiling of token " ++ id ++ ": the program declares it, but the caller's token does not grant it. The program cannot fix this; the caller must present a token that carries it"
    | .block, _ => " — outside the ceiling of the enclosing `sandbox under` block; add it to that block's caps or run this outside the block"
    | .caller, _ => " — outside what the program that started this one with run_program could do; that program has to be able to do it first"

def spendCapDenied (m : Machine) (unit : Text) : DenyCause → RuntimeError
  | .delegated d =>
    { message := delegatedMessage (Capability.new m.toPlatform .spend (some unit)) d
      deniedByToken := match d.source with
        | .token _ => true
        | _ => false }
  | .aboveCeiling => err ("Capability not granted: spend(\"" ++ unit ++ "\") — declared but above the host ceiling (--sandbox/--cap-set). The program cannot fix this; the host must widen the ceiling")
  | _ => err ("Capability not granted: spend(\"" ++ unit ++ "\") — add `require spend(\"" ++ unit ++ "\")` (spending is deny-by-default and writes a persistent audit entry)")

/-- The error of a sum that is no decimal. -/
def overflow : RuntimeError :=
  err "spend: the accumulated total overflows the decimal range"

/-! ## Arguments -/

/-- An argument of a builtin, as far as `spend` tells them apart. -/
inductive Arg where
  | number (n : Number)
  | text (t : Text)
  /-- Any other value, with its `type_name`. -/
  | other (typeName : Text)

def Arg.typeName : Arg → Text
  | number n => n.typeName
  | text _ => "text"
  | other t => t

def amountToDecimal (R : RustDecimal) (n : Number) : Except Text Dec :=
  match n.toDecimal R with
  | some d => .ok d
  | none =>
    match (R.fromStrExact (n.display R)).or (R.fromScientific (n.display R)) with
    | some d => .ok d
    | none => .error ("spend: the amount " ++ n.display R ++ " cannot be represented as an exact decimal — the ledger keeps up to 28 decimal places (enough for 18-decimal crypto units); for smaller subdivisions spend in the base unit (e.g. wei instead of ether)")

/-- The first argument: a positive number. -/
def readAmount (R : RustDecimal) : Option Arg → Except RuntimeError Dec
  | some (.number n) =>
    if n.isNegative || n.isZero then
      .error (err ("spend: the amount must be a positive number, got " ++ n.display R))
    else (amountToDecimal R n).mapError err
  | some a =>
    .error (err ("spend: the amount must be a positive number, got " ++ a.typeName))
  | none => .error (err "spend: missing argument 1 (amount)")

/-- An argument that must be a text with more than blanks, trimmed. -/
def readText (emptyText wrongType missing : Text) : Option Arg → Except RuntimeError Text
  | some (.text s) => if (trim s).isEmpty then .error (err emptyText) else .ok (trim s)
  | some a => .error (err (wrongType ++ a.typeName))
  | none => .error (err missing)

/-- The second argument. -/
def readUnit : Option Arg → Except RuntimeError Text :=
  readText
    "spend: the unit must be a non-empty text — any unit the host works in \n                         (fiat, crypto, commodities, credits, tokens): \"EUR\", \"ETH\", \"bbl\", \"kWh\""
    "spend: the unit must be text — any unit the host works in (fiat, crypto, \n                         commodities, credits): \"EUR\", \"ETH\", \"bbl\", \"kWh\" — got "
    "spend: missing argument 2 (unit)"

/-- The third argument. -/
def readReason : Option Arg → Except RuntimeError Text :=
  readText
    "spend: the reason must be a non-empty text describing why this spend happens (it goes to the audit log)"
    "spend: the reason must be text, got "
    "spend: missing argument 3 (reason)"

/-- What a call asks for. -/
structure Order where
  amount : Dec
  unit : Text
  reason : Text

/-- The arguments of a call, in the order in which they are checked. -/
def readOrder (R : RustDecimal) (args : List Arg) : Except RuntimeError Order := do
  let amount ← readAmount R args[0]?
  let unit ← readUnit args[1]?
  let reason ← readReason args[2]?
  pure { amount, unit, reason }

/-! ## A call -/

/-- A call of `spend`, with what it reads besides the ledger. -/
structure Call where
  args : List Arg
  /-- The capabilities of the caller, and what their check reads. -/
  rt : Runtime
  caps : CapabilitySet
  parents : List CapabilitySet
  requestIdentity : Option Text
  currentAgent : Option Text
  requestSpendLimits : List (Text × Text)
  /-- What writing to `spend.log` gives. -/
  auditWrite : Except Text Unit

namespace Call

/-- Whom the spend is charged to. -/
def identity (call : Call) : Option Text := call.requestIdentity.or call.currentAgent

/-- The limit delegated to the identity for a unit. -/
def delegated (R : RustDecimal) (call : Call) (unit : Text) : Option Dec :=
  (call.requestSpendLimits.find? fun (u, _) => u == unit).bind fun (_, amt) => R.fromStrExact amt

/-- The verdict of the capabilities. -/
def checked (call : Call) (unit : Text) : Except DenyCause Unit :=
  (CapabilitySet.checkInner call.rt (Capability.new call.rt.toPlatform .spend (some unit))
    "spend-builtin" true call.caps call.parents).1

/-- `audited_op_preflight("spend")`. -/
def preflight (call : Call) : Except RuntimeError Unit :=
  if call.rt.pcPrivate then
    .error { message := auditedInPrivateBranch "spend", labelCut := true }
  else .ok ()

/-- `write_spend_audit_for`: nothing is written under a private branch. -/
def writeSpendAudit (R : RustDecimal) (call : Call) (o : Order) (granted ceilingDenied : Bool)
    (L : Ledger) : Except Text Unit × Ledger :=
  if call.rt.pcPrivate then (.error (auditedInPrivateBranch "spend"), L)
  else
    match call.auditWrite with
    | .error e => (.error e, L)
    | .ok () =>
      (.ok (), { L with log := L.log ++ [{
        identity := call.identity, unit := o.unit, amount := R.display o.amount,
        reason := o.reason, granted, ceilingDenied }] })

end Call

/-! ## Ceilings of a call -/

/-- A ceiling that the new totals are above. -/
structure Breach where
  spent : Dec
  ceiling : Dec
  which : Text

/-- The breach of a ceiling, if there is one and the total is above it. -/
def Breach.of (spent : Dec) (which : Text) (ceiling : Option Dec) (total : Dec) : Option Breach :=
  (ceiling.filter fun c => c.lt total).map fun c => { spent, ceiling := c, which }

/-- The first ceiling that the new totals are above: the host's for the unit, the host's for
the identity, the one delegated to the identity. -/
def breach (R : RustDecimal) (host : Host) (call : Call) (o : Order) (L : Ledger) (newTotal : Dec)
    (id : Option (Text × Dec)) : Option Breach :=
  (Breach.of (L.total o.unit) "the host ceiling for this unit"
    (host.spendCeilings R o.unit) newTotal).or
  (id.bind fun (who, idTotal) =>
    (Breach.of (R.sub idTotal o.amount) "the host ceiling for this identity"
      (host.identityCeilings R (who, o.unit)) idTotal).or
    (Breach.of (R.sub idTotal o.amount)
      "the limit delegated to this identity (captoken spend caveat)"
      (call.delegated R o.unit) idTotal))

/-- The error of a breach. -/
def Breach.error (R : RustDecimal) (call : Call) (o : Order) (b : Breach) : RuntimeError :=
  err ("spend ceiling exceeded for \"".toList ++ o.unit ++ "\": spent ".toList ++
    R.display b.spent ++ " + " ++ R.display o.amount ++ " > " ++
    R.display b.ceiling ++ " (" ++ b.which ++
    call.identity.elim [] (fun who => ", identity \"".toList ++ who ++ "\"".toList) ++
    "). Do not proceed with the external payment call.")

/-- The error of an audit that cannot be written. -/
def auditFailed (unit e : Text) : RuntimeError :=
  err ("spend(\"" ++ unit ++ "\") failed: cannot write the audit log (" ++ e ++
    "). Refusing to record a spend without an audit trail.")

/-! ## Spending -/

/-- The last steps of a call, with its new totals: the ceilings, the audit, the totals. -/
def settle (R : RustDecimal) (host : Host) (call : Call) (o : Order) (L : Ledger) (newTotal : Dec)
    (id : Option (Text × Dec)) : Except RuntimeError Dec × Ledger :=
  match breach R host call o L newTotal id with
  | some b => (.error (b.error R call o), (call.writeSpendAudit R o false true L).2)
  | none =>
    match call.writeSpendAudit R o true false L with
    | (.error e, L') => (.error (auditFailed o.unit e), L')
    | (.ok (), L') => (.ok newTotal, L'.record o.unit newTotal id)

/-- The new total of the identity, if there is one; none when the sum is no decimal. -/
def Call.identitySum (R : RustDecimal) (call : Call) (o : Order) (L : Ledger) :
    Option (Option (Text × Dec)) :=
  match call.identity with
  | none => some none
  | some who =>
    (R.checkedAdd (L.identityTotal who o.unit) o.amount).map fun t => some (who, t)

/-- The new totals of a call. -/
def charge (R : RustDecimal) (host : Host) (call : Call) (o : Order) (L : Ledger) :
    Except RuntimeError Dec × Ledger :=
  match R.checkedAdd (L.total o.unit) o.amount, call.identitySum R o L with
  | some newTotal, some id => settle R host call o L newTotal id
  | _, _ => (.error overflow, L)

/-- The builtin `spend`. -/
def spend (R : RustDecimal) (host : Host) (call : Call) (L : Ledger) :
    Except RuntimeError Dec × Ledger :=
  match readOrder R call.args with
  | .error e => (.error e, L)
  | .ok o =>
    match call.preflight with
    | .error e => (.error e, L)
    | .ok () =>
      match call.checked o.unit with
      | .error cause =>
        (.error (spendCapDenied call.rt.toMachine o.unit cause),
          (call.writeSpendAudit R o false false L).2)
      | .ok () => charge R host call o L

end Synsema.Spend
