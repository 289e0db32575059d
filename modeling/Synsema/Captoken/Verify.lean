import Synsema.Capability.Model
import Synsema.Captoken.Token
import Synsema.Decimal

/-!
# Verification of tokens

`verify_inner` accepts a token whose signature is that of its chain, whose blocks narrow one
another and whose caveats hold, and gives a map of what it says; `captoken_allows` asks that
map about one operation (`synsema-stdlib/src/captoken.rs`).
-/

namespace Synsema.Captoken

open Text Net Capability

/-- What the code reads besides its arguments. -/
structure Env where
  machine : Machine
  /-- HMAC-SHA-256. -/
  hmac : Bytes → Bytes → Bytes
  decimal : RustDecimal
  /-- A text as `{:?}` shows it. -/
  debug : Text → Text

/-! ## Narrowing -/

/-- `names_private_literal`: does the scope write an address that is not public? -/
def namesPrivateLiteral (scope : Text) : Bool :=
  let host := trimEndMatches (· == ']') ((splitNetScope scope).1.dropWhile (· == '['))
  if toAsciiLowercase host == "localhost" then true
  else
    let addr := (splitOnce '/' host).elim host Prod.fst
    (parseIp addr).any fun ip => !isPublicIp ip

def toCapability (env : Env) (who name : Text) (scope : Option Text) : Except Text Capability :=
  match capabilityTypeFromName name with
  | some ty => .ok (Capability.new env.machine.toPlatform ty scope)
  | none => .error (who ++ ": unknown capability " ++ env.debug name ++ " — use the same names as `require` (net, file, file.read, file.write, exec, env, time, random, stdout, stdin, llm, db, serve, secret, reveal, sign, wallet, spend, memory)")

/-- Does one of the scopes of the parent cover the capability?  A wildcard reaches no private
address. -/
def parentScopeCovers (env : Env) (who name : Text) (want : Capability) (priv : Bool)
    (ps : Text) : Except Text Bool :=
  if priv && containsAny ['*', '?'] (splitNetScope ps).1 then .ok false
  else (toCapability env who name (some ps)).map fun g => g.covers env.machine want

/-- Is a scope of the child covered by the entry of the parent? -/
def scopeCovered (env : Env) (who name : Text) (parentScopes : List Text) (s : Text) :
    Except Text Bool := do
  let want ← toCapability env who name (some s)
  let priv := want.ty == .net && namesPrivateLiteral s
  if parentScopes.isEmpty then return !priv
  else parentScopes.anyM (parentScopeCovers env who name want priv)

/-- Is an entry of the child covered by the parent? -/
def entryCovered (env : Env) (who : Text) (parent : Caps) (entry : Text × List Text) :
    Except Text Bool :=
  match parent.find? fun p => p.1 == entry.1 with
  | none => .ok false
  | some (_, parentScopes) =>
    if entry.2.isEmpty then .ok parentScopes.isEmpty
    else entry.2.allM (scopeCovered env who entry.1 parentScopes)

def capsCover (env : Env) (who : Text) (parent child : Caps) : Except Text Bool :=
  child.allM (entryCovered env who parent)

/-- A value that is set in the parent is set in the child, within `ok`. -/
def narrowed {α : Type} (ok : α → α → Bool) (parent child : Option α) : Bool :=
  parent.all fun p => child.any fun c => ok c p

/-- Is a limit of the child within one of the parent? -/
def limitNarrowed (R : RustDecimal) (parent : List (Text × Text)) (limit : Text × Text) : Bool :=
  match parent.find? fun p => p.1 == limit.1 with
  | none => false
  | some (_, pamount) =>
    match R.fromStr limit.2, R.fromStr pamount with
    | some c, some p => !p.lt c
    | _, _ => false

def caveatsNarrow (R : RustDecimal) (parent child : Caveats) : Bool :=
  narrowed (· ≤ ·) parent.exp child.exp && (!parent.deterministic || child.deterministic) &&
    narrowed (· ≤ ·) parent.llmTokens child.llmTokens && narrowed (· == ·) parent.aud child.aud &&
    narrowed (· == ·) parent.ip child.ip && narrowed (· == ·) parent.method child.method &&
    child.spend.all (limitNarrowed R parent.spend)

/-! ## The effective caveats -/

/-- `SynMap::insert`: a key that is there keeps its place. -/
def insertEntry {α : Type} (key : Text) (value : α) : List (Text × α) → List (Text × α)
  | [] => [(key, value)]
  | (k, v) :: rest => if k = key then (k, value) :: rest else (k, v) :: insertEntry key value rest

/-- The smaller of two values that may be missing. -/
def minOption {α : Type} (min : α → α → α) (cur : Option α) : Option α → Option α
  | none => cur
  | some n => some (cur.elim n fun c => min c n)

/-- One more limit of a block: it takes the place of a larger one in its unit. -/
def tightenSpend (R : RustDecimal) (spend : List (Text × Text)) (limit : Text × Text) :
    Option (List (Text × Text)) :=
  match R.fromStr limit.2 with
  | none => none
  | some dec =>
    match spend.find? fun p => p.1 == limit.1 with
    | none => some (spend ++ [limit])
    | some (_, cur) =>
      match R.fromStr cur with
      | none => none
      | some curDec => some (if dec.lt curDec then insertEntry limit.1 limit.2 spend else spend)

/-- One more block: the strictest of what it and the blocks before it say. -/
def tighten (R : RustDecimal) (eff : Caveats) (c : Caveats) : Option Caveats :=
  (c.spend.foldlM (tightenSpend R) eff.spend).map fun spend =>
    { exp := minOption min eff.exp c.exp
      aud := c.aud.or eff.aud
      ip := c.ip.or eff.ip
      method := c.method.or eff.method
      spend
      deterministic := eff.deterministic || c.deterministic
      llmTokens := minOption min eff.llmTokens c.llmTokens }

/-- The effective caveats of a chain. -/
def effective (R : RustDecimal) (blocks : List Block) : Option Caveats :=
  blocks.foldlM (fun eff b => tighten R eff b.caveats) .default

/-! ## Verification -/

/-- The map of a verified token. -/
structure Verified where
  id : Text
  /-- The permissions of the last block. -/
  caps : List (Text × List Text)
  /-- The permissions of each block. -/
  chain : List (List (Text × List Text))
  depth : Nat
  caveats : Caveats
deriving DecidableEq

/-- `caps_to_syn`: the permissions as a map, where the last of two entries of one name
stays. -/
def capsToSyn (caps : Caps) : List (Text × List Text) :=
  caps.foldl (fun m (name, scopes) => insertEntry name scopes m) []

/-- A caveat of the context: the verifier has to provide it. -/
def provided (required given : Option Text) : Bool := required.all fun r => given == some r

/-- Does each block narrow the one before it? -/
def chainNarrows (env : Env) (who : Text) (blocks : List Block) : Except Text Bool :=
  (blocks.zip blocks.tail).allM fun (p, c) => do
    if ← capsCover env who p.caps c.caps then
      return caveatsNarrow env.decimal p.caveats c.caveats
    else return false

def verifyInner (env : Env) (tokenText : Text) (key : Bytes) (aud ip method : Option Text)
    (at_ : Int) (revoked : List Text) (who : Text) : Except Text (Option Verified) := do
  match decodeToken tokenText with
  | none => return none
  | some t =>
    if chainSignature env.hmac key t.id t.blocks ≠ t.sig then return none
    else if revoked.contains t.id then return none
    else if !(← chainNarrows env who t.blocks) then return none
    else
      match effective env.decimal t.blocks with
      | none => return none
      | some eff =>
        if eff.exp.any (· < at_) then return none
        else if !(provided eff.aud aud && provided eff.ip ip && provided eff.method method) then
          return none
        else
          return t.blocks.getLast?.map fun last =>
            { id := t.id, caps := capsToSyn last.caps,
              chain := t.blocks.map fun b => capsToSyn b.caps, depth := t.blocks.length,
              caveats := eff }

/-! ## One operation -/

def captokenAllows (env : Env) (verified : Option Verified) (name : Text) (scope : Option Text) :
    Except Text Bool :=
  let who := "captoken_allows".toList
  match verified with
  | none => .ok false
  | some v =>
    if (capabilityTypeFromName name).any (·.isProcessLocal) then
      .error (who ++ ": " ++ env.debug name ++ " is process-local (stdout, stdin, time, random): tokens never carry it — the host ceiling governs it (and the caveat `deterministic` is what turns the clock off)")
    else
      match v.caps.find? fun p => p.1 == name with
      | none => .ok false
      | some (_, scopes) =>
        if scopes.isEmpty then .ok true
        else
          match scope with
          | none => .ok false
          | some s => do
            let want ← toCapability env who name (some s)
            scopes.anyM fun g => do
              return (← toCapability env who name (some g)).covers env.machine want

end Synsema.Captoken
