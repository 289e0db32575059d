import Synsema.Capscope.NetScope
import Synsema.Captoken.Verify
import Synsema.Lib.OrderedMap

/-!
# Minting and attenuating

`captoken_mint` issues a token for the holder of the root key; `captoken_attenuate` appends a
block to a token, without that key (`synsema-stdlib/src/captoken.rs`).  Both read their
permissions and caveats from the maps of a program.
-/

namespace Synsema.Captoken

open Text Bytesutil Capscope Capability

/-! ## Arguments -/

/-- An argument of a builtin, as far as these builtins tell values apart. -/
inductive Arg where
  | nothing
  | bool (b : Bool)
  | number (n : Number)
  | text (t : Text)
  | list (items : List Arg)
  /-- A map, of the entries inserted one after the other. -/
  | map (entries : List (Text × Arg))
  | secret (b : Bytes)
  | bytes (b : Bytes)
  /-- Any other value, with the name of its type. -/
  | other (typeName : Text)

def Arg.typeName : Arg → Text
  | nothing => "nothing"
  | bool _ => "bool"
  | number n => n.typeName
  | text _ => "text"
  | list _ => "list"
  | map _ => "map"
  | secret _ => "secret"
  | bytes _ => "bytes"
  | other t => t

/-- What the builtins read besides their arguments. -/
structure Issuer extends Env where
  /-- `SynValue::to_string`. -/
  display : Arg → Text
  /-- `Number::to_i64_trunc`. -/
  toI64Trunc : Number → Option Int64
  /-- Does `from_str` keep the sign of the zero it reads in the text? -/
  negativeZero : Text → Bool

/-- An error of a builtin. -/
def failWith {α : Type} (who : Text) (message : Text) : Except Text α :=
  .error (who ++ ": " ++ message)

def keyMaterial (who : Text) : Arg → Except Text Bytes
  | .secret b => .ok b
  | .text t => .ok (utf8 t)
  | .bytes b => .ok b
  | a => failWith who ("the root key must be a secret, text or bytes, got " ++ a.typeName)

def asMap (who what : Text) : Arg → Except Text (OrderedMap Text Arg)
  | .map entries => .ok (.ofList entries)
  | a => failWith who (what ++ " must be a map, got " ++ a.typeName)

/-- The options, when they are given. -/
def readOpts (who : Text) : Option Arg → Except Text (OrderedMap Text Arg)
  | none => .ok .empty
  | some .nothing => .ok .empty
  | some a => asMap who "opts" a

/-! ## Permissions -/

/-- One of the scopes in a list. -/
def parseScope (env : Env) (who name : Text) : Arg → Except Text Text
  | .text s => .ok s
  | a => failWith who ("the scopes of " ++ env.debug name ++ " must be text, got " ++ a.typeName)

/-- The scopes of a permission: `nothing`, a text or a list of texts. -/
def parseScopes (env : Env) (who name : Text) : Arg → Except Text (List Text)
  | .nothing => .ok []
  | .text s => .ok [s]
  | .list items => items.mapM (parseScope env who name)
  | a => failWith who ("the scope of " ++ env.debug name ++ " must be text, a list of text, or nothing (no scope), got " ++ a.typeName)

/-- An entry of the permissions. -/
def parseCap (env : Env) (who : Text) (entry : Text × Arg) : Except Text (Text × List Text) := do
  let cap ← toCapability env who entry.1 none
  if cap.ty.isProcessLocal then
    failWith who (env.debug entry.1 ++ " is process-local (stdout, stdin, time, random): a token cannot delegate it. The host ceiling governs it; to run the holder without clock or entropy use the caveat \x7b\"deterministic\": true\x7d instead")
  else
    let scopes ← parseScopes env who entry.1 entry.2
    match if cap.ty == .net then scopes.findSome? (netScopeError env.debug) else none with
    | some e => failWith who e
    | none => return (entry.1, scopes)

/-- `parse_caps`: the permissions, in the order of their names. -/
def parseCaps (env : Env) (who : Text) (m : OrderedMap Text Arg) : Except Text Caps := do
  let out ← m.entries.mapM (parseCap env who)
  return out.insertionSort fun a b => a.1 ≤ b.1

/-! ## Caveats -/

/-- The text of the amount of a limit. -/
def limitText (I : Issuer) (who unit : Text) : Arg → Except Text Text
  | .number n => .ok (n.display I.decimal)
  | .text s => .ok s
  | a => failWith who ("the spend limit of " ++ I.debug unit ++ " must be a number, got " ++ a.typeName)

/-- A limit: its amount is read as a decimal, and shown without trailing zeros. -/
def parseLimit (I : Issuer) (who : Text) (entry : Text × Arg) : Except Text (Text × Text) := do
  let text ← limitText I who entry.1 entry.2
  match I.decimal.fromStr (trim text) with
  | none => failWith who ("the spend limit of " ++ I.debug entry.1 ++ " is not a valid decimal amount: " ++ I.debug text)
  | some d =>
    if d.mantissa < 0 ∨ (d.mantissa = 0 ∧ I.negativeZero (trim text)) then
      failWith who ("the spend limit of " ++ I.debug entry.1 ++ " cannot be negative")
    else return (entry.1, I.decimal.display d.normalize)

/-- What `parse_caveats` has read: the caveats, and what their `exp` is reckoned from. -/
structure CaveatOpts where
  caveats : Caveats
  ttl : Option Int64
  now : Option Int64

/-- One option. -/
def readCaveatOpt (I : Issuer) (who : Text) (o : CaveatOpts) (entry : Text × Arg) :
    Except Text CaveatOpts :=
  let (k, v) := entry
  if k = "ttl" then
    match v with
    | .number n =>
      match I.toI64Trunc n with
      | some t =>
        if 0 < t then .ok { o with ttl := some t }
        else failWith who "ttl must be a positive integer (seconds)"
      | none => failWith who "ttl must be a positive integer (seconds)"
    | a => failWith who ("ttl must be an integer (seconds), got " ++ a.typeName)
  else if k = "aud" then .ok { o with caveats.aud := some (I.display v) }
  else if k = "ip" then .ok { o with caveats.ip := some (I.display v) }
  else if k = "method" then
    .ok { o with caveats.method := some (toAsciiUppercase (I.display v)) }
  else if k = "spend" then do
    let m ← asMap who "the spend caveat" v
    let spend ← m.entries.mapM (parseLimit I who)
    return { o with
      caveats.spend := spend.insertionSort fun a b => a.1 < b.1 ∨ a.1 = b.1 ∧ a.2 ≤ b.2 }
  else if k = "now" then
    match v with
    | .number n =>
      match I.toI64Trunc n with
      | some t => .ok { o with now := some t }
      | none => failWith who "now must be a unix timestamp (integer)"
    | a => failWith who ("now must be a unix timestamp (integer), got " ++ a.typeName)
  else if k = "deterministic" then
    match v with
    | .bool b => .ok { o with caveats.deterministic := b }
    | a => failWith who ("deterministic must be a bool, got " ++ a.typeName)
  else if k = "llm_tokens" then
    match v with
    | .number n =>
      match I.toI64Trunc n with
      | some t =>
        if 0 ≤ t then .ok { o with caveats.llmTokens := some t.toInt.toNat }
        else failWith who "llm_tokens must be a non-negative integer (tokens)"
      | none => failWith who "llm_tokens must be a non-negative integer (tokens)"
    | a => failWith who ("llm_tokens must be an integer (tokens), got " ++ a.typeName)
  else
    failWith who ("unknown caveat " ++ I.debug k ++ " (valid caveats: ttl, aud, ip, method, spend, deterministic, llm_tokens; plus now, the instant ttl is measured from)")

/-- `i64::saturating_add`. -/
def saturatingAdd (a b : Int64) : Int := max (-2 ^ 63) (min (2 ^ 63 - 1) (a.toInt + b.toInt))

/-- `clock_or_error`; there is no clock without the capability `time`. -/
def clockOrError (who opt : Text) : Option Int64 → Except Text Int64
  | some now => .ok now
  | none => failWith who ("this needs the clock. Add `require time` to the program, or pass opts." ++ opt ++ " explicitly (a unix timestamp in seconds) to verify against a clock you choose.")

/-- The instant that a `ttl` is measured from. -/
def startOf (who : Text) (clock now : Option Int64) : Except Text Int64 :=
  match now with
  | some n => .ok n
  | none => clockOrError who "now" clock

def parseCaveats (I : Issuer) (who : Text) (defaultTtl clock : Option Int64)
    (m : OrderedMap Text Arg) : Except Text Caveats := do
  let o ← m.entries.foldlM (readCaveatOpt I who)
    { caveats := .default, ttl := none, now := none }
  match o.ttl.or defaultTtl with
  | none => return o.caveats
  | some t =>
    let base ← startOf who clock o.now
    return { o.caveats with exp := some (saturatingAdd base t) }

/-! ## Minting -/

def defaultTtl : Int64 := 900

/-- The identity of a new token: the one that is given, or a random one. -/
def mintId (who : Text) (random : Option Bytes) (given : Option Text) : Except Text Text :=
  match given with
  | some i => if (trim i).isEmpty then failWith who "id cannot be empty" else .ok i
  | none =>
    match random with
    | some raw => .ok (b64urlEncode raw)
    | none => failWith who "the OS random source is unavailable"

/-- The token of three arguments of `captoken_mint`, the last of which may be missing. -/
def mintWith (I : Issuer) (who : Text) (clock : Option Int64) (random : Option Bytes)
    (capsArg keyArg : Arg) (optsArg : Option Arg) : Except Text Token := do
  let caps ← parseCaps I.toEnv who (← asMap who "caps" capsArg)
  if caps.isEmpty then
    failWith who "caps cannot be empty — a token that grants nothing is a bug, not a restriction"
  else
    let key ← keyMaterial who keyArg
    let opts ← readOpts who optsArg
    let caveats ← parseCaveats I who (some defaultTtl) clock (opts.shiftRemove "id")
    let id ← mintId who random ((opts.get? "id").map I.display)
    let blocks := [{ caps, caveats }]
    return { id, blocks, sig := chainSignature I.hmac key id blocks }

/-- `captoken_mint`, before the token is written as text.  `random` is what the source of
random bytes of the system gives. -/
def mintToken (I : Issuer) (clock : Option Int64) (random : Option Bytes) (args : List Arg) :
    Except Text Token :=
  let who := "captoken_mint".toList
  match args with
  | [capsArg, keyArg] => mintWith I who clock random capsArg keyArg none
  | [capsArg, keyArg, optsArg] => mintWith I who clock random capsArg keyArg (some optsArg)
  | _ => .error (who ++ "(caps, root_key, opts?) takes 2 or 3 arguments")

def captokenMint (I : Issuer) (clock : Option Int64) (random : Option Bytes) (args : List Arg) :
    Except Text Text :=
  (mintToken I clock random args).map encodeToken

/-! ## Attenuating -/

/-- `private_widening`: the first private address of the child that the parent reaches only
by a wildcard. -/
def privateWidening (env : Env) (parent child : Caps) : Option Text :=
  let net (caps : Caps) := (caps.filter fun p => p.1 == "net".toList).map Prod.snd
  let unscoped := (net parent).any List.isEmpty
  let scopes := (net parent).flatten
  let covers (ps s : Text) :=
    (Capability.new env.machine.toPlatform .net (some ps)).covers env.machine
      (Capability.new env.machine.toPlatform .net (some s))
  let wild (ps : Text) := containsAny ['*', '?'] (splitNetScope ps).1
  let named (s : Text) := scopes.any fun ps => !wild ps && covers ps s
  let byWildcard (s : Text) := unscoped || scopes.any fun ps => wild ps && covers ps s
  (net child).flatten.find? fun s => namesPrivateLiteral s && !named s && byWildcard s

/-- The caveats of a new block: what it does not say it has from the block before. -/
def Caveats.inherit (parent c : Caveats) : Caveats where
  exp := c.exp.or parent.exp
  aud := c.aud.or parent.aud
  ip := c.ip.or parent.ip
  method := c.method.or parent.method
  spend := if c.spend.isEmpty then parent.spend else c.spend
  deterministic := parent.deterministic || c.deterministic
  llmTokens := c.llmTokens.or parent.llmTokens

/-- The block that `captoken_attenuate` appends after `parent`. -/
def attenuateBlock (I : Issuer) (who : Text) (clock : Option Int64) (parent : Block)
    (capsArg : Arg) (optsArg : Option Arg) : Except Text Block := do
  let caps ← parseCaps I.toEnv who (← asMap who "caps" capsArg)
  let opts ← readOpts who optsArg
  let caveats := parent.caveats.inherit (← parseCaveats I who none clock opts)
  match privateWidening I.toEnv parent.caps caps with
  | some s => failWith who (I.debug s ++ " is a private address and the token reaches it only where its issuer named it — a wildcard (`*`, or `net` without a scope) reaches only public addresses. The issuer has to mint a token that names it")
  | none =>
    if !(← capsCover I.toEnv who parent.caps caps) then
      failWith who "the new caps are not covered by the token's — attenuation can only narrow. Check the capability names and scopes against the ones the token already carries (captoken_verify shows them)."
    else if !caveatsNarrow I.decimal parent.caveats caveats then
      failWith who "the new caveats are wider than the token's (a longer ttl, a different aud/ip/method, a higher spend or llm_tokens limit, or deterministic turned back off) — attenuation can only narrow"
    else return { caps, caveats }

/-- The text of the token to attenuate. -/
def tokenTextOf (who : Text) : Arg → Except Text Text
  | .text s => .ok s
  | a => failWith who ("the token must be text, got " ++ a.typeName)

/-- The token of three arguments of `captoken_attenuate`, the last of which may be missing. -/
def attenuateWith (I : Issuer) (who : Text) (clock : Option Int64) (tokenArg capsArg : Arg)
    (optsArg : Option Arg) : Except Text Token := do
  let tokenText ← tokenTextOf who tokenArg
  match decodeToken tokenText with
  | none => failWith who "the token is malformed or of an unknown version"
  | some t =>
    if maxDepth ≤ t.blocks.length then
      failWith who ("the delegation chain already has " ++ (toString t.blocks.length).toList ++ " blocks (max " ++ (toString maxDepth).toList ++ ")")
    else
      match t.blocks.getLast? with
      -- a token that was read has a block
      | none => failWith who []
      | some parent =>
        let block ← attenuateBlock I who clock parent capsArg optsArg
        return { t with
          blocks := t.blocks ++ [block]
          sig := I.hmac t.sig (blockBytes t.blocks.length block) }

/-- `captoken_attenuate`, before the token is written as text. -/
def attenuateToken (I : Issuer) (clock : Option Int64) (args : List Arg) : Except Text Token :=
  let who := "captoken_attenuate".toList
  match args with
  | [tokenArg, capsArg] => attenuateWith I who clock tokenArg capsArg none
  | [tokenArg, capsArg, optsArg] => attenuateWith I who clock tokenArg capsArg (some optsArg)
  | _ => .error (who ++ "(token, caps, opts?) takes 2 or 3 arguments — note it does NOT take the root key: attenuating is offline, that is the point")

def captokenAttenuate (I : Issuer) (clock : Option Int64) (args : List Arg) : Except Text Text :=
  (attenuateToken I clock args).map encodeToken

end Synsema.Captoken
