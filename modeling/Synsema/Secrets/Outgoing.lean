import Synsema.Secrets.Inner
import Synsema.Capability.Model
import Synsema.Http.Client

/-!
# The secrets of a request

`Outgoing` (`synsema-stdlib/src/http_common.rs`): the destination of a request, taken from the
public part of its URL, and `admit`, which every secret passes that goes out with it.  Then what
assembles a request: `request_url`, `map_pairs_to`, `header_pairs_to`, `body_arg_to` and
`form_body_to`.

How a value is printed or dumped is a parameter.  The texts that an echo is masked with are left out,
as the response is.
-/

namespace Synsema.Secrets

open Text Capscope Capability Bytesutil

/-! ## The destination -/

def netRequestScope (m : Platform) (url : Text) : Option Text :=
  let (host, port) := urlHostPort m url
  if host.isEmpty then none else some (joinNetScope host port)

def isLoopbackHost (h : Text) : Bool :=
  h == "localhost" || h == "127.0.0.1" || h == "::1"

/-- The schemes a bound secret may travel over. -/
def isSecure (scheme : Text) : Bool := scheme == "https" || scheme == "wss"

/-- The schemes it may travel over to the machine itself. -/
def isPlain (scheme : Text) : Bool := scheme == "http" || scheme == "ws"

/-- What a request carries of secrets.  `admitted` is history: the secrets whose text went out, and
whether in a header. -/
structure Outgoing where
  who : Text
  scheme : Text
  dest : Text
  host : Text
  names : List Text
  forbidRedirects : Bool
  bindings : List Text
  admitted : List (SecretInner × Bool)

namespace Outgoing

def forUrl (m : Platform) (publicUrl who : Text) : Outgoing :=
  let dest := (netRequestScope m publicUrl).getD []
  { who
    scheme := (splitOnceStr "://" publicUrl).elim [] fun p => toAsciiLowercase p.1
    dest
    host := (splitHostPort dest).1
    names := []
    forbidRedirects := false
    bindings := []
    admitted := [] }

def carriesSecrets (o : Outgoing) : Bool := !o.names.isEmpty

/-- Where a secret that is not bound may not go, as the error calls it. -/
def place (what : Text) : Text :=
  if startsWith "the URL" what then "URL"
  else if startsWith "query" what then "query"
  else "body"

/-- The error of a secret that the program made, and that is not bound. -/
def madeError (o : Outgoing) (s : SecretInner) (what : Text) : Text :=
  o.who ++ ": " ++ what ++ " is secret(" ++ s.name ++
    "), made by the program (derived or sealed with as_secret), and such a secret only goes in a header: only a secret read with `secret(\"NAME\")` can be bound to a host (`require secret(\"NAME\") for net(\"host\")`). If the API needs it in the " ++
    place what ++ ", keep the final value in the config and read it with `secret(\"NAME\")`"

/-- The error of a secret that is not bound. -/
def unboundError (o : Outgoing) (s : SecretInner) (what : Text) : Text :=
  o.who ++ ": " ++ what ++ " is secret(" ++ s.name ++
    "), and an unbound secret only goes in a header. If the API takes it in the " ++
    place what ++ ", bind it to the host it goes to: `require secret(\"" ++ s.name ++
    "\") for net(\"".toList ++ (if o.dest.isEmpty then "<the host>".toList else o.dest) ++
    "\")`"

/-- The error of a secret that is bound to other hosts. -/
def elsewhereError (o : Outgoing) (s : SecretInner) (b : List Text) : Text :=
  o.who ++ ": secret(" ++ s.name ++ ") is bound to [" ++ join ", " b ++
    "]; this request goes to " ++
    (if o.dest.isEmpty then "<no host>".toList else o.dest) ++
    " — it never goes to another host, not even in a header"

/-- The error of a secret that would travel in the clear. -/
def insecureError (o : Outgoing) (s : SecretInner) : Text :=
  o.who ++ ": secret(" ++ s.name ++ ") only travels over https; this request to " ++
    o.host ++ " is " ++ o.scheme ++ "://"

/-- Does the request go where a secret with these hosts may go? -/
def goesTo (o : Outgoing) (b : List Text) : Bool :=
  !o.dest.isEmpty && b.any fun p => boundHostCovers p o.dest

/-- Is the request one that a bound secret may travel with? -/
def safe (o : Outgoing) : Bool := isSecure o.scheme || (isPlain o.scheme && isLoopbackHost o.host)

/-- What `admit` checks of a secret. -/
def check (o : Outgoing) (s : SecretInner) (what : Text) (inHeader : Bool) : Except Text Unit :=
  match s.bound with
  | none =>
    if inHeader then .ok ()
    else if s.fromConfig then .error (o.unboundError s what)
    else .error (o.madeError s what)
  | some b =>
    if !o.goesTo b then .error (o.elsewhereError s b)
    else if !o.safe then .error (o.insecureError s)
    else .ok ()

/-- `admit`, the text of a secret that goes out. -/
def admitSecret (ρ : Material) (o : Outgoing) (s : SecretInner) (what : Text) (inHeader : Bool) :
    Except Text (Text × Outgoing) := do
  o.check s what inHeader
  let text ← secretText ρ s o.who what
  return (text, { o with
    bindings := pushNew o.bindings (s.bound.getD [])
    forbidRedirects := true
    names := pushNew o.names s.names
    admitted := o.admitted ++ [(s, inHeader)] })

end Outgoing

/-! ## Values -/

/-- A value of the program.  A number is with its text, and a value of another kind with the name of
its type and its text, where a secret is its name alone. -/
inductive Val where
  | nothing
  | text (t : Text)
  | number (t : Text)
  | bool (b : Bool)
  | bytes (b : Bytes)
  | list (xs : List Val)
  | map (kvs : List (Text × Val))
  | secret (s : SecretInner)
  /-- A value with principals. -/
  | labelled (v : Val)
  | other (typeName t : Text)

/-- How texts are written: the mapping of letters, `{:?}`, `Display` and JSON. -/
structure Writing extends Platform where
  debug : Text → Text
  display : Val → Text
  dumpsSyn : Val → Text

mutual

/-- `contains_secret`: is there a secret in a value? -/
def containsSecret : Val → Bool
  | .secret _ => true
  | .list xs => anySecret xs
  | .map kvs => anySecretIn kvs
  | .labelled v => containsSecret v
  | .nothing | .text _ | .number _ | .bool _ | .bytes _ | .other _ _ => false

def anySecret : List Val → Bool
  | [] => false
  | x :: xs => containsSecret x || anySecret xs

def anySecretIn : List (Text × Val) → Bool
  | [] => false
  | (_, x) :: kvs => containsSecret x || anySecretIn kvs

end

namespace Val

def typeName : Val → Text
  | nothing => "nothing"
  | text _ => "text"
  | number _ => "number"
  | bool _ => "bool"
  | bytes _ => "bytes"
  | list _ => "list"
  | map _ => "map"
  | secret _ => "secret"
  | labelled _ => "private"
  | other n _ => n

def rawStr (w : Writing) : Val → Text
  | text t => t
  | number t => t
  | bool b => if b then "True" else "False"
  | nothing => "None"
  | v => w.display v

/-- `edge_text`, for a value that is no secret. -/
def edgeText (w : Writing) (who what : Text) : Val → Except Text Text
  | text t => .ok t
  | number t => .ok t
  | bool b => .ok (w.display (bool b))
  | nothing => .error (who ++ ": " ++ what ++
      " is nothing; pass a value (a missing env var or map key?), or leave it out")
  | v => .error (who ++ ": " ++ what ++
      " must be text, a number, a bool or a secret, got " ++ v.typeName)

end Val

/-! ## Assembling -/

section Assembling

variable (w : Writing) (ρ : Material)

/-- Are the scheme and the authority written before the secret? -/
def isClosed (pre : Text) : Bool :=
  match splitOnceStr "://" pre with
  | some (_, rest) => !rest.isEmpty && rest.any Http.endsAuthority
  | none => false

/-- The public URL of a secret. -/
def publicUrl (s : SecretInner) : Text :=
  let pre := s.publicPrefix.getD []
  if isClosed pre then pre ++ "…" else []

/-- `request_url`: the public URL, the URL itself, and what the request carries. -/
def requestUrl (v : Val) (who : Text) : Except Text (Text × Text × Outgoing) :=
  match v with
  | .secret s =>
    if s.bound.isSome && !isClosed (s.publicPrefix.getD []) then
      .error (who ++ ": the URL is secret(" ++ s.name ++
        ") and its host is not written out before the secret; write the scheme and host first (`https://host/…\x7bkey\x7d`): the host of a request never comes from a secret")
    else do
      let (real, out) ← (Outgoing.forUrl w.toPlatform (publicUrl s) who).admitSecret ρ s
        "the URL" false
      return (publicUrl s, real, out)
  | v => .ok (v.rawStr w, v.rawStr w, Outgoing.forUrl w.toPlatform (v.rawStr w) who)

mutual

def materializeBody : Val → Outgoing → Except Text (Val × Outgoing)
  | .secret s, o => do
    let (t, o) ← o.admitSecret ρ s "the body" false
    return (.text t, o)
  | .list xs, o =>
    if anySecret xs then do
      let (ys, o) ← materializeList xs o
      return (.list ys, o)
    else .ok (.list xs, o)
  | .map kvs, o =>
    if anySecretIn kvs then do
      let (ys, o) ← materializeMap kvs o
      return (.map ys, o)
    else .ok (.map kvs, o)
  | .nothing, o => .ok (.nothing, o)
  | .text t, o => .ok (.text t, o)
  | .number t, o => .ok (.number t, o)
  | .bool b, o => .ok (.bool b, o)
  | .bytes b, o => .ok (.bytes b, o)
  | .labelled v, o => .ok (.labelled v, o)
  | .other n t, o => .ok (.other n t, o)

def materializeList : List Val → Outgoing → Except Text (List Val × Outgoing)
  | [], o => .ok ([], o)
  | x :: xs, o => do
    let (y, o) ← materializeBody x o
    let (ys, o) ← materializeList xs o
    return (y :: ys, o)

def materializeMap : List (Text × Val) → Outgoing → Except Text (List (Text × Val) × Outgoing)
  | [], o => .ok ([], o)
  | (k, x) :: kvs, o => do
    let (y, o) ← materializeBody x o
    let (ys, o) ← materializeMap kvs o
    return ((k, y) :: ys, o)

end

/-- The value of a field that goes out as text: a secret is admitted. -/
def fieldText (what : Text) (inHeader : Bool) (v : Val) (o : Outgoing) :
    Except Text (Text × Outgoing) :=
  match v with
  | .secret s => o.admitSecret ρ s what inHeader
  | v => do
    let t ← v.edgeText w o.who what
    return (t, o)

/-- The pairs of a map whose values go out as text. -/
def fieldPairs (kind : Text) (inHeader : Bool) : List (Text × Val) → Outgoing →
    Except Text (List (Text × Text) × Outgoing)
  | [], o => .ok ([], o)
  | (k, v) :: kvs, o => do
    let (t, o) ← fieldText w ρ (kind ++ w.debug k) inHeader v o
    let (pairs, o) ← fieldPairs kind inHeader kvs o
    return ((k, t) :: pairs, o)

/-- `map_pairs_to` and `header_pairs_to`: anything but a map is left out. -/
def pairsTo (kind : Text) (inHeader : Bool) (v : Option Val) (o : Outgoing) :
    Except Text (Option (List (Text × Text)) × Outgoing) :=
  match v with
  | some (.map kvs) => do
    let (pairs, o) ← fieldPairs w ρ kind inHeader kvs o
    return (some pairs, o)
  | _ => .ok (none, o)

def mapPairsTo := pairsTo w ρ "query parameter " false

def headerPairsTo := pairsTo w ρ "header " true

/-- `body_arg_to`: the body, and its content type where it has one of its own. -/
def bodyArgTo (v : Option Val) (o : Outgoing) :
    Except Text ((Option Bytes × Option Text) × Outgoing) :=
  match v with
  | none | some .nothing => .ok ((none, none), o)
  | some (.text t) => .ok ((some (utf8 t), none), o)
  | some (.bytes b) => .ok ((some b, none), o)
  | some (.secret s) => do
    let (t, o) ← o.admitSecret ρ s "the body" false
    return ((some (utf8 t), none), o)
  | some (.map kvs) => do
    let (m, o) ← materializeBody ρ (.map kvs) o
    return ((some (utf8 (w.dumpsSyn m)), some "application/json".toList), o)
  | some (.list xs) => do
    let (m, o) ← materializeBody ρ (.list xs) o
    return ((some (utf8 (w.dumpsSyn m)), some "application/json".toList), o)
  | some v => .ok ((some (utf8 (v.rawStr w)), none), o)

/-- `form_urlencode` of a byte. -/
def formByte (b : UInt8) : Text :=
  let c := Char.ofNat b.toNat
  if c.isAlphanum || c == '*' || c == '-' || c == '.' || c == '_' then [c]
  else if c == ' ' then ['+']
  else '%' :: [Nat.digitChar (b.toNat / 16), Nat.digitChar (b.toNat % 16)].map Char.toUpper

def formUrlencode (t : Text) : Text := (utf8 t).flatMap formByte

/-- The fields of a form, encoded. -/
def formText (pairs : List (Text × Text)) : Bytes :=
  utf8 (join "&" (pairs.map fun p => formUrlencode p.1 ++ "=" ++ formUrlencode p.2))

/-- `form_body_to`, for anything but a map. -/
def formError (v : Val) (o : Outgoing) : Text :=
  o.who ++ ": form must be a map of fields, got " ++ v.typeName

def formBodyTo (v : Val) (o : Outgoing) : Except Text (Bytes × Outgoing) :=
  match v with
  | .map kvs => do
    let (pairs, o) ← fieldPairs w ρ "form field " false kvs o
    return (formText pairs, o)
  | v => .error (formError v o)

end Assembling

end Synsema.Secrets
