import Synsema.Net.Addr
import Synsema.Bytesutil

/-!
# The HTTP client

What an outgoing call sends (`synsema-stdlib/src/http.rs`, `http_common.rs` and `secrets.rs`): the
headers and the body of the program as texts and bytes, the parts of the URL, and the bytes of
the request.

The mappings between small and capital letters of all scripts are parameters.
-/

namespace Synsema.Http

open Text Bytesutil

/-! ## Values at the edge -/

/-- A `SynValue`, as the edge of the program looks at it: a text; a number or a bool, with its
text; a secret, with what `Outgoing::admit` answers for the destination; nothing; a list or a map,
with its JSON (a list or a map of secrets may be refused); bytes; any other kind, with its text. -/
inductive EdgeValue where
  | text (t : Text)
  | printed (t : Text)
  | secret (admitted : Except Text Text)
  | nothing
  | json (dumped : Except Text Text)
  | bytes (b : Bytes)
  | other (t : Text)

/-- Why a value does not go out. -/
inductive Unfit where
  /-- It is nothing: "pass a value, or leave it out". -/
  | isNothing (what : Text)
  /-- It must be text, a number, a bool or a secret. -/
  | wrongType (what : Text)
  /-- The secret does not go there. -/
  | refused (message : Text)
  /-- The call itself fails. -/
  | failed (message : Text)
deriving DecidableEq

/-- An answer as one of the calls here. -/
def refusable (r : Except Text Text) : Except Unfit Text := r.mapError Unfit.refused

def edgeText (v : EdgeValue) (what : Text) : Except Unfit Text :=
  match v with
  | .text t | .printed t => .ok t
  | .secret admitted => refusable admitted
  | .nothing => .error (.isNothing what)
  | .json _ | .bytes _ | .other _ => .error (.wrongType what)

/-- `header_pairs_to`: a secret goes through `admit`, which stands in its value. -/
def headerPairsTo (headers : Option (List (Text × EdgeValue))) :
    Except Unfit (Option (List (Text × Text))) :=
  match headers with
  | some m => do
    let pairs ← m.mapM fun p => (edgeText p.2 ("header " ++ p.1)).map (p.1, ·)
    return some pairs
  | none => .ok none

/-- `body_arg_to`: the body, and the content type where the value gives one. -/
def bodyArgTo (v : Option EdgeValue) : Except Unfit (Option Bytes × Option Text) :=
  match v with
  | none | some .nothing => .ok (none, none)
  | some (.text s) => .ok (some (utf8 s), none)
  | some (.bytes b) => .ok (some b, none)
  | some (.secret admitted) => do
    let s ← refusable admitted
    return (some (utf8 s), none)
  | some (.json dumped) => do
    let s ← refusable dumped
    return (some (utf8 s), some "application/json".toList)
  | some (.printed t) | some (.other t) => .ok (some (utf8 t), none)

def withDefaultContentType (headers : Option (List (Text × Text))) (default : Option Text) :
    Option (List (Text × Text)) :=
  match default with
  | none => headers
  | some ct =>
    let h := headers.getD []
    if h.any fun p => eqIgnoreAsciiCase p.1 "content-type" then some h
    else some (h ++ [("Content-Type".toList, ct)])

/-! ## The URL -/

/-- `(c as char).to_digit(16)`. -/
def hexDigit (c : UInt8) : Option Nat := Net.toDigit 16 (Char.ofNat c.toNat)

def percentDecode : Bytes → Bytes
  | 0x25 :: h :: l :: rest =>
    match hexDigit h, hexDigit l with
    | some x, some y => UInt8.ofNat (x * 16 + y) :: percentDecode rest
    | _, _ => 0x25 :: percentDecode (h :: l :: rest)
  | c :: rest => c :: percentDecode rest
  | [] => []

/-- The parts of a URL. -/
structure Url where
  scheme : Text
  host : Text
  port : Nat
  path : Text
  userinfo : Option Bytes
deriving DecidableEq

/-- The path and the query, from what follows the authority. -/
def pathOf (rest : Text) : Text :=
  let path := if rest = [] then ['/'] else rest
  let path := path.takeWhile (· ≠ '#')
  let path := if startsWith ['?'] path then '/' :: path else path
  if path = [] then ['/'] else path

/-- `p.parse::<u16>()`. -/
def parsePort (hostport p : Text) : Except Text Nat :=
  match Net.parseUnsigned 16 p with
  | some n => .ok n
  | none => .error ("invalid port in URL: " ++ hostport)

/-- The host and the port. -/
def parseHostPort (hostport : Text) (defaultPort : Nat) : Except Text (Text × Nat) :=
  match stripPrefix ['['] hostport with
  | some inner =>
    match splitOnce ']' inner with
    | none => .error ("invalid IPv6 host in URL: " ++ hostport)
    | some (h, after) =>
      match stripPrefix [':'] after with
      | some p => do
        let n ← parsePort hostport p
        return (h, n)
      | none => .ok (h, defaultPort)
  | none =>
    match rsplitOnce ':' hostport with
    | some (h, p) => do
      let n ← parsePort hostport p
      return (h, n)
    | none => .ok (hostport, defaultPort)

/-- The port of a scheme. -/
def defaultPort (scheme : Text) : Nat := if scheme = "https" then 443 else 80

/-- Does the authority of a URL end at this character? -/
def endsAuthority (c : Char) : Bool := c == '/' || c == '?' || c == '#'

def parseUrl (lower : Text → Text) (url : Text) : Except Text Url :=
  match splitOnceStr "://" url with
  | none => .error "invalid URL (no scheme)"
  | some (s, rest) => do
    let scheme := lower s
    let authority := before endsAuthority rest
    let path := pathOf (rest.drop authority.length)
    let (userinfo, hostport) := match rsplitOnce '@' authority with
      | some (ui, hp) => (some (percentDecode (utf8 ui)), hp)
      | none => (none, authority)
    let hp ← parseHostPort hostport (defaultPort scheme)
    if hp.1 = [] then
      .error "invalid URL: it has no host (expected scheme://host/…)"
    else return { scheme, host := hp.1, port := hp.2, path, userinfo }

/-! ## The request -/

/-- The `Authorization` of the URL's user, if the program sends none. -/
def withAuth (u : Url) (headers : Option (List (Text × Text))) : Option (List (Text × Text)) :=
  match u.userinfo with
  | some ui =>
    if (headers.getD []).any fun p => eqIgnoreAsciiCase p.1 "authorization".toList then headers
    else some (headers.getD [] ++
      [("Authorization".toList, "Basic ".toList ++ b64Encode ui)])
  | none => headers

/-- The value of `Host`. -/
def hostHeader (u : Url) : Text :=
  let host := if u.host.contains ':' then ['['] ++ u.host ++ [']'] else u.host
  if u.port = defaultPort u.scheme then host else host ++ [':'] ++ digits u.port

/-- The end of a line. -/
def crlf : Text := ['\r', '\n']

/-- A header as a line. -/
def headerLine (p : Text × Text) : Text := p.1 ++ ": " ++ p.2 ++ crlf

/-- Does a request with this method say the length of a body that it does not have? -/
def saysEmpty (method : Text) : Bool :=
  ["POST".toList, "PUT".toList, "PATCH".toList].contains (toAsciiUppercase method)

/-- The header that says how long the body is. -/
def lengthHeader (method : Text) (body : Option Bytes) : List (Text × Text) :=
  match body with
  | some b => [("Content-Length", digits b.length)]
  | none => if saysEmpty method then [("Content-Length", ['0'])] else []

def buildHttpRequest (upper : Text → Text) (method path host : Text)
    (headers : Option (List (Text × Text))) (body : Option Bytes) : Bytes :=
  let req := upper method ++ [' '] ++ path ++ " HTTP/1.1" ++ crlf ++
    "Host: " ++ host ++ crlf ++ "Connection: close" ++ crlf
  let req := req ++ (headers.getD []).flatMap headerLine
  let req := req ++ (lengthHeader method body).flatMap headerLine
  utf8 (req ++ crlf) ++ body.getD []

/-- A check of the server's key. -/
inductive TlsCheck where
  | pin
  | attested
deriving DecidableEq

/-- `connect_and_send`, as far as the bytes that it sends once it is connected: where the name of
the host is not resolved or the connection fails, nothing is sent. -/
def requestBytes (upper lower : Text → Text) (method url : Text)
    (headers : Option (List (Text × Text))) (body : Option Bytes) (tls : Option TlsCheck) :
    Except Text (Url × Bytes) := do
  let u ← parseUrl lower url
  if u.scheme ≠ "http" ∧ u.scheme ≠ "https" then
    .error ("unsupported scheme '" ++ u.scheme ++
      "': only http and https are supported")
  else if u.scheme = "http" ∧ tls = some .pin then
    .error ("tls_pin needs an https:// URL (there is no server key to pin over plain " ++
      "http)").toList
  else if u.scheme = "http" ∧ tls = some .attested then
    .error ("attested needs an https:// URL (there is no server key to check over plain " ++
      "http)").toList
  else
    return (u, buildHttpRequest upper method u.path (hostHeader u) (withAuth u headers) body)

/-- What a call of the program sends, with the URL and the headers that it was made from. -/
def outgoing (upper lower : Text → Text) (method url : Text)
    (headers : Option (List (Text × EdgeValue))) (body : Option EdgeValue)
    (tls : Option TlsCheck) : Except Unfit (Url × Option (List (Text × Text)) × Option Bytes ×
      Bytes) := do
  let b ← bodyArgTo body
  let pairs ← headerPairsTo headers
  let h := withDefaultContentType pairs b.2
  let r ← (requestBytes upper lower method url h b.1 tls).mapError Unfit.failed
  return (r.1, h, b.1, r.2)

end Synsema.Http
