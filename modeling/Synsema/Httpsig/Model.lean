import Mathlib.Algebra.Group.Int.Defs
import Synsema.Base64

/-!
# HTTP message signatures

`http_sign` and `http_signature_verify` (`synsema-stdlib/src/httpsig.rs`): the signature covers
the method, the URL, the digest of the body and its own parameters, joined to one text.

The hash, the codes and the signatures are not part of the repository; they are the fields of a
`Crypto`.
-/

namespace Synsema.Httpsig

open Text Bytesutil

/-! ## Values -/

/-- What kind of value it is, as far as the calls look at it. -/
inductive Kind where
  | text
  | bytes (b : Bytes)
  | nothing
  /-- A number, with `to_i64_trunc`. -/
  | number (trunc : Option Int64)
  /-- A map, with `to_string` of its values. -/
  | map (entries : List (Text × Text))
  | other

/-- `SynValue`: its `type_name`, its `to_string` (of a text, the text), and its kind. -/
structure Value where
  typeName : Text
  shown : Text
  kind : Kind

/-- `SynMap`, in the order of its keys. -/
abbrev SynMap := List (Text × Value)

/-- `MapObj::get`. -/
def get (m : SynMap) (key : Text) : Option Value := m.lookup key

/-- A text as a value. -/
def synText (t : Text) : Value := { typeName := "text", shown := t, kind := .text }

/-- Why a call fails. -/
inductive Fault where
  | missing (key : Text)
  | empty (key : Text)
  | wrongType (key typeName : Text)
  | badAlg (alg : Text)
  | badNumber (key : Text)
  | unknownOption (key : Text)
  | badParam (name : Text)
  | key (message : Text)
  | denied (message : Text)
  | noAlg
deriving DecidableEq

/-! ## Algorithms -/

inductive SigAlg where
  | ed25519
  | hmacSha256
deriving DecidableEq

def SigAlg.name : SigAlg → Text
  | .ed25519 => "ed25519"
  | .hmacSha256 => "hmac-sha256"

def SigAlg.parse (s : Text) : Except Fault SigAlg :=
  if s = "ed25519" then .ok .ed25519
  else if s = "hmac-sha256" then .ok .hmacSha256
  else .error (.badAlg s)

/-- The functions of other packages: SHA-256, HMAC-SHA-256 with a key, and of Ed25519 what
`ed25519_seed` makes of the material of a key, the signature of a text, the public key, and the
verification, which takes no key and no signature of the wrong length. -/
structure Crypto where
  sha256 : Bytes → Bytes
  hmacSha256 : Bytes → Bytes → Bytes
  ed25519Seed : Bytes → Except Text Bytes
  ed25519Sign : Bytes → Bytes → Bytes
  ed25519Public : Bytes → Bytes
  ed25519Verify : Bytes → Bytes → Bytes → Bool

/-- A key: the name of its secret, and its material (`key_material`, or the bytes as they are). -/
structure Key where
  name : Text
  material : SigAlg → Except Text Bytes

/-! ## What is signed -/

def reqText (m : SynMap) (key : Text) : Except Fault Text :=
  match get m key with
  | some v =>
    match v.kind with
    | .text => if trim v.shown = [] then .error (.empty key) else .ok (trim v.shown)
    | _ => .error (.wrongType key v.typeName)
  | none => .error (.missing key)

def bodyBytes (m : SynMap) : Except Fault Bytes :=
  match get m "body" with
  | none => .ok []
  | some v =>
    match v.kind with
    | .nothing => .ok []
    | .text => .ok (utf8 v.shown)
    | .bytes b => .ok b
    | _ => .error (.wrongType "body" v.typeName)

def contentDigest (C : Crypto) (body : Bytes) : Text :=
  "sha-256=:" ++ b64Encode (C.sha256 body) ++ [':']

/-- The decimal text of a number. -/
def shownInt (n : Int64) : Text := (toString n.toInt).toList

/-- A text in quotes. -/
def quoted (t : Text) : Text := ['"'] ++ t ++ ['"']

/-- The components that are covered, as the parameters begin with them. -/
def covered : Text := "(\"@method\" \"@target-uri\" \"content-digest\")"

def signatureParams (alg : SigAlg) (created : Int64) (keyid : Text) (nonce : Option Text) : Text :=
  covered ++ ";created=" ++ shownInt created ++ ";keyid=" ++ quoted keyid ++
    ";alg=" ++ quoted alg.name ++
    match nonce with
    | some n => ";nonce=" ++ quoted n
    | none => []

/-- What stands before the URL. -/
def uriLine : Text := "\n\"@target-uri\": "

/-- What stands before the digest. -/
def digestLine : Text := "\n\"content-digest\": "

/-- What stands before the parameters. -/
def paramsLine : Text := "\n\"@signature-params\": "

def signatureBase (method uri digest params : Text) : Text :=
  "\"@method\": " ++ (toAsciiUppercase method ++ uriLine ++
    (uri ++ digestLine ++ (digest ++ paramsLine ++ params)))

def isAsciiControl (c : Char) : Bool := c.toNat < 32 || c.toNat == 127

def checkParam (name value : Text) : Except Fault Unit :=
  if value = [] then .error (.badParam name)
  else if value.contains '"' ∨ value.contains '\\' ∨ value.any isAsciiControl then
    .error (.badParam name)
  else .ok ()

/-! ## `http_sign` -/

/-- The options of `http_sign`. -/
structure SignOpts where
  alg : SigAlg := .ed25519
  created : Option Int64 := none
  keyid : Option Text := none
  nonce : Option Text := none
  label : Text := "sig1"

/-- A number of the options. -/
def numberOpt (key : Text) (v : Value) : Except Fault Int64 :=
  match v.kind with
  | .number (some n) => .ok n
  | .number none => .error (.badNumber key)
  | _ => .error (.wrongType key v.typeName)

/-- One option of `http_sign`. -/
def signOpt (o : SignOpts) (kv : Text × Value) : Except Fault SignOpts :=
  if kv.1 = "alg" then do
    let alg ← SigAlg.parse kv.2.shown
    return { o with alg }
  else if kv.1 = "created" then do
    let n ← numberOpt kv.1 kv.2
    return { o with created := some n }
  else if kv.1 = "keyid" then .ok { o with keyid := some kv.2.shown }
  else if kv.1 = "nonce" then .ok { o with nonce := some kv.2.shown }
  else if kv.1 = "label" then .ok { o with label := kv.2.shown }
  else .error (.unknownOption kv.1)

/-- The checks of the parameters. -/
def checkParams (keyid label : Text) (nonce : Option Text) : Except Fault Unit := do
  checkParam "keyid" keyid
  checkParam "label" label
  match nonce with
  | some n => checkParam "nonce" n
  | none => return ()

/-- What a call of `http_sign` signs, and the signature, with the key that verifies it. -/
structure Signed where
  method : Text
  url : Text
  body : Bytes
  alg : SigAlg
  created : Int64
  keyid : Text
  nonce : Option Text
  label : Text
  verifyKey : Bytes
  signature : Bytes

section Sign

variable (C : Crypto)

/-- The parameters of the signature. -/
def Signed.params (s : Signed) : Text := signatureParams s.alg s.created s.keyid s.nonce

/-- The headers that `http_sign` returns. -/
def Signed.headers (s : Signed) : List (Text × Text) :=
  [("Content-Digest", contentDigest C s.body),
    ("Signature-Input", s.label ++ ['='] ++ s.params),
    ("Signature", s.label ++ "=:" ++ b64Encode s.signature ++ [':'])]

/-- The signature of a text, with the key that verifies it. -/
def signText (alg : SigAlg) (material base : Bytes) : Except Fault (Bytes × Bytes) :=
  match alg with
  | .ed25519 => do
    let seed ← (C.ed25519Seed material).mapError Fault.key
    return (C.ed25519Public seed, C.ed25519Sign seed base)
  | .hmacSha256 => .ok (material, C.hmacSha256 material base)

/-- `http_sign`, up to the map of its headers.  `gate` is the answer of the capability and the
audit for the key and the algorithm, `clock` the time, if the program may read it. -/
def signing (gate : Text → SigAlg → Except Text Unit) (clock : Except Text Int64) (req : SynMap)
    (key : Key) (opts : SynMap) : Except Fault Signed := do
  let method ← reqText req "method"
  let url ← reqText req "url"
  let body ← bodyBytes req
  let o ← opts.foldlM signOpt {}
  let material ← (key.material o.alg).mapError Fault.key
  let keyid := o.keyid.getD key.name
  checkParams keyid o.label o.nonce
  (gate key.name o.alg).mapError Fault.denied
  let created ← (o.created.elim clock Except.ok).mapError Fault.denied
  let params := signatureParams o.alg created keyid o.nonce
  let base := signatureBase method url (contentDigest C body) params
  let r ← signText C o.alg material (utf8 base)
  return { method, url, body, alg := o.alg, created, keyid, nonce := o.nonce, label := o.label,
           verifyKey := r.1, signature := r.2 }

def httpSign (gate : Text → SigAlg → Except Text Unit) (clock : Except Text Int64) (req : SynMap)
    (key : Key) (opts : SynMap) : Except Fault (List (Text × Text)) :=
  (signing C gate clock req key opts).map (Signed.headers C)

end Sign

/-! ## Reading the headers -/

def headerOf (headers : List (Text × Text)) (name : Text) : Option Text :=
  (headers.find? fun p => eqIgnoreAsciiCase p.1 name).map Prod.snd

def splitLabeled (s : Text) : Option (Text × Text) := do
  let p ← splitOnce '=' s
  if trim p.1 = [] then none else some (trim p.1, trim p.2)

def paramStr (params name : Text) : Option Text := do
  let p ← splitOnceStr ([';'] ++ name ++ "=\"") params
  let q ← splitOnce '"' p.2
  return q.1

/-- `str::parse::<i64>`. -/
def parseI64 (s : Text) : Option Int64 :=
  let ds := if s.head? = some '-' ∨ s.head? = some '+' then s.tail else s
  if ds = [] ∨ allDigits ds = false then none
  else
    let n := Nat.ofDigitChars 10 ds 0
    let i : Int := if s.head? = some '-' then -n else n
    if -2 ^ 63 ≤ i ∧ i < 2 ^ 63 then some (Int64.ofInt i) else none

def paramInt (params name : Text) : Option Int64 := do
  let p ← splitOnceStr ([';'] ++ name ++ ['=']) params
  parseI64 (p.2.takeWhile fun c => c.isDigit || c == '-')

/-- `trim_matches(':')`. -/
def trimColons (s : Text) : Text := trimEndMatches (· == ':') (s.dropWhile (· == ':'))

/-- The bytes of a signature, from its header. -/
def signatureBytes (s : Text) : Option Bytes := b64Decode (trimColons (trim s))

/-! ## `http_signature_verify` -/

/-- What `http_signature_verify` answers. -/
structure Verified where
  keyid : Text
  alg : SigAlg
  created : Int64
  nonce : Option Text
deriving DecidableEq

/-- An integer as the next `i64`. -/
def saturate (i : Int) : Int := max (-2 ^ 63) (min (2 ^ 63 - 1) i)

/-- Is the time of the signature too far from now?  A `max_age` of zero takes any. -/
def isStale (maxAge now created : Int64) : Bool :=
  0 < maxAge.toInt && maxAge.toInt < saturate (saturate (now.toInt - created.toInt)).natAbs

section Verify

variable (C : Crypto)

/-- A field of the request as a text. -/
def textField (req : SynMap) (key : Text) : Option Text := do
  let v ← get req key
  match v.kind with
  | .text => some (trim v.shown)
  | _ => none

/-- The headers of the request. -/
def headersField (req : SynMap) : Option (List (Text × Text)) := do
  let v ← get req "headers"
  match v.kind with
  | .map entries => some entries
  | _ => none

/-- Does the signature verify with the key? -/
def verifies (alg : SigAlg) (key base sig : Bytes) : Bool :=
  match alg with
  | .ed25519 => C.ed25519Verify key base sig
  | .hmacSha256 => C.hmacSha256 key base == sig

def verifyInner (req : SynMap) (key : Bytes) (alg : SigAlg) (maxAge now : Int64) :
    Option Verified := do
  let method ← textField req "method"
  let url ← textField req "url"
  let headers ← headersField req
  let body ← (bodyBytes req).toOption
  let input ← headerOf headers "signature-input"
  let header ← headerOf headers "signature"
  let params ← splitLabeled input
  let labeled ← splitLabeled header
  let sig ← if params.1 ≠ labeled.1 then none else signatureBytes labeled.2
  let declared ← paramStr params.2 "alg"
  let keyid ← if declared ≠ alg.name then none else paramStr params.2 "keyid"
  let created ← paramInt params.2 "created"
  let nonce := paramStr params.2 "nonce"
  let digest ← if isStale maxAge now created then none
    else headerOf headers "content-digest"
  let real := contentDigest C body
  let base := signatureBase method url real params.2
  if trim digest = real ∧ verifies C alg key (utf8 base) sig then
    some { keyid, alg, created, nonce }
  else none

/-- The options of `http_signature_verify`. -/
structure VerifyOpts where
  alg : Option SigAlg := none
  maxAge : Int64 := 300
  now : Option Int64 := none

/-- One option of `http_signature_verify`. -/
def verifyOpt (o : VerifyOpts) (kv : Text × Value) : Except Fault VerifyOpts :=
  if kv.1 = "alg" then do
    let alg ← SigAlg.parse kv.2.shown
    return { o with alg := some alg }
  else if kv.1 = "max_age" then do
    let n ← numberOpt kv.1 kv.2
    if 0 ≤ n then return { o with maxAge := n } else .error (.badNumber kv.1)
  else if kv.1 = "now" then do
    let n ← numberOpt kv.1 kv.2
    return { o with now := some n }
  else .error (.unknownOption kv.1)

/-- `http_signature_verify`, with the bytes of its key for each algorithm. -/
def httpSignatureVerify (clock : Except Text Int64) (req : SynMap)
    (key : SigAlg → Except Text Bytes) (opts : SynMap) : Except Fault (Option Verified) := do
  let o ← opts.foldlM verifyOpt {}
  let alg ← o.alg.elim (.error Fault.noAlg) Except.ok
  let material ← (key alg).mapError Fault.key
  let now ← (o.now.elim clock Except.ok).mapError Fault.denied
  return verifyInner C req material alg o.maxAge now

end Verify

end Synsema.Httpsig
