import Synsema.Server.Forwarded
import Synsema.Lib.OrderedMap
import Synsema.Lib.Binary64

/-!
# Routes

Which route answers a request (`synsema-stdlib/src/routing.rs`, `path_match`, and `server.rs`,
`select_host`, `match_route`, the routes of `dispatch`), how the transport plans to attend it
(`route_plan`), and what `handle_request` does with the plan.

What the static files and the pages of the runtime hold is a parameter of the runtime; what else
decides about a request (rate limits, credentials, its body, what its handler gives) is the
environment of a run.
-/

namespace Synsema.Server

open Text Bytesutil

/-! ## Paths -/

def hexVal (b : UInt8) : Option UInt8 :=
  if 0x30 ≤ b ∧ b ≤ 0x39 then some (b - 0x30)
  else if 0x61 ≤ b ∧ b ≤ 0x66 then some (b - 0x61 + 10)
  else if 0x41 ≤ b ∧ b ≤ 0x46 then some (b - 0x41 + 10)
  else none

/-- The bytes of a text with its percent-escapes read. -/
def unescape : Bytes → Bytes
  | [] => []
  | b :: rest =>
    match b, rest with
    | 0x25, h :: l :: rest =>
      match hexVal h, hexVal l with
      | some h, some l => (h * 16 + l) :: unescape rest
      | _, _ => 0x25 :: unescape (h :: l :: rest)
    | b, rest => b :: unescape rest

/-- What a started character waits for: the range of its next byte, how many come after that one,
and its value so far. -/
structure Pending where
  lo : Nat
  hi : Nat
  more : Nat
  value : Nat

/-- The first byte of a character: an ASCII character, what it waits for, or no first byte. -/
def firstByte (b : Nat) : Char ⊕ Option Pending :=
  if b < 0x80 then .inl (Char.ofNat b)
  else if 0xc2 ≤ b ∧ b ≤ 0xdf then .inr (some ⟨0x80, 0xbf, 0, b - 0xc0⟩)
  else if b = 0xe0 then .inr (some ⟨0xa0, 0xbf, 1, 0⟩)
  else if b = 0xed then .inr (some ⟨0x80, 0x9f, 1, 0xd⟩)
  else if 0xe1 ≤ b ∧ b ≤ 0xef then .inr (some ⟨0x80, 0xbf, 1, b - 0xe0⟩)
  else if b = 0xf0 then .inr (some ⟨0x90, 0xbf, 2, 0⟩)
  else if 0xf1 ≤ b ∧ b ≤ 0xf3 then .inr (some ⟨0x80, 0xbf, 2, b - 0xf0⟩)
  else if b = 0xf4 then .inr (some ⟨0x80, 0x8f, 2, 4⟩)
  else .inr none

/-- The byte starts a character; `none` stands for U+FFFD. -/
def lossyStart (b : Nat) : Text × Option Pending :=
  match firstByte b with
  | .inl c => ([c], none)
  | .inr (some p) => ([], some p)
  | .inr none => (['\ufffd'], none)

/-- `String::from_utf8_lossy`: each longest piece that begins no character is U+FFFD. -/
def lossy (pending : Option Pending) : Bytes → Text
  | [] => if pending.isSome then ['\ufffd'] else []
  | b :: rest =>
    match pending with
    | none =>
      let (out, p) := lossyStart b.toNat
      out ++ lossy p rest
    | some p =>
      if p.lo ≤ b.toNat ∧ b.toNat ≤ p.hi then
        let value := p.value * 64 + (b.toNat - 0x80)
        match p.more with
        | 0 => Char.ofNat value :: lossy none rest
        | more + 1 => lossy (some ⟨0x80, 0xbf, more, value⟩) rest
      else
        let (out, p) := lossyStart b.toNat
        '\ufffd' :: out ++ lossy p rest

def unquote (s : Text) : Text := lossy none (unescape (utf8 s))

def segments (pattern : Text) : List Text := (split '/' pattern).filter fun s => !s.isEmpty

/-- The parameters a path gives. -/
abbrev Params := OrderedMap Text Text

/-- `path_match` from one segment on. -/
def matchSegments (params : Params) : List Text → List Text → Option Params
  | [], actual => if actual.isEmpty then some params else none
  | pat :: segs, actual =>
    match pat with
    | '*' :: name =>
      if actual.isEmpty then none
      else some (params.insert name (join "/" (actual.map unquote)))
    | _ =>
      match actual with
      | [] => none
      | act :: actual =>
        match pat with
        | ':' :: name => matchSegments (params.insert name (unquote act)) segs actual
        | _ => if pat = act then matchSegments params segs actual else none

def pathMatch (pattern path : Text) : Option Params :=
  matchSegments .empty (segments pattern) (segments path)

def paramLastSegment (pattern : Text) : Bool :=
  match (segments pattern).getLast? with
  | some (':' :: _) => true
  | _ => false

def formatSuffixes : List (Text × Text) :=
  [("md", "md"), ("json", "json"), ("html", "html")]

/-- `split_format_suffix`: the path without its `.md`, `.json` or `.html`, and the format. -/
def splitFormatSuffix (path : Text) : Text × Option Text :=
  let found := formatSuffixes.find? fun s =>
    let dotted := '.' :: s.1
    endsWith dotted path && dotted.length < path.length &&
      !endsWith "/" (path.take (path.length - dotted.length))
  match found with
  | some (ext, fmt) => (path.take (path.length - (ext.length + 1)), some fmt)
  | none => (path, none)

def normalizeRoutePath (path : Text) : Text :=
  match segments path with
  | [] => "/"
  | segs => '/' :: join "/" segs

def headerValue (headers : Headers) (name : Text) : Text :=
  ((headers.find? fun h => eqIgnoreAsciiCase h.1 name).map Prod.snd).getD []

/-! ## Routes -/

/-- `t.is_finite() && t > 0.0`. -/
def isLimit (t : F64) : Bool := t.isFinite && !t.neg && 0 < t.mag

/-- `RouteSpec`: what decides how a request is attended. -/
structure RouteSpec where
  method : Text
  path : Text
  requiresAuth : Bool
  streaming : Bool
  socket : Bool
  rateLimit : Bool
  timeout : Option F64
  proxyTarget : Option Text
  proxyDynamic : Bool
  proxyReadsBody : Bool

/-- The limit of a route: its own, or the serve block's. -/
def RouteSpec.limit (r : RouteSpec) (defaultTimeout : Option F64) : Option F64 :=
  (r.timeout.or defaultTimeout).filter isLimit

/-- What a static file or a page of the runtime answers. -/
structure Page where
  status : Nat
  contentType : Text
  body : Bytes
  headers : Headers

/-- `HostRouter`: what its static files hold is a function of the path and the headers. -/
structure HostRouter where
  pattern : Option Text
  routes : List RouteSpec
  hasMounts : Bool
  static : Text → Headers → Option Page

def HostRouter.matchesHost (host : HostRouter) (name : Text) : Bool :=
  match host.pattern with
  | none => true
  | some p =>
    match stripPrefix "*." p with
    | some suffix =>
      let h := toAsciiLowercase name
      let s := toAsciiLowercase suffix
      h == s || endsWith ('.' :: s) h
    | none => eqIgnoreAsciiCase name p

/-- `HostRouter::match_route`: the first route of the method that matches. -/
def HostRouter.matchRoute (host : HostRouter) (method path : Text) : Option (RouteSpec × Params) :=
  host.routes.findSome? fun r =>
    if r.method = method then (pathMatch r.path path).map fun params => (r, params) else none

def HostRouter.methodsForPath (host : HostRouter) (path : Text) : List Text :=
  ((host.routes.filter fun r ↦ (pathMatch r.path path).isSome).map RouteSpec.method).dedup.mergeSort
    fun a b => decide (a ≤ b)

/-- `HostRouter::serve_static_full`, where the host has mounts. -/
def HostRouter.serveStatic (host : HostRouter) (method path : Text) (headers : Headers) :
    Option Page :=
  if method = "GET" ∧ host.hasMounts then host.static path headers else none

/-- `ServeRuntime`: what decides which route answers. -/
structure ServeRuntime where
  approvals : Bool
  healthPath : Option Text
  attestation : Bool
  defaultHost : HostRouter
  vhosts : List HostRouter
  discoveryEnabled : Bool
  isPrivate : Bool
  docsEnabled : Bool
  page : Text → Headers → Option Page
  defaultTimeout : Option F64
  shuttingDown : Bool

namespace ServeRuntime

variable (rt : ServeRuntime)

/-- `select_host`: an exact name, a wildcard, or the default. -/
def selectHost (header : Text) : HostRouter :=
  let h := trim (before (· == ':') header)
  let exact := rt.vhosts.find? fun vh => vh.pattern.any fun p =>
    !startsWith "*." p && eqIgnoreAsciiCase h p
  let wild := rt.vhosts.find? fun vh => (vh.pattern.any fun p => startsWith "*." p) &&
    vh.matchesHost h
  (exact.or wild).getD rt.defaultHost

/-- The host that the headers ask for. -/
def hostOf (headers : Headers) : HostRouter := rt.selectHost (headerValue headers "host")

def isApprovalsRoute (method path : Text) : Bool :=
  rt.approvals &&
    ((method == "GET" && path == "/approvals") ||
      match stripPrefix "/approvals/" path with
      | none => false
      | some rest =>
        match split '/' rest with
        | [id] => method == "POST" && !id.isEmpty
        | [id, token] => method == "GET" && !id.isEmpty && !token.isEmpty
        | _ => false)

/-! ## The URLs of the runtime -/

def attestationPath : Text := "/.well-known/attestation"

def reservedPaths : List Text :=
  ["/openapi.json", "/docs", "/llms.txt", "/sitemap.xml",
    "/robots.txt", attestationPath, "/.well-known/agent-card.json",
    "/.well-known/agent.json", "/.well-known/synsema-auth"]

def publishes (path : Text) : Bool :=
  if path = attestationPath then rt.attestation
  else if !rt.discoveryEnabled then false
  else if path = "/robots.txt" then true
  else if path = "/docs" then !rt.isPrivate && rt.docsEnabled
  else !rt.isPrivate && reservedPaths.contains path

def discoveryResponse (path : Text) (headers : Headers) : Option Page :=
  if path ≠ attestationPath ∧ rt.publishes path then rt.page path headers else none

/-! ## Resolution -/

/-- What answers before a route does. -/
inductive Answer where
  | approvals
  | health
  | attestation
  | page (p : Page)
  | methodNotAllowed (allowed : List Text)
  | noRoute (message : Text)

/-- What `dispatch` finds for a request: an answer, or a route with its parameters and the format
its suffix asks for. -/
inductive Resolved where
  | answered (a : Answer)
  | attended (r : RouteSpec) (params : Params) (fmt : Option Text)

/-- What answers before the router. -/
def preRouter (method path : Text) : Option Answer :=
  if rt.isApprovalsRoute method path then some .approvals
  else if method = "GET" ∧ rt.healthPath = some path then some .health
  else if method = "GET" ∧ normalizeRoutePath path = attestationPath ∧ rt.attestation then
    some .attestation
  else none

/-- A reserved URL goes before a route with parameters. -/
def reservedFirst (method path : Text) (headers : Headers) : Option Page :=
  let host := rt.hostOf headers
  match host.matchRoute method path with
  | none => none
  | some (_, params) =>
    if !params.entries.isEmpty && rt.discoveryEnabled && reservedPaths.contains path then
      (host.serveStatic method path headers).or (rt.discoveryResponse path headers)
    else none

/-- Is the suffix of the path negotiated?  Not on a URL of the runtime that no route has, and not
where the route that has it ends in no parameter. -/
def negotiates (method path : Text) (headers : Headers) : Bool :=
  match (rt.hostOf headers).matchRoute method path with
  | none =>
    let norm := normalizeRoutePath path
    !(rt.publishes norm || (rt.attestation && reservedPaths.contains norm))
  | some (r, _) => paramLastSegment r.path

/-- What answers where no route does. -/
def unrouted (method path : Text) (headers : Headers) : Answer :=
  let host := rt.hostOf headers
  match host.methodsForPath path with
  | [] =>
    if method = "GET" then
      match (host.serveStatic method path headers).or (rt.discoveryResponse path headers) with
      | some p => .page p
      | none => .noRoute ("no route for " ++ method ++ ' ' :: path)
    else .noRoute ("no route for " ++ method ++ ' ' :: path)
  | allowed => .methodNotAllowed allowed

/-- The routes of `dispatch`. -/
def resolve (method path : Text) (headers : Headers) : Resolved :=
  let host := rt.hostOf headers
  let exact := match host.matchRoute method path with
    | some (r, params) => .attended r params none
    | none => .answered (rt.unrouted method path headers)
  match rt.preRouter method path with
  | some a => .answered a
  | none =>
    match rt.reservedFirst method path headers with
    | some p => .answered (.page p)
    | none =>
      match splitFormatSuffix path with
      | (_, none) => exact
      | (logical, some fmt) =>
        if rt.negotiates method path headers then
          match host.serveStatic method path headers with
          | some p => .answered (.page p)
          | none =>
            match host.matchRoute method logical with
            | some (r, params) => .attended r params (some fmt)
            | none => exact
        else exact

/-! ## The plan -/

structure RoutePlan where
  dedicated : Bool
  socket : Bool
  proxy : Bool
  streamBody : Bool
  timeout : Option F64

def routePlan (method path : Text) (headers : Headers) : RoutePlan :=
  match (rt.hostOf headers).matchRoute method path with
  | some (r, _) =>
    { dedicated := r.streaming || r.socket
      socket := r.socket
      proxy := r.proxyTarget.isSome || r.proxyDynamic
      streamBody := r.proxyTarget.isSome || (r.proxyDynamic && !r.proxyReadsBody)
      timeout := r.limit rt.defaultTimeout }
  | none => ⟨false, false, false, false, none⟩

/-! ## A request -/

/-- What else decides about a request. -/
structure Env where
  /-- Is the body within the limit? -/
  bodyFits : Bool
  /-- Does the rate of the address allow it? -/
  addressRate : Bool
  /-- Is a body that says it is JSON one? -/
  jsonBody : Bool
  /-- Does the credential name a user? -/
  user : Bool
  /-- Does the rate of the identity allow it? -/
  identityRate : Bool
  /-- Is a stream slot free? -/
  slot : Bool
  /-- Does the handler hand the request to an upstream? -/
  givesProxy : Bool

/-- `Dispatched`, with the status of a response where `dispatch` refuses the request. -/
inductive Dispatched where
  | answered (a : Answer)
  | refused (status : Nat)
  | handled
  | proxy
  | socket
  | stream
deriving Inhabited

/-- What `dispatch` does with the route it found. -/
def attend (r : RouteSpec) (env : Env) : Dispatched :=
  if r.rateLimit && !env.addressRate then .refused 429
  else if !env.jsonBody then .refused 400
  else if r.requiresAuth && !env.user then .refused 401
  else if r.requiresAuth && r.rateLimit && !env.identityRate then .refused 429
  else if r.proxyTarget.isSome then .proxy
  else if r.socket then (if env.slot then .socket else .refused 503)
  else if r.streaming then (if env.slot then .stream else .refused 503)
  else if env.givesProxy then .proxy
  else .handled

def dispatch (method path : Text) (headers : Headers) (env : Env) : Dispatched :=
  match rt.resolve method path headers with
  | .answered a => .answered a
  | .attended r _ _ => attend r env

def websocketUpgradeKey (headers : Headers) : Option Text :=
  let connection := toAsciiLowercase (headerValue headers "connection")
  let upgrade := toAsciiLowercase (headerValue headers "upgrade")
  let version := headerValue headers "sec-websocket-version"
  let key := headerValue headers "sec-websocket-key"
  let connOk := (split ',' connection).any fun t => trim t == "upgrade"
  if connOk && upgrade == "websocket" && trim version == "13" &&
      !(trim key).isEmpty then some (trim key) else none

/-- What `handle_request` answers without running anything. -/
inductive Early where
  | options
  | shuttingDown
  | upgradeRequired
  | tooLarge

/-- A request that is attended: the thread it runs on, its limit, the upgrade that was validated
for it, whether the transport kept what a proxy needs, and what `dispatch` made of it. -/
structure Job where
  dedicated : Bool
  timeout : Option F64
  upgrade : Option Text
  proxyReady : Bool
  result : Dispatched

/-- `HEAD` is attended as `GET`. -/
def effMethod (method : Text) : Text := if method = "HEAD" then "GET" else method

/-- `handle_request`, from the headers that `resolve_forwarded` leaves. -/
def attendRequest (method path : Text) (headers : Headers) (env : Env) : Except Early Job :=
  let isHead := method = "HEAD"
  let eff := effMethod method
  if method = "OPTIONS" ∧
      ((rt.hostOf headers).matchRoute "OPTIONS" path).isNone then .error .options
  else if rt.shuttingDown then .error .shuttingDown
  else
    let plan := rt.routePlan eff path headers
    let key := websocketUpgradeKey headers
    if plan.socket ∧ (isHead ∨ key = none) then .error .upgradeRequired
    else if !env.bodyFits then .error .tooLarge
    else
      .ok { dedicated := plan.dedicated || rt.isApprovalsRoute eff path
            timeout := plan.timeout
            upgrade := if plan.socket then key else none
            proxyReady := plan.proxy
            result := rt.dispatch eff path headers env }

end ServeRuntime

end Synsema.Server
