import Synsema.Net.Display
import Synsema.Bytesutil

/-!
# Forwarded requests

The client address of a request that came through proxies (`synsema-stdlib/src/server.rs`,
`TrustedNet`, `hop_ip`, `resolve_forwarded`), the decoding of the headers in `handle_request`, and
the headers that `proxy_request` writes for the upstream.

A request has its headers in the order of the `HeaderMap`; their values are bytes.
-/

namespace Synsema.Server

open Net Text Bytesutil

/-- Headers as they came. -/
abbrev Lines := List (Text × Bytes)

/-- Headers as the runtime has them. -/
abbrev Headers := List (Text × Text)

/-! ## Trusted networks -/

/-- How many bits the address has. -/
def width : IpAddr → Nat
  | .v4 _ => 32
  | .v6 _ => 128

/-- `TrustedNet`: an address that is no mapped one, and how many of its bits count. -/
structure TrustedNet where
  addr : IpAddr
  bits : Nat
  canonical : addr.toCanonical = addr
  bits_le : bits ≤ width addr

theorem toCanonical_toCanonical (ip : IpAddr) : ip.toCanonical.toCanonical = ip.toCanonical := by
  cases ip with
  | v4 a => rfl
  | v6 a =>
    cases h : toIpv4Mapped a with
    | some b | none => simp [IpAddr.toCanonical, h]

/-- `TrustedNet::parse`.  A mapped address counts its bits from the 96th. -/
def TrustedNet.parse (spec : Text) : Except Text TrustedNet :=
  let spec := trim spec
  let (ip, len) := match splitOnce '/' spec with
    | some (ip, p) => (ip, some p)
    | none => (spec, none)
  match parseIp (trimEndMatches (· == ']') (ip.dropWhile (· == '['))) with
  | none =>
    .error ("trust proxy: '" ++ spec ++
      "' is not an IP address or a CIDR (10.0.0.0/8, ::1)")
  | some ip =>
    let mapped := ip.toCanonical != ip
    let most := width ip.toCanonical
    let invalid := "trust proxy: '" ++ spec ++ "' has an invalid prefix (0..=" ++
      digits (if mapped then 128 else most) ++ ")"
    let bits : Option Nat := match len with
      | none => some most
      | some p =>
        (parseUnsigned 8 p).bind fun n =>
          if mapped then (if 96 ≤ n then some (n - 96) else none) else some n
    match bits with
    | some bits =>
      if h : bits ≤ width ip.toCanonical then
        .ok ⟨ip.toCanonical, bits, toCanonical_toCanonical ip, h⟩
      else .error invalid
    | none => .error invalid

/-- `TrustedNet::contains`: a mapped address is compared as the IPv4 address. -/
def TrustedNet.contains (net : TrustedNet) (ip : IpAddr) : Bool :=
  match net.addr, ip.toCanonical with
  | .v4 a, .v4 b => samePrefix net.bits a b
  | .v6 a, .v6 b => samePrefix net.bits a b
  | _, _ => false

/-- Is the address in one of the trusted networks? -/
def trusts (nets : List TrustedNet) (ip : IpAddr) : Bool := nets.any fun net => net.contains ip

/-! ## The client -/

def forwardedHeaders : List Text :=
  ["x-forwarded-for", "x-forwarded-proto", "x-forwarded-host",
    "forwarded"]

/-- `hop_ip`: `ip`, `ipv4:port`, `[ipv6]` or `[ipv6]:port`. -/
def hopIp (hop : Text) : Option IpAddr :=
  let h := trim hop
  match parseIp h with
  | some ip => some ip
  | none =>
    match stripPrefix "[" h with
    | some rest => parseIp (before (· == ']') rest)
    | none =>
      match rsplitOnce ':' h with
      | some (ip, port) => if allDigits port then parseIp ip else none
      | none => none

/-- `ServeRuntime::is_trusted`. -/
def isTrusted (nets : List TrustedNet) (ip : Text) : Bool :=
  match parseIp (trimEndMatches (· == ']') ((trim ip).dropWhile (· == '['))) with
  | some ip => trusts nets ip
  | none => false

/-- The hops of one `X-Forwarded-For`. -/
def hopsOf (v : Text) : List Text := ((split ',' v).map trim).filter fun hop => !hop.isEmpty

/-- Is this an `X-Forwarded-For`? -/
def isForwardedFor (name : Text) : Bool := eqIgnoreAsciiCase name "x-forwarded-for"

/-- The hops of all `X-Forwarded-For`, in order. -/
def chain (headers : Headers) : List Text :=
  (headers.filter fun h => isForwardedFor h.1).flatMap fun h => hopsOf h.2

/-- The walk over the hops, from the right: trusted proxies are skipped, and a hop that is no
address ends it. -/
def walk (nets : List TrustedNet) (client : Text) : List Text → Text
  | [] => client
  | hop :: hops =>
    match hopIp hop with
    | none => client
    | some ip => if trusts nets ip then walk nets ip.toText hops else ip.toText

/-- `ServeRuntime::resolve_forwarded`. -/
def resolveForwarded (nets : List TrustedNet) (peer : Text) (headers : Headers) : Text × Headers :=
  if !isTrusted nets peer then
    (peer, headers.filter fun h => !forwardedHeaders.any fun f => eqIgnoreAsciiCase h.1 f)
  else (walk nets peer (chain headers).reverse, headers)

/-- `HeaderValue::to_str`: visible ASCII, and tabs. -/
def visible (b : UInt8) : Bool := (32 ≤ b && b < 127) || b == 9

/-- A header value as a text: `v.to_str().unwrap_or("")`. -/
def decode (v : Bytes) : Text := if v.all visible then v.map fun b => Char.ofNat b.toNat else []

/-- Is this a `Host`? -/
def isHost (name : Text) : Bool := eqIgnoreAsciiCase name "host"

/-- The headers `handle_request` works with: the host of the `:authority` stands for a `Host` that
is not there. -/
def headersOf (lines : Lines) (authority : Option Text) : Headers :=
  let headers := lines.map fun l => (l.1, decode l.2)
  if headers.any fun h => isHost h.1 then headers
  else headers ++ (authority.map fun host => ("host".toList, host)).toList

/-- `handle_request`, up to the client's address: the status and the error, or the address with the
headers that go on. -/
def handleRequest (nets : List TrustedNet) (peer : Text) (lines : Lines) (authority : Option Text) :
    Except (Nat × Text) (Text × Headers) :=
  let headers := headersOf lines authority
  if 1 < (headers.filter fun h => isHost h.1).length then
    .error (400, "more than one Host header")
  else .ok (resolveForwarded nets peer headers)

/-! ## The request to the upstream -/

def isHopByHop (name : Text) : Bool :=
  ["connection".toList, "keep-alive".toList, "proxy-authenticate".toList,
    "proxy-authorization".toList, "te".toList, "trailer".toList, "transfer-encoding".toList,
    "upgrade".toList, "proxy-connection".toList].contains name

/-- `HeaderName::try_from`: a token. -/
def validName (name : Text) : Bool :=
  !name.isEmpty && name.all fun c ↦ c.isAlphanum || "!#$%&'*+-.^_|~".toList.contains c || c == '\x60'

/-- `HeaderValue::try_from`: no control characters but tabs. -/
def validValue (v : Text) : Bool := (utf8 v).all fun b => (32 ≤ b && b != 127) || b == 9

/-- What `proxy_request` collects from the headers. -/
structure Upstream where
  fwdFor : Option Text
  fwdProto : Option Text
  fwdHost : Option Text
  origHost : Option Text
  sent : Lines

/-- A header that goes on as it is. -/
def Upstream.header (up : Upstream) (k v : Text) : Upstream :=
  if validName k && validValue v then
    { up with sent := up.sent ++ [(toAsciiLowercase k, utf8 v)] }
  else up

/-- The names in `Connection`, but `upgrade`: they are hop-by-hop too. -/
def connNamed (headers : Headers) : List Text :=
  ((headers.filter fun h => eqIgnoreAsciiCase h.1 "connection").flatMap fun h =>
    (split ',' h.2).map fun t => toAsciiLowercase (trim t)).filter
      fun t => !t.isEmpty && t != "upgrade"

/-- One header of the request. -/
def Upstream.step (isWs : Bool) (named : List Text) (up : Upstream) (h : Text × Text) : Upstream :=
  let (k, v) := h
  let lk := toAsciiLowercase k
  if lk = "host" then { up with origHost := some v }
  else if lk = "content-length" ∨ lk = "forwarded" then up
  else if lk = "x-forwarded-proto" then { up with fwdProto := up.fwdProto.or (some v) }
  else if lk = "x-forwarded-host" then { up with fwdHost := up.fwdHost.or (some v) }
  else if lk = "x-forwarded-for" then
    let v := trim v
    if v.isEmpty then up
    else
      { up with
        fwdFor := some (match up.fwdFor with
          | some prev => prev ++ ", " ++ v
          | none => v) }
  else if lk = "upgrade" ∧ isWs then up.header k v
  else if isHopByHop lk || named.contains lk then up
  else up.header k v

/-- The `X-Forwarded-For` that goes on: the peer stands behind what came. -/
def forwardedFor (fwdFor : Option Text) (clientIp : Text) : Text :=
  match fwdFor with
  | some prev =>
    if (trim prev).isEmpty then clientIp else trim prev ++ ", " ++ clientIp
  | none => clientIp

/-- The `X-Forwarded-Proto` that goes on. -/
def forwardedProto (fwdProto : Option Text) (tls : Bool) : Text :=
  let own := if tls then "https".toList else "http".toList
  ((fwdProto.map fun p => trim (before (· == ',') p)).filter fun p => !p.isEmpty).getD own

/-- The headers `proxy_request` sends.  There is no request when the `Host` or the
`X-Forwarded-For` is no header value. -/
def proxyHeaders (authority : Text) (isWs tls : Bool) (headers : Headers) (clientIp : Text) :
    Option Lines :=
  let up := headers.foldl (Upstream.step isWs (connNamed headers)) ⟨none, none, none, none, []⟩
  let xff := forwardedFor up.fwdFor clientIp
  let proto := forwardedProto up.fwdProto tls
  let host := (up.fwdHost.filter fun h => !(trim h).isEmpty).or up.origHost
  if validValue authority && validValue xff then
    some ([("host".toList, utf8 authority)] ++ up.sent ++
      (if isWs then [("connection".toList, utf8 "Upgrade".toList)] else []) ++
      [("x-forwarded-for".toList, utf8 xff)] ++
      (if validValue proto then [("x-forwarded-proto".toList, utf8 proto)] else []) ++
      ((host.filter validValue).map fun h => ("x-forwarded-host".toList, utf8 h)).toList)
  else none

end Synsema.Server
