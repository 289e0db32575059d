import Synsema.Capscope.Hosts
import Synsema.Capscope.Physical
import Synsema.Net.Addr

/-!
# Capabilities

A capability is a type and an optional scope.  This file embeds how a scope is stored
(`Capability::new`) and when a grant covers a request, by name and on disk
(`synsema-capabilities/src/model.rs`).
-/

namespace Synsema

/-- What a check reads from the machine: the environment and the disk. -/
structure Machine extends Platform where
  disk : Disk

namespace Capability

open Text Capscope Net

/-! ## Types -/

/-- The types of capability, in the order of their declaration. -/
inductive CapabilityType where
  | net | fileRead | fileWrite | file | exec | env | time | random | stdout | stdin | llm
  | judge | db | serve | secret | reveal | sign | wallet | spend | memory | sandboxRun | attest
  | declassify
deriving DecidableEq, Repr, Ord

namespace CapabilityType

/-- The name in lower case, as it is displayed. -/
def nameLower : CapabilityType → Text
  | net => "net"
  | fileRead => "file_read"
  | fileWrite => "file_write"
  | file => "file"
  | exec => "exec"
  | env => "env"
  | time => "time"
  | random => "random"
  | stdout => "stdout"
  | stdin => "stdin"
  | llm => "llm"
  | judge => "judge"
  | db => "db"
  | serve => "serve"
  | secret => "secret"
  | reveal => "reveal"
  | sign => "sign"
  | wallet => "wallet"
  | spend => "spend"
  | memory => "memory"
  | sandboxRun => "sandbox_run"
  | attest => "attest"
  | declassify => "declassify"

/-- The capabilities of the process itself, which no delegated ceiling governs. -/
def isProcessLocal (ty : CapabilityType) : Bool := ty ∈ [stdout, stdin, time, random]

/-- The types whose scope is a path, or the URL of a database. -/
def isPath (ty : CapabilityType) : Bool := ty ∈ [file, fileRead, fileWrite, db]

/-- The types that may cover one another. -/
def family : CapabilityType → CapabilityType
  | fileRead => file
  | fileWrite => file
  | ty => ty

/-- The types where a scoped grant covers a request without scope. -/
def scopedCoversUnscoped (ty : CapabilityType) : Bool := ty ∈ [llm, judge]

/-- Does a grant of type `g` speak of requests of type `r`? -/
def covers (g r : CapabilityType) : Bool := g == r || (g == file && r ∈ [fileRead, fileWrite])

end CapabilityType

def capabilityTypeFromName (name : Text) : Option CapabilityType :=
  match String.ofList name with
  | "net" => some .net
  | "file" => some .file
  | "file.read" | "file_read" => some .fileRead
  | "file.write" | "file_write" => some .fileWrite
  | "exec" => some .exec
  | "env" => some .env
  | "time" => some .time
  | "random" => some .random
  | "stdout" => some .stdout
  | "stdin" => some .stdin
  | "llm" => some .llm
  | "judge" => some .judge
  | "db" => some .db
  | "serve" => some .serve
  | "secret" => some .secret
  | "reveal" => some .reveal
  | "sign" => some .sign
  | "wallet" => some .wallet
  | "spend" => some .spend
  | "memory" => some .memory
  | "sandbox_run" => some .sandboxRun
  | "attest" => some .attest
  | "declassify" => some .declassify
  | _ => none

/-! ## Scopes -/

/-- The host and the port a URL writes, the host in lower case. -/
def urlHostPort (m : Platform) (url : Text) : Text × Option Text :=
  let rest := (splitOnceStr "://" url).elim url Prod.snd
  let authority := before (fun c => c == '/' || c == '?' || c == '#') rest
  let hostport := (rsplitOnce '@' authority).elim authority Prod.snd
  let (host, port) :=
    match stripPrefix "[" hostport with
    | some inner =>
      let (h, after) := (splitOnce ']' inner).getD (inner, [])
      (h, stripPrefix ":" after)
    | none =>
      match rsplitOnce ':' hostport with
      | some (h, p) => (h, some p)
      | none => (hostport, none)
  (m.toLowercase host, port.filter fun p => !p.isEmpty && allDigits p)

/-- `host` or `host:port`, an IPv6 host with a port in brackets. -/
def joinNetScope (host : Text) : Option Text → Text
  | some p =>
    if host.contains ':' then "[" ++ host ++ "]:" ++ p
    else host ++ ":" ++ p
  | none => host

/-- The scope of `net` that a URL declares. -/
def netHostOf (m : Platform) (url : Text) : Text :=
  let (host, port) := urlHostPort m url
  if host.isEmpty then "<no host>" else joinNetScope host port

/-- A scope of `net` as host and port. -/
def splitNetScope (scope : Text) : Text × Option Text := splitHostPort scope

/-- A scope of `secret` as the name and the hosts it is bound to. -/
def splitSecretScope (scope : Text) : Text × Option Text :=
  match rsplitOnce '@' scope with
  | some (n, h) => (n, some h)
  | none => (scope, none)

/-- Is the scope of `db` the URL of a server? -/
def isDbUrl (s : Text) : Bool :=
  let l := toAsciiLowercase (trimStart s)
  ["postgres://".toList, "postgresql://".toList, "mysql://".toList, "mongodb://".toList,
    "mongodb+srv://".toList, "redis://".toList, "rediss://".toList].any fun p => startsWith p l

/-- The URL of a database as `scheme://host/dbname`, in lower case, without
credentials, port or query. -/
def canonUrl (m : Platform) (url : Text) : Text :=
  let url := trimStart url
  match splitOnceStr "://" url with
  | none => m.toLowercase url
  | some (s, r) =>
    let scheme := m.toLowercase s
    let rest := before (fun c => c == '?' || c == '#') r
    let (authority, path) := (splitOnce '/' rest).getD (rest, [])
    let hostPort := (rsplitOnce '@' authority).elim authority Prod.snd
    let host := m.toLowercase ((rsplitOnce ':' hostPort).elim hostPort Prod.fst)
    let db := m.toLowercase (before (· == '/') path)
    if db.isEmpty then scheme ++ "://" ++ host
    else scheme ++ "://" ++ host ++ "/" ++ db

/-- The scope as it is stored: of `net` the host and the port, of a bound `secret` each
host as a scope of `net`. -/
def storedScope (m : Platform) (ty : CapabilityType) (s : Text) : Text :=
  match ty with
  | .net =>
    if containsStr "://" s then netHostOf m s
    else if startsWith "[" s && endsWith "]" s then
      m.toLowercase (s.drop 1).dropLast
    else m.toLowercase s
  | .secret =>
    match rsplitOnce '@' s with
    | some (name, hosts) =>
      let hosts := ((split '|' hosts).filter fun h => !h.isEmpty).map
        (netHostScope m.toLowercase)
      name ++ "@" ++ join "|" hosts
    | none => s
  | _ => s

end Capability

open Capability in
/-- A capability: its type and its scope, as stored. -/
structure Capability where
  ty : CapabilityType
  scope : Option Text
deriving DecidableEq, Repr

namespace Capability

open Text Capscope Net

/-- `Capability::new`. -/
def new (m : Platform) (ty : CapabilityType) (scope : Option Text) : Capability :=
  { ty, scope := scope.map (storedScope m ty) }

/-- The capability as a message shows it. -/
def display (c : Capability) : Text :=
  match c.scope with
  | some s => if s.isEmpty then c.ty.nameLower else c.ty.nameLower ++ "(\"" ++ s ++ "\")"
  | none => c.ty.nameLower

/-! ## Covering by name -/

/-- Covering of `llm` and `judge`: the scope names whose private data may be sent, and
optionally to which provider. -/
def llmScopeCovers : Option Text → Option Text → Bool
  | _, none => true
  | none, some _ => false
  | some g, some r =>
    let cut := fun s =>
      match rsplitOnce '@' s with
      | some (p, h) => (p, some (toAsciiLowercase h))
      | none => (s, none)
    let (gp, gh) := cut g
    let (rp, rh) := cut r
    (gp == rp || fnmatch rp gp) &&
      match gh, rh with
      | some g, some r => g == r || fnmatch r g
      | _, _ => true

/-- The canonical form of a scope of `db`, a URL or a path. -/
def canonDb (m : Platform) (s : Text) : Text :=
  if isDbUrl s then canonUrl m s else normalizePath m s

/-- Covering of two scopes that are paths, or URLs of a database. -/
def pathScopeCovers (m : Platform) (isDb : Bool) (g r : Text) : Bool :=
  if isDb && (isDbUrl g || isDbUrl r) then
    canonDb m g == canonDb m r || fnmatch (canonDb m r) (canonDb m g)
  else pathCovers m g r

/-- Covering of two scopes of `secret`: the name, and the hosts of the bindings. -/
def secretScopeCovers (g r : Text) : Bool :=
  let (gn, gh) := splitSecretScope g
  let (rn, rh) := splitSecretScope r
  (gn == rn || fnmatch rn gn) &&
    match gh, rh with
    | none, _ => true
    | some _, none => false
    | some g, some r => (split '|' r).all fun h => (split '|' g).any fun p => boundHostCovers p h

/-- Covering of two scopes of `net`: the host, by name or as an address of a network,
and the port. -/
def netScopeCovers (g r : Text) : Bool :=
  let (gh, gp) := splitNetScope g
  let (rh, rp) := splitNetScope r
  (gh == rh || fnmatch rh gh || g == r || cidrCovers gh rh) && portOk gp rp

/-- Covering of two scopes of any other type. -/
def plainScopeCovers (g r : Text) : Bool := g == r || fnmatch r g

/-- Covering of two scopes, as the type of the grant reads them. -/
def scopeCovers (m : Platform) (ty : CapabilityType) (g r : Text) : Bool :=
  if ty.isPath then pathScopeCovers m (ty == .db) g r
  else if ty == .secret then secretScopeCovers g r
  else if ty == .net then netScopeCovers g r
  else plainScopeCovers g r

/-- Does the grant cover the request by name, without looking at the disk? -/
def coversByName (m : Platform) (c other : Capability) : Bool :=
  if !c.ty.covers other.ty then false
  else if c.ty.scopedCoversUnscoped then llmScopeCovers c.scope other.scope
  else
    match c.scope, other.scope with
    | none, _ => true
    | some _, none => false
    | some g, some r => scopeCovers m c.ty g r

theorem ty_covers_of_coversByName {m : Platform} {c other : Capability}
    (h : c.coversByName m other) : c.ty.covers other.ty = true := by
  rw [coversByName] at h
  by_contra hty
  rw [if_pos (by rw [(Bool.not_eq_true _).mp hty]; rfl)] at h
  cases h

/-! ## Covering on disk -/

/-- Are the two scopes paths of the disk? -/
def physicalScopePair (c other : Capability) : Bool :=
  let url := fun (c : Capability) => c.ty == .db && c.scope.any isDbUrl
  c.ty.isPath && other.ty.isPath && !url c && !url other

/-- Does the grant cover the request? -/
def covers (m : Machine) (c other : Capability) : Bool :=
  c.coversByName m.toPlatform other &&
    match c.physicalScopePair other, c.scope, other.scope with
    | true, some g, some r => pathWithinPhysically m.toPlatform m.disk g r
    | _, _, _ => true

/-- Does the request reach, on disk, what the denied capability names? -/
def reachesPhysically (m : Machine) (c other : Capability) : Bool :=
  c.ty.covers other.ty &&
    match c.physicalScopePair other, c.scope, other.scope with
    | true, some g, some r => pathReachesPhysically m.toPlatform m.disk g r
    | _, _, _ => false

/-- The half of `covers` that looks at the disk. -/
def coversPhysically (m : Machine) (c other : Capability) : Bool :=
  c.ty.covers other.ty && c.physicalScopePair other &&
    match c.scope, other.scope with
    | none, _ => true
    | some g, some r => pathWithinPhysically m.toPlatform m.disk g r
    | some _, none => false

/-- Does a layer cover a path that goes through a link: one of its grants by name, and
one, perhaps another, on disk? -/
def layerCoversSplit (m : Machine) (layer : List Capability) (requested : Capability) : Bool :=
  (layer.any fun g => g.physicalScopePair requested && g.coversByName m.toPlatform requested) &&
    layer.any fun g => g.coversPhysically m requested

/-- Does a layer cover a request, by one of its grants or by two? -/
def layerCovers (m : Machine) (layer : List Capability) (requested : Capability) : Bool :=
  layer.any (fun g => g.covers m requested) || layerCoversSplit m layer requested

/-! ## The canonical order -/

/-- How little the grant covers: its rank, whether it has no wildcard, its literals. -/
def specificity (c : Capability) : Nat × Bool × Nat :=
  let literals := fun (s : Text) => (s.filter fun c => c != '*' && c != '?').length
  match c.scope with
  | none => (if c.ty.scopedCoversUnscoped then 2 else 0, true, 0)
  | some s =>
    match c.ty with
    | .net =>
      let (host, port) := splitNetScope s
      let cidr := do
        let (ip, bits) ← splitOnce '/' host
        let _ ← parseIp (trimEndMatches (· == ']') (ip.dropWhile (· == '[')))
        parseUnsigned 64 bits
      match cidr with
      | some bits => (1, false, bits + port.elim 0 fun p => p.length + 1)
      | none => (1, !wild host, literals s)
    | .secret | .llm | .judge => (1, !wild (splitSecretScope s).1, literals s)
    | _ => (1, !wild s, literals s)

/-- `Ord for Capability`: the most specific first. -/
def cmp (a b : Capability) : Ordering :=
  let (ra, wa, la) := a.specificity
  let (rb, wb, lb) := b.specificity
  (compare rb ra).then <| (compare wb wa).then <| (compare lb la).then <|
    (compare a.ty b.ty).then (compare a.scope b.scope)

/-- The grants and the denials of a set, in their canonical order. -/
abbrev CapSet := List Capability

/-- `BTreeSet::insert`. -/
def insertCap (c : Capability) : CapSet → CapSet
  | [] => [c]
  | x :: xs =>
    match c.cmp x with
    | .lt => c :: x :: xs
    | .eq => x :: xs
    | .gt => x :: insertCap c xs

/-- The first grant of the set that covers the request.  A request without scope is
covered only by grants without scope, which stand last. -/
def firstCovering (m : Machine) (set : CapSet) (requested : Capability) : Option Capability :=
  let fam := requested.ty.family
  if requested.scope.isNone && !fam.scopedCoversUnscoped then
    ((set.reverse.takeWhile fun c => c.scope.isNone).filter fun c =>
      c.ty.family == fam && c.covers m requested).getLast?
  else (set.filter fun c => c.ty.family == fam).find? fun c => c.covers m requested

/-! ## Delegated ceilings -/

/-- Where a delegated ceiling comes from. -/
inductive DelegationSource where
  | token (id : Text)
  /-- A `sandbox under` block. -/
  | block
  /-- The program that started this one with `run_program`. -/
  | caller
deriving DecidableEq, Repr

/-- The `source` of the audit entry of a rejection. -/
def DelegationSource.auditSource : DelegationSource → Text
  | token _ => "token"
  | block => "sandbox"
  | caller => "caller"

/-- A delegated ceiling: the last block of a chain, and the blocks before it. -/
structure Delegation where
  caps : List Capability
  earlier : List (List Capability)
  source : DelegationSource
  deterministic : Bool
deriving DecidableEq, Repr

namespace Delegation

/-- Each layer of the ceiling. -/
def layers (d : Delegation) : List (List Capability) := d.earlier ++ [d.caps]

/-- Does the ceiling cover the capability?  What is local to the process passes, unless
the issuer asked for a deterministic run. -/
def covers (m : Machine) (d : Delegation) (cap : Capability) : Bool :=
  if cap.ty.isProcessLocal then !(d.deterministic && cap.ty ∈ [.time, .random])
  else d.layers.all fun layer => layerCovers m layer cap

/-- The reason a rejection gives. -/
def reasonFor (d : Delegation) (cap : Capability) : Text :=
  let deterministic := d.deterministic && cap.ty.isProcessLocal
  match d.source, deterministic with
  | .token id, false => "above delegated ceiling (token " ++ id ++ ")"
  | .token id, true => "denied by the deterministic caveat of token " ++ id
  | .block, _ => "above sandbox ceiling (sandbox under)"
  | .caller, _ => "above the ceiling of the calling program (run_program)"

end Delegation

end Capability

end Synsema
