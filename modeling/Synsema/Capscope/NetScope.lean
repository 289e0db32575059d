import Synsema.Net.Addr

/-!
# Scopes of `net` that grant nothing

A scope of `net` that writes a port, a network or an IPv6 address wrongly is refused where it
is declared, with what is wrong with it (`synsema-core/src/capscope.rs`, `net_scope_error` and
the functions it uses).
-/

namespace Synsema.Capscope

open Text Net

/-- `str::parse::<Ipv6Addr>`. -/
def parseIpv6 (s : Text) : Option (BitVec 128) :=
  match readIpv6 s with
  | some (a, []) => some a
  | _ => none

/-- `str::parse::<Ipv4Addr>`. -/
def parseIpv4 (s : Text) : Option (BitVec 32) :=
  match readIpv4 s with
  | some (a, []) => some a
  | _ => none

/-- `prefix_ok`: digits, without a leading zero, a number of at most `limit`. -/
def prefixOk (p : Text) (limit : Nat) : Bool :=
  !p.isEmpty && p.length ≤ 3 && allDigits p && (p == ['0'] || !startsWith ['0'] p) &&
    (parseUnsigned 8 p).any (· ≤ limit)

/-- An address without its zone; an empty zone leaves no address. -/
def withoutZone (addr : Text) : Text :=
  match splitOnce '%' addr with
  | some (a, zone) => if zone.isEmpty then [] else a
  | none => addr

def ipv6OrCidr (s : Text) : Bool :=
  let (addr, pre) := match splitOnce '/' s with
    | some (a, p) => (a, some p)
    | none => (s, none)
  pre.all (prefixOk · 128) && (parseIpv6 (withoutZone addr)).isSome

/-- `mapped_prefix_error`: a network of IPv4 written as IPv6 counts its bits from the 96th. -/
def mappedPrefixError (debug : Text → Text) (scope host : Text) : Option Text := do
  let (a, p) ← splitOnce '/' host
  let a := (splitOnce '%' a).elim a Prod.fst
  let _ ← parseIpv6 a >>= toIpv4Mapped
  if 96 ≤ (← parseUnsigned 8 p) then failure
  return "net(" ++ debug scope ++ "): an IPv4 network written as IPv6 (`::ffff:a.b.c.d/n`) needs a prefix from 96 to 128 (`::ffff:10.0.0.0/104` is `10.0.0.0/8`); this scope granted nothing"

def ipv4CidrError (debug : Text → Text) (scope host : Text) : Option Text := do
  let (a, p) ← splitOnce '/' host
  if (parseIpv4 a).isNone || prefixOk p 32 then failure
  return "net(" ++ debug scope ++ "): an IPv4 CIDR's prefix is a number from 0 to 32, without leading zeros (`10.0.0.0/8`); this scope granted nothing"

/-- The host and the port that a scope writes, or the verdict on a scope without port. -/
def hostAndPort (debug : Text → Text) (scope : Text) : Except (Option Text) (Text × Text) :=
  match stripPrefix ['['] scope with
  | some inner =>
    match splitOnce ']' inner with
    | none => .error (some ("net(" ++ debug scope ++ "): an IPv6 address in brackets closes them: `[::1]` or `[::1]:8080`"))
    | some (h, after) =>
      if !ipv6OrCidr h then
        .error (some ("net(" ++ debug scope ++ "): inside the brackets goes an IPv6 address (`[::1]:8080`, `[fe80::1%eth0]`); this scope granted nothing"))
      else
        match mappedPrefixError debug scope h with
        | some e => .error (some e)
        | none =>
          if after.isEmpty then .error none
          else
            match stripPrefix [':'] after with
            | some p => .ok (h, p)
            | none => .error (some ("net(" ++ debug scope ++ "): after `]` comes nothing or `:` and a port (`[" ++ h ++ "]:8080`); this scope granted nothing"))
  | none =>
    match rsplitOnce ':' scope with
    | none => .error (ipv4CidrError debug scope scope)
    | some (h, p) =>
      if !h.contains ':' then
        match ipv4CidrError debug scope h with
        | some e => .error (some e)
        | none => .ok (h, p)
      -- two `:` or more, without brackets: an IPv6 address or network, and nothing else
      else if ipv6OrCidr scope then .error (mappedPrefixError debug scope scope)
      else
        .error (some ("net(" ++ debug scope ++ "): with more than one `:` it has to be an IPv6 address or CIDR (`::1`, `fe80::1%eth0`, `fd00::/8`, a prefix from 0 to 128 without leading zeros); with a port, in brackets: `[::1]:8080`. This scope granted nothing"))

/-- The verdict on the port of a scope. -/
def portError (debug : Text → Text) (scope host port : Text) : Option Text :=
  let digits := !port.isEmpty && allDigits port
  if digits && !startsWith ['0'] port && (parseUnsigned 16 port).isSome then none
  else
    let host := if startsWith ['['] scope then ['['] ++ host ++ [']'] else host
    let bare := port.dropWhile (· == '0')
    if digits && startsWith ['0'] port && (parseUnsigned 16 bare).any (0 < ·) then
      some ("net(" ++ debug scope ++ "): write the port without leading zeros (`" ++ host ++ ":" ++ bare ++ "`); this scope granted nothing")
    else
      some ("net(" ++ debug scope ++ "): the port is a number from 1 to 65535, written with digits only, or nothing — `net(\"" ++ host ++ "\")` already reaches every port of " ++ host ++ ", `net(\"" ++ host ++ ":8080\")` only that one; this scope granted nothing")

/-- `net_scope_error`: a URL is not looked at. -/
def netScopeError (debug : Text → Text) (scope : Text) : Option Text :=
  if containsStr "://" scope then none
  else
    match hostAndPort debug scope with
    | .error verdict => verdict
    | .ok (host, port) => portError debug scope host port

end Synsema.Capscope
