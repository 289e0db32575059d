import Synsema.Text

/-!
# Addresses

The addresses of the `net` capability (`synsema-capabilities/src/model.rs`,
`is_public_ip` and `cidr_contains`) and the parser of `std::net::IpAddr` they rest on:
an address is read from the front of the text, and the whole text has to be read.
-/

namespace Synsema.Net

open Text Option

/-- `std::net::IpAddr`. -/
inductive IpAddr where
  | v4 (a : BitVec 32)
  | v6 (a : BitVec 128)
deriving DecidableEq, Repr

/-! ## Parsing -/

/-- `char::to_digit`. -/
def toDigit (radix : Nat) (c : Char) : Option Nat :=
  let d :=
    if '0' ≤ c ∧ c ≤ '9' then some (c.toNat - '0'.toNat)
    else if 'a' ≤ c ∧ c ≤ 'z' then some (c.toNat - 'a'.toNat + 10)
    else if 'A' ≤ c ∧ c ≤ 'Z' then some (c.toNat - 'A'.toNat + 10)
    else none
  d.filter fun d => d < radix

/-- The digits at the front of the text, and the rest. -/
def readDigits (radix : Nat) : Text → List Nat × Text
  | [] => ([], [])
  | c :: s =>
    match toDigit radix c with
    | some d => let (ds, r) := readDigits radix s; (d :: ds, r)
    | none => ([], c :: s)

/-- `Parser::read_number`: at most `maxDigits` digits, a value of at most `limit`. -/
def readNumber (radix maxDigits limit : Nat) (allowZeroPrefix : Bool) (s : Text) :
    Option (Nat × Text) :=
  let (ds, r) := readDigits radix s
  let n := ds.foldl (fun n d => n * radix + d) 0
  if ds.isEmpty || maxDigits < ds.length || limit < n
    || (!allowZeroPrefix && ds.head? == some 0 && 1 < ds.length) then none
  else some (n, r)

/-- `Parser::read_given_char`. -/
def readChar (c : Char) (s : Text) : Option Text :=
  match s with
  | x :: r => if x = c then some r else none
  | [] => none

/-- `Parser::read_separator`: the separator is read before every part but the first. -/
def readSeparator (c : Char) (i : Nat) (s : Text) : Option Text :=
  if 0 < i then readChar c s else some s

/-- The parts of an IPv4 address from the `i`th on. -/
def readOctets (s : Text) : List Nat → Option (List Nat × Text)
  | [] => some ([], s)
  | i :: is => do
    let (n, s) ← readSeparator '.' i s >>= readNumber 10 3 255 false
    let (ns, s) ← readOctets s is
    return (n :: ns, s)

/-- Parts of `w` bits each as one number, the first one on top. -/
def ofParts (w : Nat) (parts : List Nat) : Nat := parts.foldl (fun n p => n * 2 ^ w + p) 0

/-- `Parser::read_ipv4_addr`. -/
def readIpv4 (s : Text) : Option (BitVec 32 × Text) :=
  (readOctets s [0, 1, 2, 3]).map fun (ns, r) => (BitVec.ofNat 32 (ofParts 8 ns), r)

/-- `read_groups`: the groups of an IPv6 address from the `i`th on, `left` of them at
most.  An IPv4 address may stand for the last two. -/
def readGroups (i : Nat) : Nat → Text → List Nat × Bool × Text
  | 0, s => ([], false, s)
  | left + 1, s =>
    let embedded := if 0 < left then readSeparator ':' i s >>= readIpv4 else none
    match embedded with
    | some (a, r) => ([a.toNat / 2 ^ 16, a.toNat % 2 ^ 16], true, r)
    | none =>
      match readSeparator ':' i s >>= readNumber 16 4 65535 true with
      | some (g, r) => let (gs, v4, r) := readGroups (i + 1) left r; (g :: gs, v4, r)
      | none => ([], false, s)

/-- `Parser::read_ipv6_addr`. -/
def readIpv6 (s : Text) : Option (BitVec 128 × Text) :=
  let (head, headIpv4, r) := readGroups 0 8 s
  if head.length == 8 then some (BitVec.ofNat 128 (ofParts 16 head), r)
  else if headIpv4 then none
  else do
    let r ← readChar ':' r >>= readChar ':'
    let (tail, _, r) := readGroups 0 (8 - (head.length + 1)) r
    let zeros := List.replicate (8 - head.length - tail.length) 0
    return (BitVec.ofNat 128 (ofParts 16 (head ++ zeros ++ tail)), r)

/-- `str::parse::<IpAddr>`. -/
def parseIp (s : Text) : Option IpAddr :=
  let read := ((readIpv4 s).map fun (a, r) => (IpAddr.v4 a, r)).or
    ((readIpv6 s).map fun (a, r) => (IpAddr.v6 a, r))
  match read with
  | some (ip, []) => some ip
  | _ => none

/-- `str::parse` of an unsigned number of `w` bits: digits, after at most one `+`. -/
def parseUnsigned (w : Nat) (s : Text) : Option Nat :=
  let ds := (stripPrefix "+" s).getD s
  if ds.isEmpty || !allDigits ds then none
  else
    let n := ds.foldl (fun n c => n * 10 + (c.toNat - '0'.toNat)) 0
    if n < 2 ^ w then some n else none

/-! ## The characters of an address -/

/-- The characters an address is written with. -/
def isAddrChar (c : Char) : Bool := (toDigit 16 c).isSome || c == '.' || c == ':'

/-- What a reader took from the front of `s` to leave `r` is written with the characters
of an address. -/
def Took (s r : Text) : Prop := ∃ u, s = u ++ r ∧ ∀ c ∈ u, isAddrChar c = true

theorem Took.refl (s : Text) : Took s s := ⟨[], rfl, by simp⟩

variable {s r : Text} {c : Char}

theorem Took.trans {t : Text} (h₁ : Took s t) (h₂ : Took t r) : Took s r := by
  obtain ⟨u, rfl, hu⟩ := h₁
  obtain ⟨v, rfl, hv⟩ := h₂
  refine ⟨u ++ v, (List.append_assoc u v r).symm, ?_⟩
  intro c hc
  exact (List.mem_append.mp hc).elim (hu c) (hv c)

theorem toDigit_mono {d : Nat} (h : toDigit 10 c = some d) : toDigit 16 c = some d := by
  unfold toDigit at h ⊢
  rw [filter_eq_some_iff] at h ⊢
  refine ⟨h.1, ?_⟩
  have := h.2
  simp only [decide_eq_true_eq] at this ⊢
  omega

theorem readDigits_took {radix : Nat} (hr : radix = 10 ∨ radix = 16) (s : Text) :
    Took s (readDigits radix s).2 := by
  induction s with
  | nil => exact .refl []
  | cons c s ih =>
    unfold readDigits
    cases hc : toDigit radix c with
    | none => exact .refl (c :: s)
    | some d =>
      have hc' : isAddrChar c := by
        have : toDigit 16 c = some d := by
          rcases hr with rfl | rfl
          · exact toDigit_mono hc
          · exact hc
        simp [isAddrChar, this]
      exact Took.trans ⟨[c], rfl, by simpa using hc'⟩ ih

theorem readNumber_took {radix maxDigits limit : Nat} {zero : Bool} {n : Nat}
    (hr : radix = 10 ∨ radix = 16) (h : readNumber radix maxDigits limit zero s = some (n, r)) :
    Took s r := by
  unfold readNumber at h
  have hd := readDigits_took hr s
  generalize readDigits radix s = dr at h hd
  obtain ⟨ds, r'⟩ := dr
  simp only at h
  split at h
  · cases h
  · cases h
    exact hd

theorem readChar_took (hc : isAddrChar c) (h : readChar c s = some r) : Took s r := by
  unfold readChar at h
  split at h
  · split at h
    · rename_i x r' hx
      cases h
      exact ⟨[x], rfl, by simpa [hx] using hc⟩
    · cases h
  · cases h

theorem readSeparator_took {i : Nat} (hc : isAddrChar c) (h : readSeparator c i s = some r) :
    Took s r := by
  unfold readSeparator at h
  split at h
  · exact readChar_took hc h
  · cases h
    exact .refl s

theorem readOctets_took {is ns : List Nat} (h : readOctets s is = some (ns, r)) : Took s r := by
  induction is generalizing s ns r with
  | nil =>
    cases h
    exact .refl s
  | cons i is ih =>
    simp only [readOctets, bind_eq_bind, bind_eq_some_iff, Prod.exists] at h
    obtain ⟨n, s₂, ⟨s₁, hsep, hnum⟩, ns', s₃, hrest, heq⟩ := h
    cases heq
    exact (readSeparator_took (by decide) hsep).trans
      ((readNumber_took (.inl rfl) hnum).trans (ih hrest))

theorem readIpv4_took {a : BitVec 32} (h : readIpv4 s = some (a, r)) : Took s r := by
  obtain ⟨⟨ns, r'⟩, hns, heq⟩ := map_eq_some_iff.mp h
  cases heq
  exact readOctets_took hns

theorem readGroups_took (i left : Nat) (s : Text) : Took s (readGroups i left s).2.2 := by
  induction left generalizing i s with
  | zero => exact .refl s
  | succ left ih =>
    unfold readGroups
    cases hv4 : (if 0 < left then readSeparator ':' i s >>= readIpv4 else none) with
    | some ar =>
      obtain ⟨a, r⟩ := ar
      have hr : (readSeparator ':' i s >>= readIpv4) = some (a, r) := by
        split at hv4
        · exact hv4
        · cases hv4
      obtain ⟨s', hsep, hread⟩ := bind_eq_some_iff.mp hr
      exact (readSeparator_took (by decide) hsep).trans (readIpv4_took hread)
    | none =>
      cases hg : readSeparator ':' i s >>= readNumber 16 4 65535 true with
      | some gr =>
        obtain ⟨g, r⟩ := gr
        obtain ⟨s', hsep, hnum⟩ := bind_eq_some_iff.mp hg
        exact (readSeparator_took (by decide) hsep).trans
          ((readNumber_took (.inr rfl) hnum).trans (ih (i + 1) r))
      | none => exact .refl s

theorem readIpv6_took {a : BitVec 128} (h : readIpv6 s = some (a, r)) : Took s r := by
  unfold readIpv6 at h
  have hhead := readGroups_took 0 8 s
  generalize readGroups 0 8 s = g at h hhead
  obtain ⟨head, v4, r₁⟩ := g
  simp only at h hhead
  split at h
  · cases h
    exact hhead
  · split at h
    · cases h
    · simp only [bind_eq_bind, bind_eq_some_iff] at h
      obtain ⟨r₂, ⟨r₃, hc, hc'⟩, heq⟩ := h
      have htail := readGroups_took 0 (8 - (head.length + 1)) r₂
      cases heq
      exact hhead.trans ((readChar_took (by decide) hc).trans
        ((readChar_took (by decide) hc').trans htail))

theorem isAddrChar_of_parseIp {ip : IpAddr} (h : parseIp s = some ip) :
    ∀ c ∈ s, isAddrChar c = true := by
  have htook : Took s [] := by
    simp only [parseIp] at h
    split at h
    · rename_i ip' hread
      rcases or_eq_some_iff.mp hread with hv4 | ⟨-, hv6⟩
      · obtain ⟨⟨a, r⟩, hr, heq⟩ := map_eq_some_iff.mp hv4
        cases heq
        exact readIpv4_took hr
      · obtain ⟨⟨a, r⟩, hr, heq⟩ := map_eq_some_iff.mp hv6
        cases heq
        exact readIpv6_took hr
    · cases h
  obtain ⟨u, rfl, hu⟩ := htook
  simpa using hu

/-! ## Networks -/

/-- `Ipv6Addr::to_ipv4_mapped`: the IPv4 address of `::ffff:a.b.c.d`. -/
def toIpv4Mapped (a : BitVec 128) : Option (BitVec 32) :=
  if a.toNat / 2 ^ 32 = 0xffff then some (a.setWidth 32) else none

def IpAddr.toCanonical : IpAddr → IpAddr
  | .v4 a => .v4 a
  | .v6 a =>
    match toIpv4Mapped a with
    | some b => .v4 b
    | none => .v6 a

/-- The `i`th octet of an IPv4 address. -/
def octet (a : BitVec 32) (i : Nat) : Nat := a.toNat / 2 ^ (8 * (3 - i)) % 2 ^ 8

/-- The `i`th segment of an IPv6 address. -/
def segment (a : BitVec 128) (i : Nat) : Nat := a.toNat / 2 ^ (16 * (7 - i)) % 2 ^ 16

def publicV4 (a : BitVec 32) : Bool :=
  let b₀ := octet a 0
  let b₁ := octet a 1
  let b₂ := octet a 2
  !(b₀ == 0 || b₀ == 10 || b₀ == 127 || 224 ≤ b₀ || (b₀ == 100 && 64 ≤ b₁ && b₁ < 128) ||
    (b₀ == 169 && b₁ == 254) || (b₀ == 172 && 16 ≤ b₁ && b₁ < 32) ||
    (b₀ == 192 && b₁ == 0 && (b₂ == 0 || b₂ == 2)) || (b₀ == 192 && b₁ == 88 && b₂ == 99) ||
    (b₀ == 192 && b₁ == 168) || (b₀ == 198 && (b₁ == 18 || b₁ == 19)) ||
    (b₀ == 198 && b₁ == 51 && b₂ == 100) || (b₀ == 203 && b₁ == 0 && b₂ == 113))

/-- `public_v6`: NAT64 and 6to4 addresses are judged by the IPv4 address they carry. -/
def publicV6 (a : BitVec 128) : Bool :=
  let s := segment a
  if s 0 == 0x64 && s 1 == 0xff9b && s 2 == 0 && s 3 == 0 && s 4 == 0 && s 5 == 0 then
    publicV4 (BitVec.ofNat 32 (s 6 * 2 ^ 16 + s 7))
  else if s 0 == 0x2002 then publicV4 (BitVec.ofNat 32 (s 1 * 2 ^ 16 + s 2))
  else
    s 0 / 2 ^ 13 == 1 && !(s 0 == 0x2001 && s 1 < 0x200) && !(s 0 == 0x2001 && s 1 == 0xdb8) &&
      !(s 0 == 0x3fff && s 1 < 0x1000)

def isPublicIp (ip : IpAddr) : Bool :=
  match ip.toCanonical with
  | .v4 a => publicV4 a
  | .v6 a => publicV6 a

/-- Do two addresses agree on the first `bits` of their `w` bits? -/
def samePrefix {w : Nat} (bits : Nat) (n i : BitVec w) : Bool :=
  let m := if bits = 0 then 0 else BitVec.allOnes w <<< (w - bits)
  n &&& m == i &&& m

/-- The network and the prefix length of a text `addr/bits`. -/
def parseCidr (scope : Text) : Option (IpAddr × Nat) := do
  let (net, bits) ← splitOnce '/' scope
  let net ← parseIp (trimEndMatches (· == ']') (net.dropWhile (· == '[')))
  let bits ← parseUnsigned 32 bits
  return (net, bits)

/-- Is the address inside the network of the CIDR?  `none` when the text is no CIDR.
A network written as a mapped address counts its bits from the 96th. -/
def cidrContains (scope : Text) (ip : IpAddr) : Option Bool := do
  let (net, bits) ← parseCidr scope
  let mapped := match net with
    | .v6 n6 => if 96 ≤ bits then toIpv4Mapped n6 else none
    | .v4 _ => none
  match mapped with
  | some n4 =>
    match ip.toCanonical with
    | .v4 i => return bits - 96 ≤ 32 && samePrefix (bits - 96) n4 i
    | .v6 _ => return false
  | none =>
    match net.toCanonical, ip.toCanonical with
    | .v4 n, .v4 i => return bits ≤ 32 && samePrefix bits n i
    | .v6 n, .v6 i => return bits ≤ 128 && samePrefix bits n i
    | _, _ => return false

/-- Does the text of an address lie in the network of the CIDR? -/
def cidrCovers (scope host : Text) : Bool :=
  match parseIp host with
  | some ip => cidrContains scope ip == some true
  | none => false

theorem isAddrChar_of_cidrCovers {scope host : Text} (h : cidrCovers scope host) :
    ∀ c ∈ host, isAddrChar c = true := by
  unfold cidrCovers at h
  split at h
  · rename_i ip hip
    exact isAddrChar_of_parseIp hip
  · cases h

theorem cidrCovers_of_addr {scope : Text} (h : ∀ c ∈ scope, isAddrChar c) (host : Text) :
    cidrCovers scope host = false := by
  have hslash : '/' ∉ scope := fun hm => absurd (h _ hm) (by decide)
  have hcidr : parseCidr scope = none := by
    simp [parseCidr, splitOnce_eq_none_iff.mpr hslash]
  unfold cidrCovers
  split
  · simp [cidrContains, hcidr]
  · rfl

end Synsema.Net
