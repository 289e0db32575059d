import Synsema.Capability.Set
import Synsema.Lib.Except

/-!
# Private destinations

A `net` grant with a wildcard reaches public addresses only; a private one has to be named by every
layer of the set that connects, and by the binding of a secret that travels
(`synsema-capabilities/src/model.rs`, `net_scope_names`, `NetLayers` and `private_dest_message`, and
`synsema-stdlib/src/http_common.rs`, `dest_scope` and `dest_check_with`).

`Names` says what naming a destination is: the port rule, and the exact host, the address, or a
network by its first bits.
-/

namespace Synsema.Capability

open Text Net List

/-! ## The check -/

/-- `net_scope_names`: does the scope name the destination, which resolved to `ip`? -/
def netScopeNames (scope dest : Text) (ip : IpAddr) : Bool :=
  let (gh, gp) := splitNetScope scope
  let (rh, rp) := splitNetScope dest
  if gp.isSome && gp != rp then false
  else
    match cidrContains gh ip with
    | some inside => inside
    | none =>
      if containsAny ['*', '?', '['] gh then false
      else gh == rh || (parseIp gh).any fun g => g.toCanonical == ip.toCanonical

/-- The `net` layers of a set and of its parents. -/
structure NetLayers where
  denied : List Capability
  granted : List Capability
  ceiling : Option (List Capability)
  delegated : List Delegation

/-- The capabilities of `net`. -/
def netOf (caps : List Capability) : List Capability := caps.filter fun c => c.ty == .net

def CapabilitySet.netLayers (s : CapabilitySet) (parents : List CapabilitySet) : NetLayers where
  denied := (s :: parents).flatMap fun s => netOf s.denied
  granted := (s :: parents).flatMap fun s => netOf s.granted
  ceiling := s.ceiling.map netOf
  delegated := s.delegated.map fun d ↦ { d with caps := netOf d.caps, earlier := d.earlier.map netOf }

/-- Does the capability name the destination? -/
def namesDest (dest : Text) (ip : IpAddr) (c : Capability) : Bool :=
  c.scope.any fun g => netScopeNames g dest ip

def NetLayers.admits (l : NetLayers) (dest : Text) (ip : IpAddr) : Except DenyCause Unit :=
  match l.denied.find? (namesDest dest ip) with
  | some d => .error (.explicitlyDenied d)
  | none =>
    if isPublicIp ip then .ok ()
    else if l.ceiling.any fun c => !c.any (namesDest dest ip) then .error .aboveCeiling
    else
      match l.delegated.find? fun d => d.layers.any fun layer => !layer.any (namesDest dest ip) with
      | some d => .error (.delegated d)
      | none => if l.granted.any (namesDest dest ip) then .ok () else .error .noGrant

def privateDestMessage (showIp : IpAddr → Text) (who dest : Text) (ip : IpAddr)
    (cause : DenyCause) : Text :=
  let what := who ++ ": `" ++ (splitNetScope dest).1 ++ "` resolved to " ++
    showIp ip.toCanonical ++ ", a private address"
  match cause with
  | .explicitlyDenied d => what ++ ", explicitly denied by " ++ d.display
  | .aboveCeiling =>
    what ++ "; the host ceiling (--sandbox/--cap-set) reaches only public addresses for it. The program cannot fix this; the host must name it: `--cap-set net=" ++
      dest ++ "`"
  | .delegated d =>
    let ceiling := match d.source with
      | .token id => "delegated ceiling of token " ++ id
      | .block => "enclosing `sandbox under` block"
      | .caller => "ceiling of the program that called run_program"
    what ++ "; the " ++ ceiling ++
      " reaches only public addresses for it: name it there (`net(\"" ++ dest ++
      "\")`)"
  | .isolatedArea _ | .areaInUse _ => what
  | .noGrant =>
    what ++ "; a `net` grant with a wildcard reaches only public addresses. Name it: `require net(\"" ++
      dest ++ "\")`, its address or its CIDR (the scope can come from the configuration: `require net(env(\"…_URL\"))`)"

/-- `dest_scope`: the destination with its port, as `net` is asked for it. -/
def destScope (host : Text) (port : Nat) : Text :=
  let h := toAsciiLowercase (trimEndMatches (· == ']') (host.dropWhile (· == '[')))
  if h.contains ':' then "[" ++ h ++ "]:" ++ digits port
  else h ++ ":" ++ digits port

/-- `dest_check_with`: the layers, and the hosts that the secrets which travel are bound to. -/
def destCheckWith (showIp : IpAddr → Text) (s : CapabilitySet) (parents : List CapabilitySet)
    (bindings : List Text) (who dest : Text) (ip : IpAddr) : Except Text Unit := do
  ((s.netLayers parents).admits dest ip).mapError (privateDestMessage showIp who dest ip)
  if !isPublicIp ip && !bindings.isEmpty && !bindings.any fun b => netScopeNames b dest ip then
    .error (who ++ ": `" ++ (splitNetScope dest).1 ++ "` resolved to " ++
      showIp ip.toCanonical ++ ", a private address; a secret bound to [" ++
      join ", " bindings ++
      "] goes there only if the binding names it (the host exactly, its address or its CIDR)")
  return ()

/-- The hosts that a secret is bound to, of which there is one at least. -/
abbrev Binding := { hosts : List Text // hosts ≠ [] }

/-- `Outgoing::bindings`: the hosts of the bindings of the secrets that travel, each once. -/
def outgoingBindings (secrets : List Binding) : List Text :=
  secrets.foldl (fun all b => b.1.foldl (fun all h => if h ∈ all then all else all ++ [h]) all) []

/-! ## Naming a destination -/

/-- The network that is compared, and its bits: a mapped IPv4 network counts from the 96th bit. -/
def comparedNetwork (net : IpAddr) (bits : Nat) : IpAddr × Nat :=
  match net with
  | .v4 n => (.v4 n, bits)
  | .v6 n6 =>
    match toIpv4Mapped n6 with
    | some n4 => (.v4 n4, if 96 ≤ bits then bits - 96 else bits)
    | none => (.v6 n6, bits)

/-- The address has the first bits of the network. -/
def InNetwork (net : IpAddr) (bits : Nat) (ip : IpAddr) : Prop :=
  match comparedNetwork net bits, ip.toCanonical with
  | (.v4 n, b), .v4 i => b ≤ 32 ∧ n.toNat / 2 ^ (32 - b) = i.toNat / 2 ^ (32 - b)
  | (.v6 n, b), .v6 i => b ≤ 128 ∧ n.toNat / 2 ^ (128 - b) = i.toNat / 2 ^ (128 - b)
  | _, _ => False

/-- The scope names the destination: its port is that of the destination, or it has none, and it is
a network with the address, or without a wildcard the host itself or the address. -/
def Names (scope dest : Text) (ip : IpAddr) : Prop :=
  ((splitNetScope scope).2 = none ∨ (splitNetScope scope).2 = (splitNetScope dest).2) ∧
    ((∃ net bits, parseCidr (splitNetScope scope).1 = some (net, bits) ∧ InNetwork net bits ip) ∨
      parseCidr (splitNetScope scope).1 = none ∧
        (∀ c ∈ ['*', '?', '['], c ∉ (splitNetScope scope).1) ∧
        ((splitNetScope scope).1 = (splitNetScope dest).1 ∨
          ∃ a, parseIp (splitNetScope scope).1 = some a ∧ a.toCanonical = ip.toCanonical))

theorem samePrefix_iff {w bits : Nat} (n i : BitVec w) :
    samePrefix bits n i ↔ n.toNat / 2 ^ (w - bits) = i.toNat / 2 ^ (w - bits) := by
  have hmask (j : Nat) (hj : j < w) :
      (if bits = 0 then 0 else BitVec.allOnes w <<< (w - bits)).getLsbD j =
        decide (w - bits ≤ j) := by
    split
    · rename_i hzero
      rw [hzero, Nat.sub_zero, decide_eq_false (Nat.not_le.mpr hj)]
      exact BitVec.getLsbD_zero
    · rw [BitVec.getLsbD_shiftLeft, BitVec.getLsbD_allOnes]
      by_cases hle : w - bits ≤ j
      · have hsub : j - (w - bits) < w := by omega
        simp [hj, hle, hsub, Nat.not_lt.mpr hle]
      · simp [hle, Nat.lt_of_not_le hle]
  unfold samePrefix
  dsimp only
  rw [beq_iff_eq]
  constructor
  · intro h
    refine Nat.eq_of_testBit_eq fun j => ?_
    rw [Nat.testBit_div_two_pow, Nat.testBit_div_two_pow]
    by_cases hj : j + (w - bits) < w
    · have hbit := congrArg (fun v => v.getLsbD (j + (w - bits))) h
      simp only [BitVec.getLsbD_and, hmask _ hj, Nat.le_add_left, decide_true, Bool.and_true] at hbit
      exact hbit
    · rw [BitVec.testBit_toNat, BitVec.testBit_toNat, BitVec.getLsbD_of_ge _ _ (Nat.le_of_not_lt hj),
        BitVec.getLsbD_of_ge _ _ (Nat.le_of_not_lt hj)]
  · intro h
    refine BitVec.eq_of_getLsbD_eq fun j hj => ?_
    rw [BitVec.getLsbD_and, BitVec.getLsbD_and, hmask j hj]
    by_cases hle : w - bits ≤ j
    · have hbit := congrArg (fun v => v.testBit (j - (w - bits))) h
      simp only [Nat.testBit_div_two_pow, Nat.sub_add_cancel hle, BitVec.testBit_toNat] at hbit
      rw [hbit]
    · simp [hle]

variable {scope dest : Text} {ip : IpAddr}

theorem cidrContains_iff :
    cidrContains scope ip = some true ↔
      ∃ net bits, parseCidr scope = some (net, bits) ∧ InNetwork net bits ip := by
  unfold cidrContains
  cases hcidr : parseCidr scope with
  | none => simp
  | some nb =>
    obtain ⟨net, bits⟩ := nb
    simp only [Option.bind_eq_bind, Option.bind_some, Option.some.injEq, Prod.mk.injEq]
    rw [show (∃ net' bits', (net = net' ∧ bits = bits') ∧ InNetwork net' bits' ip) ↔
      InNetwork net bits ip from
        ⟨fun ⟨_, _, ⟨hn, hb⟩, h⟩ => hn ▸ hb ▸ h, fun h => ⟨net, bits, ⟨rfl, rfl⟩, h⟩⟩]
    unfold InNetwork comparedNetwork
    cases net with
    | v4 n =>
      cases ip.toCanonical with
      | v4 i => simp [show (IpAddr.v4 n).toCanonical = .v4 n from rfl, samePrefix_iff]
      | v6 i => simp [show (IpAddr.v4 n).toCanonical = .v4 n from rfl]
    | v6 n6 =>
      cases hmapped : toIpv4Mapped n6 with
      | none =>
        cases ip.toCanonical with
        | v4 i => simp [IpAddr.toCanonical, hmapped]
        | v6 i => simp [IpAddr.toCanonical, hmapped, samePrefix_iff]
      | some n4 =>
        by_cases hbits : 96 ≤ bits
        · cases ip.toCanonical with
          | v4 i => simp [hmapped, hbits, samePrefix_iff]
          | v6 i => simp [hmapped, hbits]
        · cases ip.toCanonical with
          | v4 i => simp [IpAddr.toCanonical, hmapped, hbits, samePrefix_iff]
          | v6 i => simp [IpAddr.toCanonical, hmapped, hbits]

theorem cidrContains_eq_none :
    cidrContains scope ip = none ↔ parseCidr scope = none := by
  unfold cidrContains
  cases hcidr : parseCidr scope with
  | none => simp
  | some nb =>
    simp only [Option.bind_eq_bind, Option.bind_some, reduceCtorEq, iff_false]
    split
    · split <;> exact nofun
    · split <;> exact nofun

theorem netScopeNames_iff :
    netScopeNames scope dest ip ↔ Names scope dest ip := by
  unfold netScopeNames Names
  generalize splitNetScope scope = g
  generalize splitNetScope dest = r
  obtain ⟨gh, gp⟩ := g
  obtain ⟨rh, rp⟩ := r
  dsimp only
  have hport : (gp.isSome && gp != rp) = false ↔ gp = none ∨ gp = rp := by
    cases gp with
    | none | some p => simp
  by_cases hp : (gp.isSome && gp != rp) = true
  · rw [hp, if_pos rfl]
    have hnot : ¬ (gp = none ∨ gp = rp) := fun h => by
      rw [hport.mpr h] at hp
      cases hp
    simp [hnot]
  · rw [Bool.eq_false_iff.mpr hp, if_neg Bool.false_ne_true,
      and_iff_right (hport.mp (Bool.eq_false_iff.mpr hp)), ← cidrContains_iff]
    cases hcidr : cidrContains gh ip with
    | some inside =>
      have hsome : parseCidr gh ≠ none := fun h => by
        rw [cidrContains_eq_none.mpr h] at hcidr
        cases hcidr
      simp [hsome]
    | none =>
      rw [cidrContains_eq_none] at hcidr
      simp only [hcidr, reduceCtorEq, false_or, true_and]
      have hwild : containsAny ['*', '?', '['] gh = true ↔ ∃ c ∈ ['*', '?', '['], c ∈ gh := by
        rw [containsAny, any_eq_true]
        constructor
        · rintro ⟨c, hc, hw⟩
          exact ⟨c, by simpa using hw, hc⟩
        · rintro ⟨c, hw, hc⟩
          exact ⟨c, hc, by simpa using hw⟩
      cases hw : containsAny ['*', '?', '['] gh with
      | true =>
        obtain ⟨c, hc, hmem⟩ := hwild.mp hw
        exact ⟨(fun h => by cases h), fun h => absurd hmem (h.1 c hc)⟩
      | false =>
        have hfree : ∀ c ∈ ['*', '?', '['], c ∉ gh := fun c hc hmem => by
          rw [hwild.mpr ⟨c, hc, hmem⟩] at hw
          cases hw
        rw [if_neg Bool.false_ne_true, Bool.or_eq_true, beq_iff_eq, and_iff_right hfree]
        simp [Option.any_eq_true]

/-! ## The address that is carried -/

/-- The IPv4 address that an address is, is mapped from, or carries for NAT64 or 6to4. -/
def carriedV4 (ip : IpAddr) : Option (BitVec 32) :=
  match ip.toCanonical with
  | .v4 a => some a
  | .v6 a =>
    let s := segment a
    if s 0 = 0x64 ∧ s 1 = 0xff9b ∧ s 2 = 0 ∧ s 3 = 0 ∧ s 4 = 0 ∧ s 5 = 0 then
      some (BitVec.ofNat 32 (s 6 * 2 ^ 16 + s 7))
    else if s 0 = 0x2002 then some (BitVec.ofNat 32 (s 1 * 2 ^ 16 + s 2))
    else none

/-- Does the scope name the destination, or what the address carries? -/
def NamesCarried (scope dest : Text) (ip : IpAddr) : Prop :=
  Names scope dest ip ∨ ∃ a, carriedV4 ip = some a ∧ Names scope dest (.v4 a)

/-! ## The layers -/

/-- A layer names the destination by one of its capabilities. -/
def LayerNames (layer : List Capability) (dest : Text) (ip : IpAddr) : Prop :=
  ∃ c ∈ layer, ∃ g, c.scope = some g ∧ Names g dest ip

theorem any_namesDest_iff {layer : List Capability} :
    layer.any (namesDest dest ip) ↔ LayerNames layer dest ip := by
  rw [any_eq_true]
  refine exists_congr fun c => and_congr_right fun _ => ?_
  rw [namesDest, Option.any_eq_true]
  exact exists_congr fun g => and_congr_right fun _ => netScopeNames_iff

/-- The ceiling, the delegated layers and the grants name the destination. -/
structure NetLayers.AllName (l : NetLayers) (dest : Text) (ip : IpAddr) : Prop where
  ceiling : ∀ c, l.ceiling = some c → LayerNames c dest ip
  delegated : ∀ d ∈ l.delegated, ∀ layer ∈ d.layers, LayerNames layer dest ip
  granted : LayerNames l.granted dest ip

variable {l : NetLayers} {secrets : List Binding} {parents : List CapabilitySet}
  {s : CapabilitySet} {a b : List Capability}

theorem NetLayers.admits_iff :
    l.admits dest ip = .ok () ↔
      ¬ LayerNames l.denied dest ip ∧ (isPublicIp ip = false → l.AllName dest ip) := by
  unfold NetLayers.admits
  cases hden : l.denied.find? (namesDest dest ip) with
  | some d =>
    have hnames : LayerNames l.denied dest ip :=
      any_namesDest_iff.mp (any_eq_true.mpr
        ⟨d, mem_of_find?_eq_some hden, find?_some hden⟩)
    simp [hnames]
  | none =>
    have hfree : ¬ LayerNames l.denied dest ip := by
      rw [← any_namesDest_iff, any_eq_true]
      rintro ⟨d, hd, hn⟩
      exact find?_eq_none.mp hden d hd hn
    rw [and_iff_right hfree]
    cases hpub : isPublicIp ip with
    | true => simp
    | false =>
      dsimp only
      rw [if_neg Bool.false_ne_true, forall_prop_of_true rfl]
      have hceil : (l.ceiling.any fun c => !c.any (namesDest dest ip)) = false ↔
          ∀ c, l.ceiling = some c → LayerNames c dest ip := by
        cases l.ceiling with
        | none => simp
        | some c => simp [← any_namesDest_iff]
      split
      · rename_i habove
        refine ⟨nofun, fun h => ?_⟩
        rw [hceil.mpr h.ceiling] at habove
        cases habove
      · rename_i hbelow
        have hc := hceil.mp (Bool.eq_false_iff.mpr hbelow)
        have hlayer {d : Delegation} :
            (d.layers.any fun layer => !layer.any (namesDest dest ip)) = false ↔
              ∀ layer ∈ d.layers, LayerNames layer dest ip := by
          simp [← any_namesDest_iff]
        split
        · rename_i d hd
          refine ⟨nofun, fun h => ?_⟩
          have hnot := find?_some hd
          rw [hlayer.mpr (h.delegated d (mem_of_find?_eq_some hd))] at hnot
          cases hnot
        · rename_i hnone
          have hd : ∀ d ∈ l.delegated, ∀ layer ∈ d.layers, LayerNames layer dest ip :=
            fun d hd => hlayer.mp (Bool.eq_false_iff.mpr (find?_eq_none.mp hnone d hd))
          rw [← any_namesDest_iff.trans ⟨fun h => (⟨hc, hd, h⟩ : l.AllName dest ip), (·.granted)⟩]
          cases l.granted.any (namesDest dest ip) <;> simp

theorem mem_outgoingBindings {h : Text} :
    h ∈ outgoingBindings secrets ↔ ∃ b ∈ secrets, h ∈ b.1 := by
  have hpush (hosts all : List Text) :
      h ∈ hosts.foldl (fun all h => if h ∈ all then all else all ++ [h]) all ↔
        h ∈ all ∨ h ∈ hosts := by
    induction hosts generalizing all with
    | nil => simp
    | cons x hosts ih =>
      rw [foldl_cons, ih]
      split
      · rename_i hx
        rw [List.mem_cons]
        exact ⟨fun h => h.imp_right .inr, fun h => h.elim .inl fun h =>
          h.elim (fun heq => .inl (heq ▸ hx)) .inr⟩
      · simp [or_assoc]
  have hfold (all : List Text) :
      h ∈ secrets.foldl (fun all b => b.1.foldl (fun all h =>
          if h ∈ all then all else all ++ [h]) all) all ↔ h ∈ all ∨ ∃ b ∈ secrets, h ∈ b.1 := by
    induction secrets generalizing all with
    | nil => simp
    | cons b secrets ih => rw [foldl_cons, ih, hpush]; simp [or_assoc]
  exact (hfold []).trans (by simp)

/-- The binding names the destination. -/
def BindingNames (b : Binding) (dest : Text) (ip : IpAddr) : Prop := ∃ h ∈ b.1, Names h dest ip

theorem destCheckWith_iff {showIp : IpAddr → Text} {who : Text} :
    destCheckWith showIp s parents (outgoingBindings secrets) who dest ip = .ok () ↔
      (s.netLayers parents).admits dest ip = .ok () ∧
        (isPublicIp ip = false → secrets = [] ∨ ∃ b ∈ secrets, BindingNames b dest ip) := by
  have hnil : (outgoingBindings secrets).isEmpty = true ↔ secrets = [] := by
    rw [List.isEmpty_iff, eq_nil_iff_forall_not_mem]
    refine ⟨fun h => ?_, fun h => by simp [mem_outgoingBindings, h]⟩
    cases secrets with
    | nil => rfl
    | cons b secrets =>
      obtain ⟨x, hosts, hb⟩ := exists_cons_of_ne_nil b.2
      exact absurd (mem_outgoingBindings.mpr ⟨b, mem_cons_self, by simp [hb]⟩) (h x)
  have hany : ((outgoingBindings secrets).any fun b => netScopeNames b dest ip) = true ↔
      ∃ b ∈ secrets, BindingNames b dest ip := by
    simp only [any_eq_true, mem_outgoingBindings, netScopeNames_iff, BindingNames]
    exact ⟨fun ⟨h, ⟨b, hb, hh⟩, hn⟩ => ⟨b, hb, h, hh, hn⟩,
      fun ⟨b, hb, h, hh, hn⟩ => ⟨h, ⟨b, hb, hh⟩, hn⟩⟩
  unfold destCheckWith
  simp only [Except.bind_eq_ok, Except.mapError_eq_ok]
  have hbound : (!isPublicIp ip && !(outgoingBindings secrets).isEmpty &&
      !(outgoingBindings secrets).any fun b => netScopeNames b dest ip) = false ↔
        (isPublicIp ip = false → secrets = [] ∨ ∃ b ∈ secrets, BindingNames b dest ip) := by
    rw [← hnil, ← hany]
    cases isPublicIp ip
    · cases (outgoingBindings secrets).isEmpty
      · simp
      · simp
    · simp
  rw [← hbound]
  constructor
  · rintro ⟨_, hadmits, hrest⟩
    refine ⟨hadmits, ?_⟩
    split at hrest
    · cases hrest
    · rename_i hok
      exact Bool.eq_false_iff.mpr hok
  · rintro ⟨hadmits, hok⟩
    refine ⟨(), hadmits, ?_⟩
    rw [hok]
    rfl

/-! ## Every layer, and every secret -/

/-- What an admitted connection promises: no denial names the destination or what its address
carries, and a private destination is named by the ceiling, every delegated layer, a grant, and
the binding of every secret that travels. -/
def NamedByAll (showIp : IpAddr → Text) (s : CapabilitySet) (parents : List CapabilitySet)
    (secrets : List Binding) (who dest : Text) (ip : IpAddr) : Prop :=
  destCheckWith showIp s parents (outgoingBindings secrets) who dest ip = .ok () →
    (∀ c ∈ (s.netLayers parents).denied, ∀ g, c.scope = some g → ¬ NamesCarried g dest ip) ∧
      (isPublicIp ip = false →
        (s.netLayers parents).AllName dest ip ∧ ∀ b ∈ secrets, BindingNames b dest ip)

/-- One more denial, ceiling or delegation. -/
inductive Tightens : CapabilitySet → List CapabilitySet → CapabilitySet → List CapabilitySet → Prop
  | deny (s : CapabilitySet) (parents : List CapabilitySet) (c : Capability) :
      Tightens s parents (s.deny c) parents
  | denyAbove (s p : CapabilitySet) (below above : List CapabilitySet) (c : Capability) :
      Tightens s (below ++ p :: above) s (below ++ p.deny c :: above)
  | ceiling (s : CapabilitySet) (parents : List CapabilitySet) (caps : List Capability)
      (h : s.ceiling = none) : Tightens s parents { s with ceiling := some caps } parents
  | delegation (s : CapabilitySet) (parents : List CapabilitySet) (d : Delegation) :
      Tightens s parents (s.pushDelegation d) parents

theorem subset_insertCap (c : Capability) (set : CapSet) : set ⊆ insertCap c set := by
  induction set with
  | nil => exact nil_subset _
  | cons x set ih =>
    unfold insertCap
    split
    · exact subset_cons_self c (x :: set)
    · exact List.Subset.refl _
    · exact cons_subset_cons x ih

theorem netOf_subset (h : a ⊆ b) : netOf a ⊆ netOf b :=
  filter_subset _ h

theorem LayerNames.mono (h : a ⊆ b) : LayerNames a dest ip → LayerNames b dest ip :=
  fun ⟨c, hc, hn⟩ => ⟨c, h hc, hn⟩

theorem NetLayers.admits_mono {l' : NetLayers} (hden : l.denied ⊆ l'.denied)
    (hceil : ∀ c, l.ceiling = some c → l'.ceiling = some c) (hdel : l.delegated ⊆ l'.delegated)
    (hgranted : l'.granted = l.granted) (h : l'.admits dest ip = .ok ()) :
    l.admits dest ip = .ok () := by
  rw [NetLayers.admits_iff] at h ⊢
  refine ⟨fun hn => h.1 (hn.mono hden), fun hpriv => ?_⟩
  have hall := h.2 hpriv
  exact ⟨fun c hc => hall.ceiling c (hceil c hc), fun d hd => hall.delegated d (hdel hd),
    hgranted ▸ hall.granted⟩

theorem Tightens.admits {s' : CapabilitySet} {parents' : List CapabilitySet}
    (h : Tightens s parents s' parents') (hadm : (s'.netLayers parents').admits dest ip = .ok ()) :
    (s.netLayers parents).admits dest ip = .ok () := by
  cases h with
  | deny _ c =>
    refine NetLayers.admits_mono ?_ ?_ ?_ ?_ hadm
    · exact append_subset.mpr
        ⟨subset_append_of_subset_left _ (netOf_subset (subset_insertCap c s.denied)),
          subset_append_right _ _⟩
    · exact fun _ h => h
    · exact List.Subset.refl _
    · rfl
  | denyAbove p below above c =>
    refine NetLayers.admits_mono ?_ ?_ ?_ ?_ hadm
    · intro x hx
      simp only [CapabilitySet.netLayers, mem_flatMap, List.mem_cons, mem_append] at hx ⊢
      obtain ⟨q, hq, hx⟩ := hx
      rcases hq with rfl | hq | rfl | hq
      · exact ⟨q, .inl rfl, hx⟩
      · exact ⟨q, .inr (.inl hq), hx⟩
      · exact ⟨q.deny c, .inr (.inr (.inl rfl)), netOf_subset (subset_insertCap c q.denied) hx⟩
      · exact ⟨q, .inr (.inr (.inr hq)), hx⟩
    · exact fun _ h => h
    · exact List.Subset.refl _
    · simp only [CapabilitySet.netLayers, flatMap_cons, flatMap_append]
      rfl
  | ceiling _ caps hnone =>
    refine NetLayers.admits_mono ?_ ?_ ?_ ?_ hadm
    · exact List.Subset.refl _
    · intro c h
      rw [CapabilitySet.netLayers, hnone] at h
      cases h
    · exact List.Subset.refl _
    · rfl
  | delegation _ d =>
    refine NetLayers.admits_mono ?_ ?_ ?_ ?_ hadm
    · exact List.Subset.refl _
    · exact fun _ h => h
    · exact map_subset _ (subset_append_left _ _)
    · rfl

/-- Where the layers name a destination, the check asks for less than is promised in two places:
what a denial names in an address that carries another, and the bindings of several secrets, of
which one is enough. -/
def CarriedAndBound (s : CapabilitySet) (parents : List CapabilitySet) (secrets : List Binding)
    (dest : Text) (ip : IpAddr) : Prop :=
  ¬ LayerNames (s.netLayers parents).denied dest ip →
    (isPublicIp ip = false → (s.netLayers parents).AllName dest ip) →
      ((isPublicIp ip = false → secrets = [] ∨ ∃ b ∈ secrets, BindingNames b dest ip) →
        ∀ c ∈ (s.netLayers parents).denied, ∀ g, c.scope = some g →
          ∀ a, carriedV4 ip = some a → ¬ Names g dest (.v4 a)) ∧
        (isPublicIp ip = false → (∃ b ∈ secrets, BindingNames b dest ip) →
          ∀ b ∈ secrets, BindingNames b dest ip)

/-- **When every layer and every secret name a private destination.** -/
theorem namedByAll_iff (showIp : IpAddr → Text) (s : CapabilitySet) (parents : List CapabilitySet)
    (secrets : List Binding) (who dest : Text) (ip : IpAddr) :
    (NamedByAll showIp s parents secrets who dest ip ↔ CarriedAndBound s parents secrets dest ip) ∧
      (∀ s' parents', Tightens s parents s' parents' →
        destCheckWith showIp s' parents' (outgoingBindings secrets) who dest ip = .ok () →
          destCheckWith showIp s parents (outgoingBindings secrets) who dest ip = .ok ()) ∧
      ∀ b : Binding,
        ((destCheckWith showIp s parents (outgoingBindings (b :: secrets)) who dest ip = .ok () →
            destCheckWith showIp s parents (outgoingBindings secrets) who dest ip = .ok ()) ↔
          ((s.netLayers parents).admits dest ip = .ok () → isPublicIp ip = false →
            BindingNames b dest ip → secrets = [] ∨ ∃ b' ∈ secrets, BindingNames b' dest ip)) := by
  refine ⟨?_, ?_, ?_⟩
  · unfold NamedByAll
    rw [destCheckWith_iff, NetLayers.admits_iff]
    constructor
    · intro h hden hall
      refine ⟨fun hbound c hc g hg a ha hn => ?_, fun hpriv hsome => ?_⟩
      · exact (h ⟨⟨hden, hall⟩, hbound⟩).1 c hc g hg (.inr ⟨a, ha, hn⟩)
      · exact ((h ⟨⟨hden, hall⟩, fun _ => .inr hsome⟩).2 hpriv).2
    · rintro h ⟨⟨hden, hall⟩, hbound⟩
      obtain ⟨hcarried, hagree⟩ := h hden hall
      refine ⟨fun c hc g hg => ?_, fun hpriv => ⟨hall hpriv, ?_⟩⟩
      · rintro (hn | ⟨a, ha, hn⟩)
        · exact hden ⟨c, hc, g, hg, hn⟩
        · exact hcarried hbound c hc g hg a ha hn
      · rcases hbound hpriv with rfl | hsome
        · exact forall_mem_nil _
        · exact hagree hpriv hsome
  · intro s' parents' htight
    rw [destCheckWith_iff, destCheckWith_iff]
    exact fun h => ⟨htight.admits h.1, h.2⟩
  · intro b
    rw [destCheckWith_iff, destCheckWith_iff]
    constructor
    · intro h hadm hpriv hb
      exact (h ⟨hadm, fun _ => .inr ⟨b, mem_cons_self, hb⟩⟩).2 hpriv
    · rintro h ⟨hadm, hbound⟩
      refine ⟨hadm, fun hpriv => ?_⟩
      rcases hbound hpriv with hnil | ⟨b', hb', hn⟩
      · cases hnil
      · rcases List.mem_cons.mp hb' with rfl | hb'
        · exact h hadm hpriv hn
        · exact .inr ⟨b', hb', hn⟩

/-! ## Two secrets at a private host -/

/-- A program that named `db.corp`. -/
def corpSet : CapabilitySet :=
  { CapabilitySet.empty "main" with granted := [⟨.net, some "db.corp".toList⟩] }

/-- A secret bound to `*.corp` and one bound to `db.corp` travel to `db.corp`, which resolved to
10.0.0.5; the first binding does not name it. -/
theorem not_namedByAll :
    ¬ ∀ (showIp : IpAddr → Text) (s : CapabilitySet) (parents : List CapabilitySet)
      (secrets : List Binding) (who dest : Text) (ip : IpAddr),
      NamedByAll showIp s parents secrets who dest ip := by
  intro h
  have hnamed := h (fun _ => []) corpSet [] [⟨["*.corp"], by decide⟩,
    ⟨["db.corp"], by decide⟩] [] (destScope "db.corp" 443) (.v4 0x0a000005#32)
    (by decide)
  obtain ⟨g, hg, hn⟩ := (hnamed.2 (by decide)).2 _ mem_cons_self
  rw [mem_singleton] at hg
  subst hg
  rw [← netScopeNames_iff] at hn
  exact absurd hn (by decide)

end Synsema.Capability
