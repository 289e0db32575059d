import Synsema.Btc.Address

/-!
# The plan of a transaction

What `btc_tx`, `btc_tx_raw` and `psbt_encode` make of their parameters (`build_plan` of
`synsema-stdlib/src/blockchain_btc.rs`): every field is checked, and then the amounts of the inputs
are to be those of the outputs and the fee.

The amounts are added in 64 bits, and in the release build `Iterator::sum` wraps around.  So what
is checked holds up to a multiple of `2 ^ 64` on either side: every satoshi is accounted for just if
these multiples are the same (`accounted_iff`).
-/

namespace Synsema.Btc

open Text Bytesutil

/-! ## Values -/

/-- `SynValue`, as far as the plan looks at it; the secrets are `σ`. -/
inductive SynValue (σ : Type) where
  | number (n : Number)
  | text (t : Text)
  | bool (b : Bool)
  | nothing
  | bytes (b : Bytes)
  | secret (s : σ)
  | list (items : List (SynValue σ))
  | map (entries : List (Text × SynValue σ))
  | other (typeName : Text)

def SynValue.typeName {σ : Type} : SynValue σ → Text
  | number (.decimal _) | number (.bigDec ..) => "decimal"
  | number _ => "number"
  | text _ => "text"
  | bool _ => "bool"
  | nothing => "nothing"
  | bytes _ => "bytes"
  | secret _ => "secret"
  | list _ => "list"
  | map _ => "map"
  | other name => name

/-- `SynMap`, in the order of its keys. -/
abbrev SynMap (σ : Type) := List (Text × SynValue σ)

def isInteger : Number → Bool
  | .int _ | .big _ => true
  | _ => false

/-- `to_i64_trunc` of an integer. -/
def toI64 : Number → Option Int
  | .int i => some i.toInt
  | .big b => if -2 ^ 63 ≤ b ∧ b < 2 ^ 63 then some b else none
  | _ => none

/-! ## Fields -/

def maxSats : Int := 2100000000000000

section Fields

variable {σ : Type} (c : Crypto σ)

def Network.parse (v : Option (SynValue σ)) (fname : Text) : Except Text Network :=
  match v with
  | none | some .nothing => .ok .mainnet
  | some (.text s) =>
    if s = "mainnet" then .ok .mainnet
    else if s = "testnet" then .ok .testnet
    else if s = "signet" then .ok .signet
    else if s = "regtest" then .ok .regtest
    else .error (fname ++ ": unknown network " ++ c.debug s ++
      "; use \"mainnet\", \"testnet\", \"signet\" or \"regtest\"")
  | some other => .error (fname ++ ": the network must be text, got " ++ other.typeName)

def satsField (v : Option (SynValue σ)) (what fname : Text) (min : Int) : Except Text UInt64 :=
  match v with
  | some (.number n) =>
    if !isInteger n then
      .error (fname ++ ": " ++ what ++ (" must be an EXACT integer number of sats — never " ++
        "a float or a decimal BTC amount (1 BTC = 100_000_000 sats; convert explicitly)").toList)
    else
      match toI64 n with
      | none => .error (fname ++ ": " ++ what ++ " is out of range (max " ++
          digits maxSats.toNat ++ " sats = 21M BTC)")
      | some i =>
        if i < min ∨ i > maxSats then
          .error (fname ++ ": " ++ what ++ " must be between " ++
            (toString min).toList ++ " and " ++ digits maxSats.toNat ++
            " sats (21M BTC), got " ++ (toString i).toList)
        else .ok (.ofNat i.toNat)
  | some other => .error (fname ++ ": " ++ what ++
      " must be an integer amount in SATS, got " ++ other.typeName)
  | none => .error (fname ++ ": missing " ++ what ++
      " — amounts are explicit, in sats")

/-- A field that is an integer of 32 bits, with the errors it makes. -/
def u32Field (n : Number) (error : Text) : Except Text UInt32 :=
  match toI64 n with
  | some v => if isInteger n ∧ 0 ≤ v ∧ v ≤ 4294967295 then .ok (.ofNat v.toNat) else .error error
  | none => .error error

/-- `params.get("locktime")`. -/
def locktimeField (v : Option (SynValue σ)) (fname : Text) : Except Text UInt32 :=
  match v with
  | none | some .nothing => .ok 0
  | some (.number n) =>
    u32Field n (fname ++ ": \"locktime\" must be an integer 0..=4294967295")
  | some other =>
    .error (fname ++ ": \"locktime\" must be a number, got " ++ other.typeName)

/-- A field that is true or false. -/
def boolField (v : Option (SynValue σ)) (key fname : Text) (default : Bool) : Except Text Bool :=
  match v with
  | none | some .nothing => .ok default
  | some (.bool b) => .ok b
  | some other => .error (fname ++ ": \"" ++ key ++ "\" must be true or false, got " ++
      other.typeName)

/-- `params.get("rbf")`. -/
def rbfField (v : Option (SynValue σ)) (fname : Text) : Except Text Bool :=
  boolField v "rbf" fname true

/-- `params.get("allow_absurd_fee")`. -/
def allowAbsurdFeeField (v : Option (SynValue σ)) (fname : Text) : Except Text Bool :=
  boolField v "allow_absurd_fee" fname false

/-- `params.get("fee")`. -/
def feeField (v : Option (SynValue σ)) (fname : Text) : Except Text UInt64 :=
  match v with
  | some v => satsField (some v) "\"fee\"" fname 0
  | none => .error (fname ++ (": missing \"fee\" — in UTXO the fee is IMPLICIT (inputs − outputs) " ++
      "and forgetting the change output donates the remainder to miners; here the fee is DECLARED " ++
      "and every satoshi must be accounted for (G28). Read rates with btc_fee_estimates(url) and " ++
      "state the fee").toList)

def txidField (v : Option (SynValue σ)) (what fname : Text) : Except Text Hash :=
  match v with
  | some (.text s) =>
    let bad : Text := fname ++ ": " ++ what ++
      " must be 64 hex characters (the txid as explorers show it)"
    if s.length ≠ 64 then .error bad
    else
      match Abi.hexPairs s with
      | none => .error bad
      | some b => if h : b.length = 32 then .ok ⟨b, h⟩ else .error bad
  | some (.bytes b) =>
    if h : b.length = 32 then .ok ⟨b, h⟩
    else .error (fname ++ ": " ++ what ++ " must be 32 bytes, got " ++
      digits b.length)
  | some other => .error (fname ++ ": " ++ what ++
      " must be a 64-hex text or 32 bytes, got " ++ other.typeName)
  | none => .error (fname ++ ": missing " ++ what)

def mapOf (v : SynValue σ) (what fname : Text) : Except Text (SynMap σ) :=
  match v with
  | .map m => .ok m
  | other => .error (fname ++ ": " ++ what ++ " must be a map, got " ++
      other.typeName)

def listOf (v : Option (SynValue σ)) (what fname : Text) : Except Text (List (SynValue σ)) :=
  match v with
  | some (.list l) => .ok l
  | some other => .error (fname ++ ": " ++ what ++ " must be a list, got " ++
      other.typeName)
  | none => .error (fname ++ ": missing " ++ what)

/-- The `address` of an input or of an output. -/
def addressField (v : Option (SynValue σ)) (what missing fname : Text) : Except Text Text :=
  match v with
  | some (.text s) => .ok s
  | some other => .error (fname ++ ": " ++ what ++ ".address must be text, got " ++
      other.typeName)
  | none => .error (fname ++ ": " ++ what ++ missing)

/-- Every key is one that is known. -/
def checkKeys (m : SynMap σ) (known : List Text) (error : Text → Text) : Except Text Unit :=
  match m.find? fun e => !known.contains e.1 with
  | some e => .error (error e.1)
  | none => .ok ()

end Fields

/-! ## Public keys -/

section Keys

variable {σ : Type} (c : Crypto σ)

def compressedPubkey (v : SynValue σ) (fname : Text) : Except Text Bytes :=
  match v with
  | .secret s => do
    let key ← c.keyMaterial s fname
    match c.publicKey key with
    | some pk => .ok pk
    | none => .error (fname ++ (": the private key must be 32 bytes of valid secp256k1 scalar " ++
        "(the key value is never shown)").toList)
  | .bytes b =>
    if b.length = 33 then
      if c.validPoint b then .ok b
      else .error (fname ++ ": the public key is not a valid secp256k1 point")
    else if b.length = 65 then
      .error (fname ++ (": got an uncompressed (65-byte) public key — Bitcoin segwit addresses " ++
        "require the compressed 33-byte form (an uncompressed key hashes to a DIFFERENT " ++
        "address)").toList)
    else .error (fname ++ ": the public key must be 33 bytes compressed (or a key secret), got "
      ++ digits b.length)
  | other => .error (fname ++ ": expected a public key (bytes) or a key secret, got " ++
      other.typeName)

def xonlyPubkey (v : SynValue σ) (fname : Text) : Except Text Bytes :=
  match v with
  | .secret s => do
    let key ← c.keyMaterial s fname
    match c.schnorrKey key with
    | some x => .ok x.1
    | none => .error (fname ++ (": the private key must be 32 bytes of valid secp256k1 scalar " ++
        "(the key value is never shown)").toList)
  | .bytes b =>
    if b.length = 32 then .ok b else (compressedPubkey c (.bytes b) fname).map (List.drop 1)
  | other => (compressedPubkey c other fname).map (List.drop 1)

end Keys

/-! ## Inputs and outputs -/

structure PlanInput where
  txidDisplay : Hash
  vout : UInt32
  amount : UInt64
  address : Text
  kind : AddrKind
  program : Bytes
  pubkey : Option Bytes

/-- The output that an input spends. -/
def PlanInput.outpoint (i : PlanInput) : Hash × UInt32 := (i.txidDisplay, i.vout)

structure PlanOutput where
  amount : UInt64
  address : Text
  kind : AddrKind
  script : Bytes

structure Plan where
  network : Network
  rbf : Bool
  locktime : UInt32
  inputs : List PlanInput
  outputs : List PlanOutput
  fee : UInt64
  allowAbsurdFee : Bool

section Build

variable {σ : Type} (c : Crypto σ) (network : Network) (fname : Text)

/-- The `vout` of an input. -/
def voutField (v : Option (SynValue σ)) (what : Text) : Except Text UInt32 :=
  match v with
  | some (.number n) =>
    u32Field n (fname ++ ": " ++ what ++ ".vout must be an integer 0..=4294967295")
  | some other => .error (fname ++ ": " ++ what ++ ".vout must be a number, got " ++
      other.typeName)
  | none => .error (fname ++ ": " ++ what ++ " is missing \"vout\"")

/-- The `amount` of an input. -/
def amountField (v : Option (SynValue σ)) (what : Text) : Except Text UInt64 :=
  match v with
  | some v => satsField (some v) (what ++ ".amount") fname 1
  | none => .error (fname ++ ": " ++ what ++ (" is missing \"amount\" — BIP-143/341 SIGN the " ++
      "input amounts (the anti-blind-signing protection); read your UTXOs with btc_utxos(url, " ++
      "address)").toList)

/-- The `pubkey` of an input, which its address asks for. -/
def pubkeyField (v : Option (SynValue σ)) (dec : DecodedAddr) (addr what : Text) :
    Except Text (Option Bytes) :=
  match dec.kind, v with
  | .p2wpkh, some v => do
    let pk ← compressedPubkey c v fname
    if hash160 c pk ≠ dec.program then
      .error (fname ++ ": " ++ what ++ ".pubkey does not hash to the address " ++
        addr ++ (" — signing with the wrong key would produce an invalid spend; nothing was " ++
          "built").toList)
    else .ok (some pk)
  | .p2wpkh, none => .error (fname ++ ": " ++ what ++ (" is missing \"pubkey\" — a P2WPKH " ++
      "witness reveals the full public key (the address only holds its hash); pass " ++
      "secp256k1_pubkey(secret(\"KEY\")) or the 33-byte pubkey").toList)
  | .p2tr, some v => do
    let x ← xonlyPubkey c v fname
    let out ← tapOutputKey c x fname
    if out ≠ dec.program then
      .error (fname ++ ": " ++ what ++
        ".pubkey (internal key) does not tweak to the address " ++ addr ++
        (" — signing with the wrong key would produce an invalid spend; nothing was " ++
          "built").toList)
    else .ok none
  | .p2tr, none => .ok none
  | kind, _ => .error (fname ++ ": " ++ what ++ " is a " ++ kind.asStr ++
      (" UTXO — this batch spends FROM p2wpkh and p2tr (key-path) only; sending TO ").toList ++
      kind.asStr ++ " works, spending from it is out of scope")

/-- One of the inputs: the `i`-th; what the earlier ones spend is known. -/
def readPlanInput (seen : List (Hash × UInt32)) (i : Nat) (item : SynValue σ) :
    Except Text PlanInput := do
  let what : Text := "inputs[" ++ digits i ++ "]"
  let m ← mapOf item what fname
  checkKeys m (["txid", "vout", "amount", "address", "pubkey"].map String.toList) fun k =>
    fname ++ ": unknown key " ++ c.debug k ++ " in " ++ what ++
      " (allowed: txid, vout, amount, address, pubkey)"
  let txidDisplay ← txidField (m.lookup "txid".toList) (what ++ ".txid".toList) fname
  let vout ← voutField fname (m.lookup "vout".toList) what
  if (txidDisplay, vout) ∈ seen then
    .error (fname ++ ": " ++ what ++ (" spends the same UTXO as an earlier input (duplicate " ++
      "txid:vout) — a transaction cannot spend one output twice").toList)
  else do
    let amount ← amountField fname (m.lookup "amount".toList) what
    let address ← addressField (m.lookup "address".toList) what (" is missing \"address\" — the " ++
      "UTXO's own address decides HOW it is signed (P2WPKH vs P2TR); read your UTXOs with " ++
      "btc_utxos(url, address)").toList fname
    let dec ← decodeAddress c address fname
    checkNetwork dec network (what ++ ".address") fname
    let pubkey ← pubkeyField c fname (m.lookup "pubkey".toList) dec address what
    .ok { txidDisplay, vout, amount, address, kind := dec.kind, program := dec.program, pubkey }

/-- The inputs, from the `i`-th on. -/
def readPlanInputs (seen : List (Hash × UInt32)) (i : Nat) :
    List (SynValue σ) → Except Text (List PlanInput)
  | [] => .ok []
  | item :: items => do
    let input ← readPlanInput c network fname seen i item
    let inputs ← readPlanInputs (input.outpoint :: seen) (i + 1) items
    .ok (input :: inputs)

/-- One of the outputs: the `i`-th. -/
def readPlanOutput (i : Nat) (item : SynValue σ) : Except Text PlanOutput := do
  let what : Text := "outputs[" ++ digits i ++ "]"
  let m ← mapOf item what fname
  checkKeys m (["address", "amount"].map String.toList) fun k =>
    fname ++ ": unknown key " ++ c.debug k ++ " in " ++ what ++
      " (allowed: address, amount)"
  let address ← addressField (m.lookup "address".toList) what " is missing \"address\"".toList fname
  let dec ← decodeAddress c address fname
  checkNetwork dec network (what ++ ".address") fname
  let amount ← satsField (m.lookup "amount".toList) (what ++ ".amount".toList) fname 1
  if amount < dec.kind.dustLimit then
    .error (fname ++ ": " ++ what ++ " pays " ++ digits amount.toNat ++
      " sats to a " ++ dec.kind.asStr ++ " address — below its dust limit of " ++
      digits dec.kind.dustLimit.toNat ++ (" sats (the network would not relay it); merge it into " ++
        "another output or raise it").toList)
  else
    .ok { amount, address, kind := dec.kind, script := scriptPubkeyOf dec.kind dec.program }

/-- The outputs, from the `i`-th on. -/
def readPlanOutputs (i : Nat) : List (SynValue σ) → Except Text (List PlanOutput)
  | [] => .ok []
  | item :: items => do
    let output ← readPlanOutput c network fname i item
    let outputs ← readPlanOutputs (i + 1) items
    .ok (output :: outputs)

/-- `G28`: the amounts of the inputs are those of the outputs and the fee; the sums wrap around. -/
def balance (plan : Plan) : Except Text Plan :=
  let totalIn : UInt64 := (plan.inputs.map PlanInput.amount).sum
  let totalOut : UInt64 := (plan.outputs.map PlanOutput.amount).sum
  if totalOut.toNat + plan.fee.toNat ≥ 2 ^ 64 then
    .error (fname ++ ": outputs + fee overflow")
  else
    let spend := totalOut + plan.fee
    if totalIn > spend then
      .error (fname ++ ": G28 violated — inputs (" ++ digits totalIn.toNat ++
        " sats) exceed outputs + fee (" ++ digits spend.toNat ++ " sats) by " ++
        digits (totalIn - spend).toNat ++ (" sats. Did you forget the change output? In UTXO the " ++
          "remainder is silently DONATED to miners; here every satoshi must be accounted for: add " ++
          "a change output back to your own address (or raise the fee explicitly)").toList)
    else if totalIn ≠ spend then
      .error (fname ++ ": G28 violated — outputs + fee (" ++ digits spend.toNat ++
        " sats) exceed inputs (" ++ digits totalIn.toNat ++ " sats) by " ++
        digits (spend - totalIn).toNat ++ (" sats; the transaction cannot be funded. Add inputs " ++
          "(btc_utxos) or lower the amounts/fee").toList)
    else if plan.fee > totalOut ∧ plan.allowAbsurdFee = false then
      .error (fname ++ ": the fee (" ++ digits plan.fee.toNat ++
        " sats) is larger than everything the transaction sends (" ++
        digits totalOut.toNat ++ (" sats) — almost always a bug in the amounts. If this is " ++
          "deliberate, pass \"allow_absurd_fee\": true").toList)
    else .ok plan

end Build

/-- The keys of the parameters are known; `sighash` is one that is not. -/
def checkParams {σ : Type} (c : Crypto σ) (fname : Text) (params : SynMap σ) : Except Text Unit :=
  checkKeys params (["inputs", "outputs", "fee", "network", "rbf", "locktime",
    "allow_absurd_fee"].map String.toList) fun k =>
      if k = "sighash" then
        fname ++ (": custom sighash types are not supported — the builder always uses SIGHASH_ALL " ++
          "(P2WPKH) / SIGHASH_DEFAULT (P2TR); NONE/SINGLE/ANYONECANPAY are out of scope").toList
      else fname ++ ": unknown key " ++ c.debug k ++ (" in params (allowed: inputs, outputs, " ++
        "fee, network, rbf, locktime, allow_absurd_fee)").toList

def buildPlan {σ : Type} (c : Crypto σ) (params : SynMap σ) (fname : Text) : Except Text Plan := do
  checkParams c fname params
  let network ← Network.parse c (params.lookup "network".toList) fname
  let rbf ← rbfField (params.lookup "rbf".toList) fname
  let locktime ← locktimeField (params.lookup "locktime".toList) fname
  let allowAbsurdFee ← allowAbsurdFeeField (params.lookup "allow_absurd_fee".toList) fname
  let fee ← feeField (params.lookup "fee".toList) fname
  let inList ← listOf (params.lookup "inputs".toList) "\"inputs\"".toList fname
  if inList.isEmpty then .error (fname ++ ": \"inputs\" cannot be empty")
  else do
    let inputs ← readPlanInputs c network fname [] 0 inList
    let outList ← listOf (params.lookup "outputs".toList) "\"outputs\"".toList fname
    if outList.isEmpty then .error (fname ++ ": \"outputs\" cannot be empty")
    else do
      let outputs ← readPlanOutputs c network fname 0 outList
      balance fname { network, rbf, locktime, inputs, outputs, fee, allowAbsurdFee }

end Synsema.Btc
