import Synsema.Base64
import Synsema.Btc.Plan

/-!
# Partially signed transactions

`psbt_encode` and `psbt_decode` (`synsema-stdlib/src/blockchain_btc.rs`): the writer of an unsigned
plan, the parser of maps of fields around an unsigned transaction, and what is shown of one before
it is signed.

The writers of addresses are not part of the repository: they are a parameter (`AddrWriter`).
-/

namespace Synsema.Btc

open Text Bytesutil Reader

/-! ## Addresses -/

/-- The functions of `bech32` and `bs58` that write addresses. -/
structure AddrWriter where
  /-- `segwit::encode_v0` and `encode_v1`. -/
  segwitEncode : Text → UInt8 → Bytes → Except Text Text
  /-- `base58_encode`. -/
  base58Encode : Bytes → Text

namespace Network

/-- `Network::hrp`. -/
def hrp : Network → Text
  | mainnet => "bc"
  | testnet | signet => "tb"
  | regtest => "bcrt"

/-- `Network::p2pkh_version`. -/
def p2pkhVersion : Network → UInt8
  | mainnet => 0x00
  | _ => 0x6f

/-- `Network::p2sh_version`. -/
def p2shVersion : Network → UInt8
  | mainnet => 0x05
  | _ => 0xc4

end Network

def classifyScript (script : Bytes) : Option (AddrKind × Bytes) :=
  if script.length = 25 ∧ script.take 3 = [0x76, 0xa9, 0x14] ∧ script.drop 23 = [0x88, 0xac] then
    some (.p2pkh, (script.drop 3).take 20)
  else if script.length = 23 ∧ script.take 2 = [0xa9, 0x14] ∧ script.drop 22 = [0x87] then
    some (.p2sh, (script.drop 2).take 20)
  else if script.length = 22 ∧ script.take 2 = [0x00, 0x14] then some (.p2wpkh, script.drop 2)
  else if script.length = 34 ∧ script.take 2 = [0x00, 0x20] then some (.p2wsh, script.drop 2)
  else if script.length = 34 ∧ script.take 2 = [0x51, 0x20] then some (.p2tr, script.drop 2)
  else none

section Address

variable {σ : Type} (c : Crypto σ) (w : AddrWriter)

def base58checkEncode (payload : Bytes) : Text :=
  w.base58Encode (payload ++ (dsha256 c payload).1.take 4)

def addressOf (kind : AddrKind) (program : Bytes) (network : Network) : Except Text Text :=
  let encode v := (w.segwitEncode network.hrp v program).mapError fun e =>
    "address encode: ".toList ++ e
  match kind with
  | .p2pkh => .ok (base58checkEncode c w (network.p2pkhVersion :: program))
  | .p2sh => .ok (base58checkEncode c w (network.p2shVersion :: program))
  | .p2wpkh | .p2wsh => encode 0
  | .p2tr => encode 1

end Address

/-! ## Writing -/

abbrev PsbtField := Bytes × Bytes

/-- A field. -/
def fieldBytes (f : PsbtField) : Bytes := writeBlob f.1 ++ writeBlob f.2

/-- A map, with its separator. -/
def mapBytes (m : List PsbtField) : Bytes := m.flatMap fieldBytes ++ [0x00]

def psbtMagic : Bytes := [0x70, 0x73, 0x62, 0x74, 0xff]

namespace Plan

/-- `Plan::sequence`. -/
def sequence (plan : Plan) : UInt32 := if plan.rbf then 0xfffffffd else 0xfffffffe

/-- The unsigned transaction of `psbt_encode`, through `sig_ctx`. -/
def unsigned (plan : Plan) : RawTx where
  version := 2
  inputs := plan.inputs.map fun i =>
    { prevLe := ⟨i.txidDisplay.1.reverse, (List.length_reverse).trans i.txidDisplay.2⟩
      vout := i.vout
      scriptSig := []
      sequence := plan.sequence
      witness := [] }
  outputs := plan.outputs.map fun o => ⟨o.amount, o.script⟩
  locktime := plan.locktime

/-- The `witness_utxo` of an input. -/
def utxo (i : PlanInput) : RawOutput := ⟨i.amount, scriptPubkeyOf i.kind i.program⟩

/-- The bytes of `psbt_encode`. -/
def psbtBytes (plan : Plan) : Bytes :=
  psbtMagic ++ (mapBytes [([0x00], serializeTx plan.unsigned false)] ++
    (plan.inputs.flatMap (fun i => mapBytes [([0x01], (utxo i).bytes)]) ++
      plan.outputs.flatMap fun _ => mapBytes []))

/-- `psbt_encode`, of the plan. -/
def psbtEncode (plan : Plan) : Text := b64Encode plan.psbtBytes

end Plan

/-! ## Parsing -/

section Parse

variable (fname : Text)

/-- A field, or the end of its map. -/
def readField : Reader UInt8 Text (Option PsbtField) := do
  let klen ← readVarint fname
  if klen = 0 then pure none
  else do
    let size ← Reader.size
    if klen.toNat > size then fail (fname ++ ": PSBT key length exceeds the input")
    else do
      let key ← readBytes klen.toNat fname
      let value ← readBlob fname
      pure (some (key, value))

/-- The fields of a map behind those that were read.  There are fewer than `fuel`. -/
def readFields : Nat → List PsbtField → Reader UInt8 Text (List PsbtField)
  | 0, _ => fail fname
  | fuel + 1, out => do
    let field ← readField fname
    match field with
    | none => pure out
    | some (key, value) =>
      if out.any fun f => f.1 = key then
        fail (fname ++ ": the PSBT has a duplicate key in a map (forbidden by BIP-174)")
      else readFields fuel (out ++ [(key, value)])

/-- `read_psbt_map`: each field takes three bytes. -/
def readPsbtMap : Reader UInt8 Text (List PsbtField) := do
  let size ← Reader.size
  readFields fname (size + 1) []

structure PsbtInput where
  utxo : Option RawOutput
  partialSigs : List (Bytes × Bytes)
  sighashType : Option UInt32
  finalScriptsig : Option Bytes
  finalWitness : Option (List Bytes)
  tapKeySig : Option Bytes

/-- An input without fields. -/
def PsbtInput.empty : PsbtInput := ⟨none, [], none, none, none, none⟩

structure Psbt where
  tx : RawTx
  inputs : List PsbtInput

/-- What is read of a value, to its end. -/
def whole {α : Type} (item : Reader UInt8 Text α) (malformed : Text) (value : Bytes) :
    Except Text α :=
  match (item value 0).2 with
  | .error e => .error e
  | .ok (a, p) => if p ≠ value.length then .error malformed else .ok a

/-- The items of a witness, behind their number. -/
def readItems : Reader UInt8 Text (List Bytes) := do
  let n ← readVarint fname
  (readBlob fname).times n.toNat

/-- A global field. -/
def globalField (unsigned : Option RawTx) : PsbtField → Except Text (Option RawTx)
  | ([0x00], value) => do
    let tx ← parseTx value fname
    if tx.inputs.any fun i => !i.scriptSig.isEmpty || !i.witness.isEmpty then
      .error (fname ++ (": the PSBT's unsigned tx already carries signatures (invalid per " ++
        "BIP-174)").toList)
    else .ok (some tx)
  | (0xfb :: _, _) => .error (fname ++ (": this is a PSBT v2 — only PSBT v0 (BIP-174, the " ++
      "hardware-wallet interchange format) is supported").toList)
  | _ => .ok unsigned

/-- The unsigned transaction of the global map. -/
def globalTx (fields : List PsbtField) : Except Text RawTx := do
  match ← fields.foldlM (globalField fname) none with
  | some tx => .ok tx
  | none => .error (fname ++ ": the PSBT has no unsigned transaction (global key 0x00)")

/-- A field of the `i`-th input, which spends the output at `vout`. -/
def inputField (i : Nat) (vout : UInt32) (pin : PsbtInput) : PsbtField → Except Text PsbtInput
  | ([0x01], value) => do
    let utxo ← whole (readOutput fname) (fname ++ ": input " ++ digits i ++
      " has a malformed witness_utxo") value
    .ok { pin with utxo := some utxo }
  | ([0x00], value) => do
    let prev ← parseTx value fname
    match prev.outputs[vout.toNat]? with
    | none => .error (fname ++ ": input " ++ digits i ++
        "'s non_witness_utxo has no output " ++ digits vout.toNat)
    | some o => .ok (if pin.utxo.isNone then { pin with utxo := some o } else pin)
  | (0x02 :: pubkey, value) => .ok { pin with partialSigs := pin.partialSigs ++ [(pubkey, value)] }
  | ([0x03], value) =>
    .ok (if value.length = 4 then { pin with sighashType := some (.ofNat (leNat value)) }
      else pin)
  | ([0x07], value) => .ok { pin with finalScriptsig := some value }
  | ([0x08], value) => do
    let items ← whole (readItems fname) (fname ++ ": input " ++ digits i ++
      " has a malformed final witness") value
    .ok { pin with finalWitness := some items }
  | ([0x13], value) =>
    if value.length ≠ 64 ∧ value.length ≠ 65 then
      .error (fname ++ ": input " ++ digits i ++
        " has a taproot key signature of " ++ digits value.length ++
          " bytes (expected 64 or 65)")
    else .ok { pin with tapKeySig := some value }
  | _ => .ok pin

/-- The fields of an input. -/
def inputFields (i : Nat) (vout : UInt32) (fields : List PsbtField) : Except Text PsbtInput :=
  fields.foldlM (inputField fname i vout) .empty

/-- The maps of the inputs, from the `i`-th on. -/
def readPsbtInputs (i : Nat) : List RawInput → Reader UInt8 Text (List PsbtInput)
  | [] => pure []
  | raw :: raws => do
    let fields ← readPsbtMap fname
    let pin ← Reader.ofExcept (inputFields fname i raw.vout fields)
    let pins ← readPsbtInputs (i + 1) raws
    pure (pin :: pins)

/-- What stands behind the magic. -/
def readPsbt : Reader UInt8 Text Psbt := do
  let global ← readPsbtMap fname
  let tx ← Reader.ofExcept (globalTx fname global)
  let inputs ← readPsbtInputs fname 0 tx.inputs
  let _ ← (readPsbtMap fname).times tx.outputs.length
  pure { tx, inputs }

/-- `parse_psbt`, of the bytes. -/
def parsePsbtBytes (data : Bytes) : Except Text Psbt :=
  if data.length > maxTxBytes then
    .error (fname ++ ": the PSBT is over the 4 MB limit — refusing to parse it")
  else if data.take 5 ≠ psbtMagic then
    .error (fname ++ (": not a PSBT (missing the \"psbt\\xff\" magic); pass the base64 text of a " ++
      "BIP-174 PSBT").toList)
  else
    match (readPsbt fname data 5).2 with
    | .error e => .error e
    | .ok (psbt, pos) =>
      if pos ≠ data.length then
        .error (fname ++ ": " ++ digits (data.length - pos) ++
          " trailing byte(s) after the PSBT")
      else .ok psbt

/-- `parse_psbt`; the error of `b64_decode` is a parameter. -/
def parsePsbt (b64Error : Text → Text) (text : Text) : Except Text Psbt :=
  match b64Decode (trim text) with
  | none => .error (fname ++ ": not valid base64: " ++ b64Error (trim text))
  | some data => parsePsbtBytes fname data

end Parse

/-! ## Showing -/

/-- What is shown of an input. -/
structure ShownInput where
  txid : Text
  vout : Int
  sequence : Int
  amount : Option Int
  kind : Option Text
  address : Option Text
  signed : Bool
  sighash : Option Int

/-- What is shown of an output. -/
structure ShownOutput where
  amount : Int
  kind : Option Text
  address : Option Text
  script : Option Bytes

/-- The map of `psbt_decode`. -/
structure Shown where
  txid : Text
  version : Int
  locktime : Int
  inputs : List ShownInput
  outputs : List ShownOutput
  totalOut : Int
  totalIn : Option Int
  fee : Option Int
  complete : Bool

def asI64 (n : UInt64) : Int := n.toInt64.toInt

section Show

variable {σ : Type} (c : Crypto σ) (w : AddrWriter) (network : Network)

/-- The kind and the address of a script. -/
def shownScript (script : Bytes) : Option Text × Option Text :=
  match classifyScript script with
  | some (kind, program) => (some kind.asStr, (addressOf c w kind program network).toOption)
  | none => (none, none)

/-- Is there a signature? -/
def PsbtInput.signed (pin : PsbtInput) : Bool :=
  pin.finalWitness.isSome || pin.finalScriptsig.isSome || pin.tapKeySig.isSome ||
    !pin.partialSigs.isEmpty

def shownInput (raw : RawInput) (pin : PsbtInput) : ShownInput where
  txid := Abi.hexEncode raw.prevLe.1.reverse
  vout := raw.vout.toNat
  sequence := raw.sequence.toNat
  amount := pin.utxo.map fun o => asI64 o.amount
  kind := pin.utxo.bind fun o => (shownScript c w network o.script).1
  address := pin.utxo.bind fun o => (shownScript c w network o.script).2
  signed := pin.signed
  sighash := pin.sighashType.map fun s => (s.toNat : Int)

def shownOutput (o : RawOutput) : ShownOutput where
  amount := asI64 o.amount
  kind := (shownScript c w network o.script).1
  address := (shownScript c w network o.script).2
  script := if (classifyScript o.script).isNone then some o.script else none

/-- The total of the inputs, as long as there is an amount for each; it wraps around. -/
def totalIn (pins : List PsbtInput) : Option UInt64 :=
  pins.foldl (fun t pin => pin.utxo.bind fun o => t.map (· + o.amount)) (some 0)

/-- The total of the outputs; it wraps around. -/
def totalOut (tx : RawTx) : UInt64 := (tx.outputs.map RawOutput.amount).sum

/-- `psbt_decode`, of the parsed one. -/
def showPsbt (fname : Text) (psbt : Psbt) : Except Text Shown :=
  let shown totalIn fee : Shown :=
    { txid := txidOf (dsha256 c) psbt.tx
      version := psbt.tx.version.toNat
      locktime := psbt.tx.locktime.toNat
      inputs := psbt.tx.inputs.zipWith (shownInput c w network) psbt.inputs
      outputs := psbt.tx.outputs.map (shownOutput c w network)
      totalOut := asI64 (totalOut psbt.tx)
      totalIn
      fee
      complete := psbt.inputs.all PsbtInput.signed }
  match totalIn psbt.inputs with
  | none => .ok (shown none none)
  | some tin =>
    if tin < totalOut psbt.tx then
      .error (fname ++ (": the PSBT's outputs exceed its inputs — not a fundable " ++
        "transaction").toList)
    else .ok (shown (some (asI64 tin)) (some (asI64 (tin - totalOut psbt.tx))))

def psbtDecode (b64Error : Text → Text) (text : Text) : Except Text Shown := do
  let fname := "psbt_decode".toList
  let psbt ← parsePsbt fname b64Error text
  showPsbt c w network fname psbt

end Show

end Synsema.Btc
