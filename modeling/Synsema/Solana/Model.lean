import Synsema.Btc.Plan
import Synsema.Lib.OrderedMap

/-!
# Messages of Solana

`solana_tx` and `solana_tx_raw` (`synsema-stdlib/src/blockchain_solana.rs`): the parameters are
read, the accounts of all instructions are put together with their flags, sorted into four groups,
and the message is written with one byte for each reference to an account.

What the crates do with texts is a parameter (`Crates`).
-/

namespace Synsema.Solana

open Text Bytesutil
open Blockchain (Stop)
open Btc (SynValue SynMap isInteger toI64)

/-- A public key. -/
abbrev Pubkey := { b : Bytes // b.length = 32 }

/-- What is done outside of the repository. -/
structure Crates (σ : Type) where
  /-- `bs58::decode`. -/
  bs58Decode : Text → Except Text Bytes
  /-- `{:?}` of a text. -/
  debug : Text → Text
  /-- `{}` of a value. -/
  display : SynValue σ → Text

/-- An account of an instruction, with what the instruction needs of it. -/
structure AccountMeta where
  pubkey : Pubkey
  signer : Bool
  writable : Bool

/-- `ParsedInstruction`. -/
structure Instruction where
  program : Pubkey
  accounts : List AccountMeta
  data : Bytes

/-- What the parameters ask for. -/
structure Request where
  v0 : Bool
  feePayer : Pubkey
  blockhash : Pubkey
  instructions : List Instruction

/-! ## The parameters -/

section Reading

variable {σ : Type} (c : Crates σ)

/-- `err`, of a text in pieces. -/
def fail {α : Type} (pieces : List Text) : Except Stop α := .error (.err pieces.flatten)

def arg (args : List (SynValue σ)) (i : Nat) (fname : Text) : Except Stop (SynValue σ) :=
  match args[i]? with
  | some v => .ok v
  | none => fail [fname, ": missing argument ", digits (i + 1)]

def argBytes (v : SynValue σ) (fname what : Text) : Except Stop Bytes :=
  match v with
  | .bytes b => .ok b
  | .secret _ => fail [fname, ": ", what,
      " must be bytes, got a secret; only the private key is a secret here"]
  | other => fail [fname, ": ", what, " must be bytes, got ", other.typeName]

def base58Decode (s : Text) : Except Text Bytes :=
  (c.bs58Decode (trim s)).mapError ("invalid base58: " ++ ·)

def pubkey32 (v : SynValue σ) (what fname : Text) : Except Stop Pubkey := do
  let raw : Bytes ← (match v with
    | .bytes b => .ok b
    | .text s =>
      (base58Decode c s).mapError fun e =>
        .err (fname ++ ": " ++ what ++ " is not valid base58: " ++ e)
    | .secret _ => fail [fname, ": ", what, (" must be a PUBLIC key (bytes or base58 text) " ++
        "— derive it with ed25519_pubkey(secret), never pass the secret itself").toList]
    | other => fail [fname, ": ", what,
        " must be a 32-byte pubkey (bytes or base58 text), got ", other.typeName])
  if h : raw.length = 32 then .ok ⟨raw, h⟩
  else fail [fname, ": ", what, " must decode to exactly 32 bytes, got ",
    digits raw.length]

def getMap (v : SynValue σ) (what fname : Text) : Except Stop (SynMap σ) :=
  match v with
  | .map m => .ok m
  | other => fail [fname, ": ", what, " must be a map, got ", other.typeName]

def getBool (m : SynMap σ) (key what fname : Text) : Except Stop Bool :=
  match m.lookup key with
  | none | some .nothing => .ok false
  | some (.bool b) => .ok b
  | some other => fail [fname, ": ", what, ".", key,
      " must be true or false, got ", other.typeName]

/-- The name of the function. -/
def solanaTxName : Text := "solana_tx"

/-- Only known keys. -/
def checkKeys (m : SynMap σ) (allowed : List Text) (unknown : Text → Except Stop Unit) :
    Except Stop Unit :=
  m.forM fun e => if e.1 ∈ allowed then .ok () else unknown e.1

/-- A key of the parameters that is not known. -/
def unknownParam (key : Text) : Except Stop Unit :=
  if key = "lookup_tables" then
    fail [solanaTxName, (": address lookup tables are not supported yet — remove " ++
      "\"lookup_tables\"; a v0 message without tables works today").toList]
  else fail [solanaTxName, ": unknown key ", c.debug key,
    " in params (allowed: fee_payer, recent_blockhash, instructions, version)"]

/-- A field that must be there. -/
def required (m : SynMap σ) (key : Text) (missing : List Text) : Except Stop (SynValue σ) :=
  match m.lookup key with
  | some v => .ok v
  | none => fail missing

/-- A public key in a field that must be there. -/
def keyField (m : SynMap σ) (key what : Text) (missing : List Text) : Except Stop Pubkey := do
  pubkey32 c (← required m key missing) what solanaTxName

/-- Each of a list, with its place. -/
def readAll {α β : Type} (read : Nat → α → Except Stop β) : Nat → List α → Except Stop (List β)
  | _, [] => .ok []
  | i, a :: as => do
    let b ← read i a
    let bs ← readAll read (i + 1) as
    return b :: bs

/-- An account of an instruction. -/
def readAccount (what : Text) (j : Nat) (v : SynValue σ) : Except Stop AccountMeta := do
  let awhat := what ++ ".accounts[" ++ digits j ++ "]"
  let a ← getMap v awhat solanaTxName
  checkKeys a ["pubkey", "signer", "writable"] fun k =>
    fail [solanaTxName, ": unknown key ", c.debug k, " in ", awhat,
      " (allowed: pubkey, signer, writable)"]
  let pubkey ← keyField c a "pubkey" (awhat ++ ".pubkey")
    [solanaTxName, ": ", awhat, " is missing \"pubkey\""]
  let signer ← getBool a "signer" awhat solanaTxName
  let writable ← getBool a "writable" awhat solanaTxName
  return ⟨pubkey, signer, writable⟩

/-- The accounts of an instruction. -/
def readAccounts (what : Text) (m : SynMap σ) : Except Stop (List AccountMeta) :=
  match m.lookup "accounts".toList with
  | none => .ok []
  | some (.list l) => readAll (readAccount c what) 0 l
  | some other => fail [solanaTxName, ": ", what, ".accounts must be a list, got ",
      other.typeName]

/-- The data of an instruction. -/
def readData (what : Text) (m : SynMap σ) : Except Stop Bytes :=
  match m.lookup "data".toList with
  | none | some .nothing => .ok []
  | some v => argBytes v solanaTxName (what ++ ".data")

/-- An instruction. -/
def readInstruction (i : Nat) (v : SynValue σ) : Except Stop Instruction := do
  let what := "instruction " ++ digits (i + 1)
  let m ← getMap v what solanaTxName
  checkKeys m ["program", "accounts", "data"] fun k =>
    fail [solanaTxName, ": unknown key ", c.debug k, " in ", what,
      " (allowed: program, accounts, data)"]
  let program ← keyField c m "program" (what ++ ".program")
    [solanaTxName, ": ", what, " is missing \"program\""]
  let accounts ← readAccounts c what m
  let data ← readData what m
  return ⟨program, accounts, data⟩

/-- `params.get("version")`. -/
def readVersion (m : SynMap σ) : Except Stop Bool :=
  match m.lookup "version".toList with
  | none | some .nothing => .ok false
  | some v =>
    let error := fail [solanaTxName, ": version must be 0 (v0) or absent (legacy), got ",
      c.display v]
    match v with
    | .number n => if toI64 n = some 0 ∧ isInteger n then .ok true else error
    | _ => error

/-- `params.get("instructions")`. -/
def instructionList (m : SynMap σ) : Except Stop (List (SynValue σ)) :=
  match m.lookup "instructions".toList with
  | some (.list l) => .ok l
  | some other => fail [solanaTxName, ": instructions must be a list, got ", other.typeName]
  | none => fail [solanaTxName, ": missing \"instructions\""]

/-- The parameters. -/
def readRequest (m : SynMap σ) : Except Stop Request := do
  checkKeys m ["fee_payer", "recent_blockhash", "instructions",
    "version"] (unknownParam c)
  let v0 ← readVersion c m
  let feePayer ← keyField c m "fee_payer" "fee_payer"
    [solanaTxName, ": missing \"fee_payer\""]
  let blockhash ← keyField c m "recent_blockhash" "recent_blockhash"
    [solanaTxName, ": missing \"recent_blockhash\""]
  let list ← instructionList m
  if list.isEmpty then fail [solanaTxName, ": instructions cannot be empty"]
  else do
    let instructions ← readAll (readInstruction c) 0 list
    return ⟨v0, feePayer, blockhash, instructions⟩

end Reading

/-! ## The accounts -/

/-- The keys, each with its flags: signer and writable. -/
abbrev Metas := OrderedMap Pubkey (Bool × Bool)

/-- An account of an instruction: its flags are added to those the key has. -/
def addAccount (metas : Metas) (a : AccountMeta) : Metas :=
  let e := (metas.get? a.pubkey).getD (false, false)
  metas.insert a.pubkey (e.1 || a.signer, e.2 || a.writable)

/-- `metas.entry(program).or_insert((false, false))`. -/
def addProgram (metas : Metas) (program : Pubkey) : Metas :=
  if (metas.get? program).isSome then metas else metas.insert program (false, false)

/-- The accounts and the program of an instruction. -/
def addInstruction (metas : Metas) (ins : Instruction) : Metas :=
  addProgram (ins.accounts.foldl addAccount metas) ins.program

/-- All the keys of a message. -/
def compileMetas (q : Request) : Metas :=
  let metas := OrderedMap.empty.insert q.feePayer (true, true)
  (q.instructions.foldl addInstruction metas).insert q.feePayer (true, true)

/-- The keys with these flags, but for the fee payer, sorted by their bytes. -/
def bucket (q : Request) (flags : Bool × Bool) : List Pubkey :=
  let keys := ((compileMetas q).entries.filter fun e => e.1 ≠ q.feePayer ∧ e.2 = flags).map Prod.fst
  keys.mergeSort fun k k' => k.1 ≤ k'.1

/-- `ws`, `rs`, `wn` and `rn`. -/
def writableSigners (q : Request) : List Pubkey := bucket q (true, true)

@[inherit_doc writableSigners]
def readonlySigners (q : Request) : List Pubkey := bucket q (true, false)

@[inherit_doc writableSigners]
def writableOthers (q : Request) : List Pubkey := bucket q (false, true)

@[inherit_doc writableSigners]
def readonlyOthers (q : Request) : List Pubkey := bucket q (false, false)

/-- `keys`. -/
def compileKeys (q : Request) : List Pubkey :=
  q.feePayer ::
    (writableSigners q ++ readonlySigners q ++ writableOthers q ++ readonlyOthers q)

def numRequired (q : Request) : Nat := 1 + (writableSigners q).length + (readonlySigners q).length

/-! ## The bytes -/

/-- `shortvec`: seven bits in a byte, the lowest first, the high bit where more follows. -/
def shortvec (n : Nat) : Bytes :=
  if n / 128 = 0 then [.ofNat (n % 128)] else .ofNat (n % 128 + 128) :: shortvec (n / 128)

def indexOf (keys : List Pubkey) (k : Pubkey) : Except Stop UInt8 :=
  match keys.findIdx? fun k' => k' = k with
  | some i => .ok (.ofNat i)
  | none => .error .panic

/-- An instruction, with the places of its keys. -/
def writeInstruction (keys : List Pubkey) (ins : Instruction) : Except Stop Bytes := do
  let program ← indexOf keys ins.program
  let accounts ← ins.accounts.mapM fun a => indexOf keys a.pubkey
  return program :: shortvec ins.accounts.length ++ accounts ++ shortvec ins.data.length ++ ins.data

/-- The message of a request. -/
def writeMessage (q : Request) : Except Stop Bytes := do
  let keys := compileKeys q
  let pre : Bytes := if q.v0 then [0x80] else []
  let header : Bytes := [.ofNat (numRequired q), .ofNat (readonlySigners q).length,
    .ofNat (readonlyOthers q).length]
  let instructions ← q.instructions.mapM (writeInstruction keys)
  return pre ++ header ++ shortvec keys.length ++ keys.flatMap Subtype.val ++ q.blockhash.1 ++
    shortvec q.instructions.length ++ instructions.flatten ++ if q.v0 then shortvec 0 else []

/-- The message, if its keys fit. -/
def compile (q : Request) : Except Stop Bytes :=
  if 127 < numRequired q then
    fail [solanaTxName, ": ", digits (numRequired q),
      " required signers do not fit in a Solana message (max 127)"]
  else if 256 < (compileKeys q).length then
    fail [solanaTxName, ": too many distinct accounts (", digits (compileKeys q).length,
      ", the message format caps indices at 256)"]
  else writeMessage q

section Builtins

variable {σ : Type} (c : Crates σ)

def solanaTx (args : List (SynValue σ)) : Except Stop Bytes := do
  if args.length = 2 then
    fail [solanaTxName, (": since v0.6.29 solana_tx builds the message (it was solana_message) — " ++
      "to assemble a signed transaction use solana_tx_raw(message, signatures)").toList]
  else do
    let v ← arg args 0 solanaTxName
    let params ← getMap v "params" solanaTxName
    compile (← readRequest c params)

/-- The name of the function. -/
def solanaTxRawName : Text := "solana_tx_raw"

/-- How many signatures the header of a message asks for. -/
def signaturesOf (msg : Bytes) : Except Stop Nat :=
  let first := msg.getD 0 0
  if first &&& 0x80 ≠ 0 then
    if first &&& 0x7f ≠ 0 then
      fail [solanaTxRawName, ": unsupported message version ",
        digits (first &&& 0x7f).toNat, " (only v0 and legacy exist)"]
    else .ok (msg.getD 1 0).toNat
  else .ok first.toNat

/-- The signatures. -/
def readSignatures (v : SynValue σ) : Except Stop (List Bytes) :=
  match v with
  | .bytes b => .ok [b]
  | .list l =>
    readAll (fun i v => argBytes v solanaTxRawName ("signature " ++ digits (i + 1))) 0 l
  | other => fail [solanaTxRawName,
      ": signatures must be 64-byte bytes or a list of them, got ", other.typeName]

def solanaTxRaw (args : List (SynValue σ)) : Except Stop Bytes := do
  let v ← arg args 0 solanaTxRawName
  let msg ← argBytes v solanaTxRawName "the message"
  if msg.length < 4 then
    fail [solanaTxRawName, ": the message is too short to be a Solana message"]
  else do
    let required ← signaturesOf msg
    let v ← arg args 1 solanaTxRawName
    let sigs ← readSignatures v
    let _ ← readAll (fun i (s : Bytes) =>
      if s.length ≠ 64 then
        fail [solanaTxRawName, ": signature ", digits (i + 1),
          " must be exactly 64 bytes, got ", digits s.length]
      else .ok ()) 0 sigs
    if sigs.length ≠ required then
      fail [solanaTxRawName, ": the message requires ", digits required,
        " signature(s), got ", digits sigs.length]
    else return shortvec sigs.length ++ sigs.flatten ++ msg

end Builtins

end Synsema.Solana
