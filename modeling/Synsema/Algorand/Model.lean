import Synsema.Base32
import Synsema.Eip712.Model

/-!
# Algorand transactions

`algorand_tx` of `synsema-stdlib/src/blockchain_algorand.rs`: a transaction as a tree of msgpack
without the fields that are zero, and the bytes of that tree.

The hash SHA-512/256 is a parameter, and so are the texts of `{:?}`.
-/

namespace Synsema.Algorand

open Text Bytesutil
open Abi (fail asBigint num)
open Blockchain (Stop)
open Eip712 (SynValue)

def maxDepth : Nat := 64

/-! ## Msgpack -/

inductive Mp where
  | uint (n : UInt64)
  | bytes (b : Bytes)
  | str (t : Text)
  | bool (b : Bool)
  | map (entries : List (Text × Mp))
  | list (items : List Mp)

mutual

def mpWrite : Mp → Bytes
  | .uint n => Captoken.Mp.uint n.toNat
  | .bool b => [if b then 0xc3 else 0xc2]
  | .bytes b => Captoken.Mp.bytes b
  | .str t => Captoken.Mp.str t
  | .map entries => Captoken.Mp.mapHead entries.length ++ writeEntries entries
  | .list items => Captoken.Mp.listHead items.length ++ writeItems items

/-- The keys and the values of a map. -/
def writeEntries : List (Text × Mp) → Bytes
  | [] => []
  | (k, v) :: entries => Captoken.Mp.str k ++ (mpWrite v ++ writeEntries entries)

/-- The elements of a list. -/
def writeItems : List Mp → Bytes
  | [] => []
  | v :: items => mpWrite v ++ writeItems items

end

/-- The bytes of a text as numbers, in whose order keys are sorted. -/
def keyBytes (k : Text) : List Nat := (utf8 k).map UInt8.toNat

/-- `entries.sort_by(|a, b| a.0.as_bytes().cmp(b.0.as_bytes()))`. -/
def sortEntries (entries : List (Text × Mp)) : List (Text × Mp) :=
  entries.insertionSort fun a b => keyBytes a.1 ≤ keyBytes b.1

/-! ## From a value to msgpack -/

def txnAddrKeys : List Text :=
  ["snd", "rcv", "close", "asnd", "arcv", "rekey"]

def aparAddrKeys : List Text := ["m", "r", "f", "c"]

/-- `child_addr`: the fields of a field that are addresses. -/
def childAddr (k : Text) : List Text := if k = "apar" then aparAddrKeys else []

section Conversion

variable (sha512_256 : Bytes → Bytes) (debug : Char → Text) (fname : Text)

def addressToPubkey (what s : Text) : Except Stop Bytes :=
  if (utf8 s).length ≠ 58 then
    fail (fname ++ ": " ++ what ++
      " must be a 58-character Algorand address, got " ++ num (utf8 s).length ++
      " characters")
  else
    match base32Decode debug s with
    | .error e => fail (fname ++ ": " ++ what ++ " is not valid base32: " ++ e)
    | .ok raw =>
      if raw.length ≠ 36 then
        fail (fname ++ ": " ++ what ++
          " did not decode to pubkey+checksum (36 bytes), got " ++ num raw.length)
      else if raw.drop 32 ≠ ((sha512_256 (raw.take 32)).drop 28).take 4 then
        fail (fname ++ ": " ++ what ++
          (" has an invalid address checksum (a mistyped or " ++
            "truncated address — refusing to send money to it)").toList)
      else .ok (raw.take 32)

/-- The bytes of a field that is an address. -/
def addressField (path : Text) : SynValue → Except Stop Bytes
  | .text s => addressToPubkey sha512_256 debug fname path s
  | .bytes b =>
    if b.length = 32 then .ok b
    else fail (fname ++ ": " ++ path ++
      " must be a 32-byte pubkey or a 58-char address, got " ++ num b.length ++
      " bytes")
  | other => fail (fname ++ ": " ++ path ++
      " must be an address (58-char text or 32 bytes), got " ++ other.typeName)

/-- The check of the depth. -/
def checkDepth (path : Text) (depth : Nat) : Except Stop Unit :=
  if maxDepth < depth then
    fail (fname ++ ": " ++ path ++ " is nested too deeply (max " ++ num maxDepth ++
      " levels)")
  else .ok ()

/-- `to_mp` of a number. -/
def numberToMp (path : Text) (n : Number) : Except Stop (Option Mp) :=
  match asBigint n with
  | none => fail (fname ++ ": " ++ path ++
      " must be an exact integer (protocol amounts are exact — no floats)")
  | some big =>
    if big < 0 then
      fail (fname ++ ": " ++ path ++
        " is negative — Algorand protocol fields are unsigned")
    else if 2 ^ 64 ≤ big then
      fail (fname ++ ": " ++ path ++
        " does not fit in 64 bits (Algorand protocol integers are uint64)")
    else .ok (if big = 0 then none else some (.uint (.ofNat big.toNat)))

/-- `to_mp` of bytes. -/
def bytesToMp (path : Text) (depth : Nat) (b : Bytes) : Except Stop (Option Mp) := do
  checkDepth fname path depth
  .ok (if b = [] then none else some (.bytes b))

/-- `to_mp_in_list`, with what `to_mp` answers: a zero value is written, as leaving it out would
move the others. -/
def inList (v : SynValue) : Option Mp → Except Stop Mp
  | some mp => .ok mp
  | none =>
    match v with
    | .number _ => .ok (.uint 0)
    | .bool _ => .ok (.bool false)
    | .bytes _ => .ok (.bytes [])
    | .text _ => .ok (.str [])
    | .map _ => .ok (.map [])
    | .list _ => .ok (.list [])
    -- `to_mp` refuses the others
    | .secret | .other _ => .error .panic

mutual

/-- `to_mp`: nothing where the value is zero. -/
def toMp (path : Text) (addrKeys : List Text) (depth : Nat) (v : SynValue) :
    Except Stop (Option Mp) :=
  match v with
  | .number n => do
    checkDepth fname path depth
    numberToMp fname path n
  | .bool b => do
    checkDepth fname path depth
    .ok (if b then some (.bool true) else none)
  | .bytes b => bytesToMp fname path depth b
  | .text s => do
    checkDepth fname path depth
    .ok (if s = [] then none else some (.str s))
  | .map m => do
    checkDepth fname path depth
    let entries ← entriesToMp path addrKeys depth m
    .ok (if entries = [] then none else some (.map (sortEntries entries)))
  | .list items => do
    checkDepth fname path depth
    let out ← itemsToMp path depth 0 items
    .ok (if out = [] then none else some (.list out))
  | .secret => do
    checkDepth fname path depth
    fail (fname ++ ": " ++ path ++ (" cannot be a secret (only the signing key is a " ++
      "secret, and it never enters the transaction)").toList)
  | .other typeName => do
    checkDepth fname path depth
    fail (fname ++ ": " ++ path ++ " has unsupported type " ++ typeName ++
      (" (the protocol subset is: integers, bytes, text, booleans, maps, lists)").toList)

/-- The entries of a map, without those that are zero. -/
def entriesToMp (path : Text) (addrKeys : List Text) (depth : Nat) :
    List (Text × SynValue) → Except Stop (List (Text × Mp))
  | [] => .ok []
  | (k, val) :: m => do
    let childPath := path ++ "." ++ k
    let o ← (if k ∈ addrKeys then do
          let pk ← addressField sha512_256 debug fname childPath val
          bytesToMp fname childPath (depth + 1) pk
        else toMp childPath (childAddr k) (depth + 1) val)
    let entries ← entriesToMp path addrKeys depth m
    .ok (match o with
      | some mp => (k, mp) :: entries
      | none => entries)

/-- The elements of a list, from the `i`-th on. -/
def itemsToMp (path : Text) (depth : Nat) : Nat → List SynValue → Except Stop (List Mp)
  | _, [] => .ok []
  | i, it :: items => do
    let o ← toMp (path ++ "[" ++ num i ++ "]") [] (depth + 1) it
    let mp ← inList it o
    let out ← itemsToMp path depth (i + 1) items
    .ok (mp :: out)

end

def txnToMp (v : SynValue) : Except Stop Mp :=
  match v with
  | .map m => do
    match ← toMp sha512_256 debug fname "txn" txnAddrKeys 0 (.map m) with
    | some mp => .ok mp
    | none => fail (fname ++ (": the transaction has no non-zero fields (canonical encoding " ++
        "omits zero values — an empty transaction is a bug, not a payload)").toList)
  | other => fail (fname ++ (": the transaction must be a map with the protocol's short field " ++
      "names (type, snd, rcv, amt, fee, fv, lv, gh, …), got ").toList ++ other.typeName)

end Conversion

/-! ## The bytes to sign -/

/-- `b"TX"`. -/
def domainTag : Bytes := [0x54, 0x58]

def algorandTx (sha512_256 : Bytes → Bytes) (debug : Char → Text) (args : List SynValue) :
    Except Stop SynValue :=
  let fname := "algorand_tx".toList
  match args with
  | [_, _] => fail (fname ++ (": since v0.6.29 algorand_tx builds the bytes to sign (it was " ++
      "algorand_tx_encode) — to assemble a signed transaction use algorand_tx_raw(txn, " ++
      "signature)").toList)
  | [] => fail (fname ++ ": missing argument 1")
  | txn :: _ => do
    let mp ← txnToMp sha512_256 debug fname txn
    .ok (.bytes (domainTag ++ mpWrite mp))

end Synsema.Algorand
