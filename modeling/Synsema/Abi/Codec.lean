import Synsema.Abi.Types

/-!
# ABI encoding and decoding

`abi_encode`, in its form without a selector, and `abi_decode` (`blockchain_abi.rs`).

A list of values is laid out as a head and a tail: a value of a dynamic type stands in the tail,
and its offset in the head.  The writer and the reader of a list take the types with the writer
and the reader of each, so that an array is the list of its elements.
-/

namespace Synsema.Abi

open Text Bytesutil
open Captoken (beBytes)
open Captoken.Cur (beNat)
open Blockchain (Stop Slice toSlice usizeAdd minimalBe toBytesBe)

/-! ## Encoding -/

section Encode

variable (keccak : Bytes → Bytes) (fname : Text)

def u256Word (n : Nat) : Bytes := List.replicate 24 0 ++ beBytes 8 n

/-- A word of 32 bytes that ends with the bytes of a magnitude. -/
def magWord (n : Nat) : Bytes :=
  let mag := if toBytesBe n = [0] then [] else toBytesBe n
  List.replicate (32 - mag.length) 0 ++ mag

@[grind] def encodeAtomic (t : AbiType) (v : SynValue) (path : Text) : Except Stop Bytes :=
  match t with
  | .uint n => do
    let i ← intValue v path fname
    if i < 0 then
      fail (fname ++ ": " ++ path ++ " is negative — a " ++ t.display ++
        " cannot hold a negative value")
    else if n < Nat.size i.natAbs then
      fail (fname ++ ": " ++ path ++ " does not fit in " ++ t.display ++
        " (needs " ++ num (Nat.size i.natAbs) ++ " bits)")
    else return magWord i.natAbs
  | .int n => do
    let i ← intValue v path fname
    let bound : Int := 2 ^ (n - 1)
    if bound ≤ i ∨ i < -bound then
      fail (fname ++ ": " ++ path ++ " does not fit in " ++ t.display ++
        " (range is -2^" ++ num (n - 1) ++ " .. 2^" ++ num (n - 1) ++
        "-1)")
    else
      let m := if i < 0 then i + 2 ^ 256 else i
      return magWord m.natAbs
  | .address => do
    let a ← addr20 keccak v path fname
    return List.replicate 12 0 ++ a
  | .bool =>
    match v with
    | .bool b => .ok (List.replicate 31 0 ++ [if b then 1 else 0])
    | other => fail (fname ++ ": " ++ path ++ " must be true or false, got " ++
        other.typeName)
  | .fixedBytes k =>
    match v with
    | .bytes b =>
      if b.length ≠ k then
        fail (fname ++ ": " ++ path ++ " must be exactly " ++ num k ++
          " bytes for " ++ t.display ++ ", got " ++ num b.length)
      else .ok (b ++ List.replicate (32 - k) 0)
    | other => fail (fname ++ ": " ++ path ++ " must be bytes for " ++
        t.display ++ ", got " ++ other.typeName)
  -- `unreachable!`: only atomic types come here
  | _ => .error .panic

def listItems (v : SynValue) (path : Text) : Except Stop (List SynValue) :=
  match v with
  | .list items => .ok items
  | other => fail (fname ++ ": " ++ path ++ " must be a list, got " ++
      other.typeName)

def pad32Len (n : Nat) : Nat := (n + 31) / 32 * 32

/-- Bytes after their length, filled up with zeros to whole words. -/
def padded (b : Bytes) : Bytes :=
  u256Word b.length ++ b ++ List.replicate (pad32Len b.length - b.length) 0

/-- What encodes the values of a type. -/
abbrev Encoder := SynValue → Text → Except Stop Bytes

/-- The loop of `encode_scope`: the head and the tail, where the tail goes on at `off`. -/
def encodeItems (pathOf : Nat → AbiType → Text) :
    List (AbiType × Encoder) → List SynValue → Nat → Nat → Except Stop (Bytes × Bytes)
  | (t, enc) :: types, v :: vals, i, off => do
    let b ← enc v (pathOf i t)
    if t.isDynamic then
      let r ← encodeItems pathOf types vals (i + 1) (off + b.length)
      return (u256Word off ++ r.1, b ++ r.2)
    else
      let r ← encodeItems pathOf types vals (i + 1) off
      return (b ++ r.1, r.2)
  | _, _, _, _ => .ok ([], [])

def encodeScope (pathOf : Nat → AbiType → Text) (types : List (AbiType × Encoder))
    (vals : List SynValue) : Except Stop Bytes := do
  let r ← encodeItems pathOf types vals 0 (AbiType.sumHeadSize (types.map Prod.fst))
  return r.1 ++ r.2

/-- The path of an item. -/
def itemPath (path : Text) (i : Nat) (_ : AbiType) : Text := path ++ ['['] ++ num i ++ [']']

mutual

@[grind] def encodeValue : AbiType → Encoder
  | .bytes, v, path =>
    match v with
    | .bytes b => .ok (padded b)
    | other => fail (fname ++ ": " ++ path ++ " must be bytes, got " ++
        other.typeName)
  | .string, v, path =>
    match v with
    | .text s => .ok (padded (utf8 s))
    | .secret => fail (fname ++ ": " ++ path ++ " cannot be a secret")
    | other => fail (fname ++ ": " ++ path ++ " must be text for string, got " ++
        other.typeName)
  | .array inner, v, path => do
    let items ← listItems fname v path
    let body ← encodeScope (itemPath path)
      (List.replicate items.length (inner, encodeValue inner)) items
    return u256Word items.length ++ body
  | .fixedArray inner k, v, path => do
    let items ← listItems fname v path
    if items.length ≠ k then
      fail (fname ++ ": " ++ path ++ " must have exactly " ++ num k ++
        " elements for " ++ (AbiType.fixedArray inner k).display ++ ", got " ++
        num items.length)
    else encodeScope (itemPath path) (List.replicate k (inner, encodeValue inner)) items
  | .tuple ts, v, path => do
    let items ← listItems fname v path
    if items.length ≠ ts.length then
      fail (fname ++ ": " ++ path ++ " must have " ++ num ts.length ++
        " elements for " ++ (AbiType.tuple ts).display ++ ", got " ++
        num items.length)
    else encodeScope (itemPath path) (encoders ts) items
  | .struct _, _, _ => fail (fname ++ ": struct types only exist in eip712_digest")
  | t, v, path => encodeAtomic keccak fname t v path

/-- The types of a list, with the encoder of each. -/
def encoders : List AbiType → List (AbiType × Encoder)
  | [] => []
  | t :: ts => (t, encodeValue t) :: encoders ts

end

end Encode

/-- The path of an argument. -/
def argumentPath (i : Nat) (t : AbiType) : Text :=
  "argument " ++ num (i + 1) ++ " (" ++ t.display ++ ")"

/-- `abi_encode`, of types without a selector. -/
def abiEncode (keccak : Bytes → Bytes) (types : List AbiType) (vals : List SynValue) :
    Except Stop Slice := do
  if vals.length ≠ types.length then
    fail ("abi_encode: " ++ (AbiType.tuple types).display ++ " expects " ++
      num types.length ++ " argument(s), got " ++ num vals.length)
  else
    let out ← encodeScope argumentPath (encoders keccak "abi_encode" types) vals
    toSlice out

/-! ## Decoding -/

section Decode

variable (keccak : Bytes → Bytes) (data : Bytes) (fname : Text)

/-- `data[i..j]`. -/
def byteRange (i j : Nat) : Except Stop Bytes :=
  if i ≤ j ∧ j ≤ data.length then .ok ((data.take j).drop i) else .error .panic

/-- `Dec::word`. -/
def word (pos : Nat) : Except Stop Bytes :=
  if data.length < usizeAdd pos 32 then
    fail (fname ++ ": the data is truncated (needed a 32-byte word at offset " ++
      num pos ++ ", data is " ++ num data.length ++ " bytes)")
  else byteRange data pos (usizeAdd pos 32)

/-- Are all the bytes zero? -/
def allZero (b : Bytes) : Bool := b.all (· == 0)

/-- `Dec::usize_word`. -/
def usizeWord (pos : Nat) (what : Text) : Except Stop Nat := do
  let w ← word data fname pos
  if allZero (w.take 24) = false then
    fail (fname ++ ": " ++ what ++ " at offset " ++ num pos ++
      " is out of range")
  else
    let v := beNat (w.drop 24)
    if data.length < v then
      fail (fname ++ ": " ++ what ++ " " ++ num v ++
        " exceeds the data length (" ++ num data.length ++ " bytes)")
    else return v

/-- What decodes a value of a type: the value, and the bytes that it takes. -/
abbrev Decoder := Nat → Except Stop (SynValue × Nat)

/-- The loop of `Dec::scope`: the next head stands at `hp`, the tail has come to `tailPos`. -/
@[grind] def scopeLoop (base : Nat) : List (AbiType × Decoder) → Nat → Nat →
    Except Stop (List SynValue × Nat)
  | [], _, tailPos => .ok ([], tailPos)
  | (t, elem) :: types, hp, tailPos =>
    if t.isDynamic then do
      let off ← usizeWord data fname (usizeAdd base hp) "a dynamic-data offset"
      if off ≠ tailPos then
        fail (fname ++ ": non-canonical encoding (dynamic offset " ++ num off ++
          " where " ++ num tailPos ++ (" was expected — gaps, overlaps and hostile " ++
            "pointers are rejected)").toList)
      else
        let r ← elem (usizeAdd base off)
        let rest ← scopeLoop base types (usizeAdd hp 32) (usizeAdd tailPos r.2)
        return (r.1 :: rest.1, rest.2)
    else do
      let r ← elem (usizeAdd base hp)
      let rest ← scopeLoop base types (usizeAdd hp r.2) tailPos
      return (r.1 :: rest.1, rest.2)

/-- `Dec::scope`. -/
def scope (types : List (AbiType × Decoder)) (base : Nat) : Except Stop (List SynValue × Nat) :=
  let headSize := AbiType.sumHeadSize (types.map Prod.fst)
  if data.length < usizeAdd base headSize then
    fail (fname ++ ": the data is truncated (scope at offset " ++ num base ++
      " needs " ++ num headSize ++ " head bytes, data is " ++ num data.length ++
      " bytes)")
  else scopeLoop data fname base types 0 headSize

/-- A `uint` in a word. -/
def uintElem (n pos : Nat) : Except Stop (SynValue × Nat) := do
  let w ← word data fname pos
  let nb := n / 8
  if allZero (w.take (32 - nb)) = false then
    fail (fname ++ ": dirty padding for " ++ (AbiType.uint n).display ++
      " at offset " ++ num pos ++
      " (the value exceeds the type width — strict decode rejects it)")
  else return (.number (fromBigint (beNat w)), 32)

/-- `BigInt::from_signed_bytes_be`, of a word. -/
def signed (w : Bytes) : Int := if 2 ^ 255 ≤ beNat w then (beNat w : Int) - 2 ^ 256 else beNat w

/-- An `int` in a word. -/
def intElem (n pos : Nat) : Except Stop (SynValue × Nat) := do
  let w ← word data fname pos
  let nb := n / 8
  let fill : UInt8 := if (w.getD (32 - nb) 0) &&& 0x80 ≠ 0 then 0xff else 0
  if nb < 32 ∧ (w.take (32 - nb)).all (· == fill) = false then
    fail (fname ++ ": dirty sign-extension padding for " ++ (AbiType.int n).display ++
      " at offset " ++ num pos)
  else return (.number (fromBigint (signed w)), 32)

/-- An `address` in a word. -/
def addressElem (pos : Nat) : Except Stop (SynValue × Nat) := do
  let w ← word data fname pos
  if allZero (w.take 12) = false then
    fail (fname ++ ": dirty padding for address at offset " ++ num pos ++
      " (top 12 bytes must be zero)")
  else return (.text (eip55 keccak (w.drop 12)), 32)

/-- A `bool` in a word. -/
def boolElem (pos : Nat) : Except Stop (SynValue × Nat) := do
  let w ← word data fname pos
  if allZero (w.take 31) = false ∨ 1 < w.getD 31 0 then
    fail (fname ++ ": invalid bool encoding at offset " ++ num pos ++
      " (must be exactly 0 or 1)")
  else return (.bool (w.getD 31 0 == 1), 32)

/-- A `bytesN` in a word. -/
def fixedBytesElem (k pos : Nat) : Except Stop (SynValue × Nat) := do
  let w ← word data fname pos
  if allZero (w.drop k) = false then
    fail (fname ++ ": dirty padding for " ++ (AbiType.fixedBytes k).display ++
      " at offset " ++ num pos ++ " (trailing bytes must be zero)")
  else return (.bytes (w.take k), 32)

/-- The content of `bytes` and `string`, and the bytes that it takes. -/
def content (t : AbiType) (pos : Nat) : Except Stop (Bytes × Nat) := do
  let len ← usizeWord data fname pos "a length"
  let start := usizeAdd pos 32
  let padded := pad32Len len
  if data.length < usizeAdd start len then
    fail (fname ++ ": the data is truncated (" ++ num len ++
      " bytes of content at offset " ++ num start ++ " exceed the data)")
  else if data.length < usizeAdd start padded then
    fail (fname ++ ": the data is truncated (missing padding after the content at offset " ++
      num start ++ ")")
  else
    let filler ← byteRange data (usizeAdd start len) (usizeAdd start padded)
    if allZero filler = false then
      fail (fname ++ ": dirty padding after " ++ t.display ++
        " content at offset " ++ num start ++ " (must be zero)")
    else
      let b ← byteRange data start (usizeAdd start len)
      return (b, usizeAdd 32 padded)

mutual

/-- `Dec::elem`. -/
@[grind] def elem : AbiType → Decoder
  | .uint n, pos => uintElem data fname n pos
  | .int n, pos => intElem data fname n pos
  | .address, pos => addressElem keccak data fname pos
  | .bool, pos => boolElem data fname pos
  | .fixedBytes k, pos => fixedBytesElem data fname k pos
  | .bytes, pos => do
    let r ← content data fname .bytes pos
    return (.bytes r.1, r.2)
  | .string, pos => do
    let r ← content data fname .string pos
    match fromUtf8 r.1 with
    | some s => return (.text s, r.2)
    | none => fail (fname ++ ": string content at offset " ++ num (usizeAdd pos 32) ++
        " is not valid UTF-8")
  | .array inner, pos => do
    let k ← usizeWord data fname pos "an array length"
    if data.length - usizeAdd pos 32 < k * 32 then
      fail (fname ++ ": array length " ++ num k ++ " at offset " ++ num pos ++
        " exceeds the data (truncated input or hostile length)")
    else
      let r ← scope data fname (List.replicate k (inner, elem inner)) (usizeAdd pos 32)
      return (.list r.1, usizeAdd 32 r.2)
  | .fixedArray inner k, pos => do
    let r ← scope data fname (List.replicate k (inner, elem inner)) pos
    return (.list r.1, r.2)
  | .tuple ts, pos => do
    let r ← scope data fname (elems ts) pos
    return (.list r.1, r.2)
  | .struct _, _ => fail (fname ++ ": struct types only exist in eip712_digest")

/-- The types of a list, with the decoder of each. -/
@[grind] def elems : List AbiType → List (AbiType × Decoder)
  | [] => []
  | t :: ts => (t, elem t) :: elems ts

end

end Decode

def abiDecode (keccak : Bytes → Bytes) (types : List AbiType) (data : Slice) :
    Except Stop (List SynValue) := do
  let fname := "abi_decode".toList
  let r ← scope data.1 fname (elems keccak data.1 fname types) 0
  if r.2 ≠ data.1.length then
    fail ("abi_decode: " ++ num (data.1.length - r.2) ++
      " trailing byte(s) after the encoded data (strict decode rejects extra data)")
  else return r.1

end Synsema.Abi
