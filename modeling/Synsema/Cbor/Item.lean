import Synsema.Captoken.Msgpack

/-!
# CBOR

The codec of attestation documents (`synsema-stdlib/src/cbor.rs`): an item and its
encoding, the decoder with its two modes, and the `COSE_Sign1` envelope.

A float is its 64 bits.  Lengths are those of a 64-bit machine.
-/

namespace Synsema

open Bytesutil Captoken

inductive Cbor
  | int (i : Int)
  | bytes (b : Bytes)
  | text (t : Text)
  | array (items : List Cbor)
  | map (pairs : List (Cbor × Cbor))
  | tag (t : UInt64) (inner : Cbor)
  | bool (b : Bool)
  | null
  | undefined
  | float (bits : UInt64)

namespace Cbor

def maxDepth : Nat := 64

/-! ## Encoding -/

/-- `head`: the major type, and the argument in its shortest form. -/
def head (major : UInt8) (arg : UInt64) : Bytes :=
  let m := major <<< 5
  if arg < 24 then [m ||| arg.toUInt8]
  else if arg ≤ 0xff then (m ||| 24) :: beBytes 1 arg.toNat
  else if arg ≤ 0xffff then (m ||| 25) :: beBytes 2 arg.toNat
  else if arg ≤ 0xffffffff then (m ||| 26) :: beBytes 4 arg.toNat
  else (m ||| 27) :: beBytes 8 arg.toNat

mutual

/-- `Cbor::encode`. -/
def encode : Cbor → Bytes
  | .int i =>
    if 0 ≤ i then head 0 (UInt64.ofNat i.toNat)
    else head 1 (UInt64.ofNat (-1 - i).toNat)
  | .bytes b => head 2 (UInt64.ofNat b.length) ++ b
  | .text t => head 3 (UInt64.ofNat (utf8 t).length) ++ utf8 t
  | .array items => head 4 (UInt64.ofNat items.length) ++ encodeAll items
  | .map pairs => head 5 (UInt64.ofNat pairs.length) ++ encodePairs pairs
  | .tag t inner => head 6 t ++ encode inner
  | .bool false => [0xf4]
  | .bool true => [0xf5]
  | .null => [0xf6]
  | .undefined => [0xf7]
  | .float bits => 0xfb :: beBytes 8 bits.toNat

/-- The items of an array, one after the other. -/
def encodeAll : List Cbor → Bytes
  | [] => []
  | x :: xs => encode x ++ encodeAll xs

/-- The pairs of a map, one after the other. -/
def encodePairs : List (Cbor × Cbor) → Bytes
  | [] => []
  | (k, v) :: ps => encode k ++ encode v ++ encodePairs ps

end

/-! ## Decoding -/

structure CborError where
  offset : Nat
  message : Text
deriving DecidableEq

/-- The digits of a number, as `format!` writes them. -/
def display (n : Nat) : Text := (toString n).toList

/-- `CborError`, displayed. -/
def CborError.toText (e : CborError) : Text :=
  "cbor: " ++ e.message ++ " (at byte " ++ display e.offset ++ ")"

/-- `Decoder`: what is left of the buffer, how much was read, and whether an item of
indefinite length was. -/
structure Decoder where
  rest : Bytes
  pos : Nat
  sawIndefinite : Bool

/-- What the decoder reads, or why it does not. -/
abbrev Dec := StateT Decoder (Except CborError)

namespace Dec

/-- `Decoder::err`. -/
def err {α : Type} (message : Text) : Dec α := fun d => .error { offset := d.pos, message }

/-- `Decoder::byte`. -/
def byte : Dec UInt8 := fun d =>
  match d.rest with
  | [] => err "unexpected end of input" d
  | b :: rest => .ok (b, { d with rest, pos := d.pos + 1 })

/-- `Decoder::take`. -/
def take (n : Nat) : Dec Bytes := fun d =>
  if d.rest.length < n then
    err ("length " ++ display n ++ " exceeds the " ++ display d.rest.length ++
      " remaining byte(s)") d
  else .ok (d.rest.take n, { d with rest := d.rest.drop n, pos := d.pos + n })

/-- A big-endian number of `n` bytes. -/
def be (n : Nat) : Dec Nat := do return Cur.beNat (← take n)

/-- `Decoder::arg`: the argument of a head; none is an indefinite length. -/
def arg (ai : UInt8) : Dec (Option Nat) := do
  if ai ≤ 23 then return some ai.toNat
  else if ai = 24 then return some (← byte).toNat
  else if ai = 25 then return some (← be 2)
  else if ai = 26 then return some (← be 4)
  else if ai = 27 then return some (← be 8)
  else if ai = 31 then return none
  else err ("reserved additional info " ++ display ai.toNat)

/-- `Decoder::len`: a length, of no more than what is left. -/
def len (ai : UInt8) (what : Text) : Dec Nat := do
  match ← arg ai with
  | some n =>
    let d ← get
    if d.rest.length < n then
      err (what ++ " length " ++ display n ++ " exceeds the " ++
        display d.rest.length ++ " remaining byte(s)")
    else return n
  | none =>
    err ("indefinite-length " ++ what ++
      " is not supported (definite encoding only)")

/-- A head's argument, where it may not be indefinite. -/
def definiteArg (ai : UInt8) (message : Text) : Dec Nat := do
  match ← arg ai with
  | some n => return n
  | none => err message

/-- `BREAK`. -/
def breakByte : UInt8 := 0xff

/-- `Decoder::at_break`. -/
def atBreak : Dec Bool := do
  match (← get).rest with
  | b :: _ => return b = breakByte
  | [] => err "unexpected end of input inside an indefinite-length item"

/-- A reader run `n` times. -/
def times {α : Type} (p : Dec α) : Nat → Dec (List α)
  | 0 => return []
  | n + 1 => do
    let a ← p
    let as ← times p n
    return a :: as

/-- A reader run until the break, which is skipped.  Each turn reads something, so that there
are never more turns than bytes: see `untilBreak_fuel`. -/
def untilBreakLoop {α : Type} (p : Dec α) : Nat → Dec (List α)
  | 0 => err "unexpected end of input inside an indefinite-length item"
  | fuel + 1 => do
    if ← atBreak then
      let _ ← byte
      return []
    else
      let a ← p
      let as ← untilBreakLoop p fuel
      return a :: as

/-- A reader run until the break. -/
def untilBreak {α : Type} (p : Dec α) : Dec (List α) := fun d =>
  untilBreakLoop p (d.rest.length + 1) d

/-- What a string of a major type is called in an error. -/
def stringName (major : UInt8) : Text :=
  if major = 2 then "byte string" else "text string"

/-- One chunk of `Decoder::indefinite_string`. -/
def chunk (major : UInt8) : Dec Bytes := do
  let what := stringName major
  let initial ← byte
  if initial >>> 5 ≠ major then
    err ("indefinite-length " ++ what ++ " has a chunk of another major type")
  else if initial &&& 0x1f = 31 then
    err ("indefinite-length " ++ what ++ " has a nested indefinite chunk")
  else
    let chunk ← take (← len (initial &&& 0x1f) what)
    if major = 3 ∧ (fromUtf8 chunk).isNone then err "text string chunk is not UTF-8"
    else return chunk

/-- `Decoder::indefinite_string`. -/
def indefiniteString (major : UInt8) : Dec Bytes := do
  return (← untilBreak (chunk major)).flatten

/-- Bytes as a text. -/
def utf8Text (raw : Bytes) : Dec Cbor :=
  match fromUtf8 raw with
  | some t => return .text t
  | none => err "text string is not UTF-8"

end Dec

/-! ### Narrow floats -/

/-- The 64 bits of `± m · 2 ^ e`, for a number that is normal among them, or zero. -/
def f64Bits (negative : Bool) (m : Nat) (e : Int) : UInt64 :=
  let sign := if negative then 2 ^ 63 else 0
  if m = 0 then UInt64.ofNat sign
  else
    let k := m.log2
    UInt64.ofNat (sign + (e + k + 1023).toNat * 2 ^ 52 + (m - 2 ^ k) * 2 ^ (52 - k))

/-- An infinity. -/
def f64Infinity (negative : Bool) : UInt64 := if negative then 0xfff0000000000000 else 0x7ff0000000000000

def f64Nan : UInt64 := 0x7ff8000000000000

def f16ToF64 (h : Nat) : UInt64 :=
  let exp : Nat := h / 2 ^ 10 % 2 ^ 5
  let mant : Nat := h % 2 ^ 10
  let negative : Bool := h / 2 ^ 15 % 2 = 1
  if exp = 0 then f64Bits negative mant (-24)
  else if exp ≠ 31 then f64Bits negative (mant + 1024) (exp - 25)
  else if mant = 0 then f64Infinity negative
  else f64Nan

/-- `f64::from` of the 32 bits of an `f32`.  Which NaN a NaN becomes is not promised. -/
def f32ToF64 (h : Nat) : UInt64 :=
  let exp : Nat := h / 2 ^ 23 % 2 ^ 8
  let mant : Nat := h % 2 ^ 23
  let negative : Bool := h / 2 ^ 31 % 2 = 1
  if exp = 0 then f64Bits negative mant (-149)
  else if exp ≠ 255 then f64Bits negative (mant + 2 ^ 23) (exp - 150)
  else if mant = 0 then f64Infinity negative
  else f64Nan

/-! ### Items -/

namespace Dec

/-- A simple value or a float: major type 7. -/
def simple (ai : UInt8) : Dec Cbor := do
  if ai = 20 then return .bool false
  else if ai = 21 then return .bool true
  else if ai = 22 then return .null
  else if ai = 23 then return .undefined
  else if ai = 24 then
    if (← byte) < 32 then err "invalid simple value"
    else return .undefined
  else if ai = 25 then return .float (f16ToF64 (← be 2))
  else if ai = 26 then return .float (f32ToF64 (← be 4))
  else if ai = 27 then return .float (UInt64.ofNat (← be 8))
  else if ai = 31 then
    err "unexpected break (indefinite-length items are not supported)"
  else return .undefined

/-- A key and its value. -/
def pair (item : Dec Cbor) : Dec (Cbor × Cbor) := do
  let k ← item
  let v ← item
  return (k, v)

/-- A key and its value, where the break may come instead of the value. -/
def pairOrBreak (item : Dec Cbor) : Dec (Cbor × Cbor) := do
  let k ← item
  if ← atBreak then err "indefinite-length map has a key without a value"
  else
    let v ← item
    return (k, v)

/-- The part of `Decoder::item` for items of indefinite length. -/
def openItem (item : Dec Cbor) (major : UInt8) : Dec Cbor := do
  modify fun d => { d with sawIndefinite := true }
  if major = 2 then return .bytes (← indefiniteString 2)
  else if major = 3 then utf8Text (← indefiniteString 3)
  else if major = 4 then return .array (← untilBreak item)
  else return .map (← untilBreak (pairOrBreak item))

/-- The part of `Decoder::item` for the other items. -/
def closedItem (item : Dec Cbor) (major ai : UInt8) : Dec Cbor := do
  if major = 0 then return .int (← definiteArg ai "indefinite integer")
  else if major = 1 then return .int (-1 - (← definiteArg ai "indefinite integer"))
  else if major = 2 then return .bytes (← take (← len ai "byte string"))
  else if major = 3 then utf8Text (← take (← len ai "text string"))
  else if major = 4 then return .array (← times item (← len ai "array"))
  else if major = 5 then return .map (← times (pair item) (← len ai "map"))
  else if major = 6 then
    let t ← definiteArg ai "indefinite tag"
    return .tag (UInt64.ofNat t) (← item)
  else simple ai

/-- `Decoder::item`, with room for so many levels, this one included. -/
def item (allowIndefinite : Bool) : Nat → Dec Cbor
  | 0 => err ("nesting deeper than " ++ display maxDepth)
  | room + 1 => do
    let initial ← byte
    let major := initial >>> 5
    let ai := initial &&& 0x1f
    if ai = 31 ∧ 2 ≤ major ∧ major ≤ 5 ∧ allowIndefinite then
      openItem (item allowIndefinite room) major
    else closedItem (item allowIndefinite room) major ai

end Dec

/-- The decoder at the start of a buffer. -/
def Decoder.start (b : Bytes) : Decoder := { rest := b, pos := 0, sawIndefinite := false }

/-- The error of a buffer that is not at its end. -/
def trailing (d : Decoder) : CborError :=
  { offset := d.pos, message := display d.rest.length ++ " trailing byte(s) after the item" }

def decodePrefix (b : Bytes) : Except CborError (Cbor × Nat) := do
  let (item, d) ← Dec.item false (maxDepth + 1) (.start b)
  return (item, d.pos)

def decode (b : Bytes) : Except CborError Cbor := do
  let (item, used) ← decodePrefix b
  if used ≠ b.length then
    throw (trailing { rest := b.drop used, pos := used, sawIndefinite := false })
  else return item

def decodeAllowIndefinite (b : Bytes) : Except CborError (Cbor × Bool) := do
  let (item, d) ← Dec.item true (maxDepth + 1) (.start b)
  if d.pos ≠ b.length then throw (trailing d)
  else return (item, d.sawIndefinite)

/-! ## `COSE_Sign1` -/

def coseSign1Tag : UInt64 := 18

/-- `Cbor::as_array`. -/
def asArray : Cbor → Option (List Cbor)
  | .array items => some items
  | _ => none

/-- `Cbor::as_bytes`. -/
def asBytes : Cbor → Option Bytes
  | .bytes b => some b
  | _ => none

/-- Whether an item is a map. -/
def isMap : Cbor → Bool
  | .map _ => true
  | _ => false

structure CoseSign1 where
  protectedHeader : Bytes
  unprotected : Cbor
  payload : Option Bytes
  signature : Bytes

namespace CoseSign1

/-- What stands inside the outer tag, if it is the one expected. -/
def untag : Cbor → Except Text Cbor
  | .tag t inner =>
    if t = coseSign1Tag then .ok inner
    else .error ("COSE_Sign1: unexpected tag " ++ display t.toNat ++ " (expected 18)")
  | other => .ok other

/-- The payload of the third element. -/
def payloadOf : Cbor → Except Text (Option Bytes)
  | .null => .ok none
  | .bytes b => .ok (some b)
  | _ => .error "COSE_Sign1: payload must be a byte string or nil"

/-- An option, with the error of its absence. -/
def okOr {α : Type} (o : Option α) (message : Text) : Except Text α :=
  match o with
  | some a => .ok a
  | none => .error message

/-- `CoseSign1::parse`. -/
def parse (b : Bytes) : Except Text CoseSign1 := do
  let item ← (decode b).mapError CborError.toText
  let inner ← untag item
  let parts ← okOr inner.asArray "COSE_Sign1: not an array"
  match parts with
  | [p₀, p₁, p₂, p₃] =>
    let protectedHeader ← okOr p₀.asBytes
      "COSE_Sign1: protected header must be a byte string"
    if !p₁.isMap then throw "COSE_Sign1: unprotected header must be a map".toList
    let payload ← payloadOf p₂
    let signature ← okOr p₃.asBytes "COSE_Sign1: signature must be a byte string"
    return { protectedHeader, unprotected := p₁, payload, signature }
  | _ =>
    throw ("COSE_Sign1: expected 4 elements, got " ++ display parts.length)

/-- `encode_untagged_item`. -/
def untaggedItem (c : CoseSign1) : Cbor :=
  .array [.bytes c.protectedHeader, c.unprotected,
    match c.payload with
    | some p => .bytes p
    | none => .null,
    .bytes c.signature]

def encodeTagged (c : CoseSign1) : Bytes := (Cbor.tag coseSign1Tag c.untaggedItem).encode

def encodeUntagged (c : CoseSign1) : Bytes := c.untaggedItem.encode

end CoseSign1

end Cbor

end Synsema
