import Synsema.Blockchain.Bytes
import Synsema.Decimal
import Synsema.Lib.Except

/-!
# ABI types and values

The types of Ethereum's ABI (`AbiType` of `synsema-stdlib/src/blockchain_abi.rs`) with their
sizes, the values that are encoded, and the addresses among them.

The hash Keccak-256 is not part of the repository: it is a parameter, a function from byte
strings to byte strings.
-/

namespace Synsema.Abi

open Text Bytesutil
open Blockchain (Stop Slice usizeAdd)

/-! ## Types -/

inductive AbiType where
  | uint (n : Nat)
  | int (n : Nat)
  | address
  | bool
  | fixedBytes (k : Nat)
  | bytes
  | string
  | array (inner : AbiType)
  | fixedArray (inner : AbiType) (k : Nat)
  | tuple (ts : List AbiType)
  /-- Only in EIP-712. -/
  | struct (name : Text)

/-- The decimal digits of a number. -/
def num (n : Nat) : Text := (toString n).toList

namespace AbiType

mutual

/-- `fmt`: the canonical form. -/
def display : AbiType → Text
  | uint n => "uint" ++ num n
  | int n => "int" ++ num n
  | address => "address"
  | bool => "bool"
  | fixedBytes k => "bytes" ++ num k
  | bytes => "bytes"
  | string => "string"
  | array t => display t ++ "[]"
  | fixedArray t k => display t ++ ['['] ++ num k ++ [']']
  | tuple ts => ['('] ++ join [','] (displays ts) ++ [')']
  | struct name => name

/-- `display`, of each type. -/
def displays : List AbiType → List Text
  | [] => []
  | t :: ts => display t :: displays ts

end

mutual

def isDynamic : AbiType → Bool
  | bytes | string | array _ => true
  | fixedArray t _ => isDynamic t
  | tuple ts => anyDynamic ts
  | _ => false

/-- `iter().any(is_dynamic)`. -/
def anyDynamic : List AbiType → Bool
  | [] => false
  | t :: ts => isDynamic t || anyDynamic ts

end

/-- `usize` multiplication. -/
def usizeMul (a b : Nat) : Nat := a * b % 2 ^ 64

mutual

def staticSize : AbiType → Nat
  | fixedArray t k => usizeMul (staticSize t) k
  | tuple ts => sumStaticSize ts
  | _ => 32

/-- `map(static_size).sum()`. -/
def sumStaticSize : List AbiType → Nat
  | [] => 0
  | t :: ts => usizeAdd (staticSize t) (sumStaticSize ts)

end

def headSize (t : AbiType) : Nat := if t.isDynamic then 32 else t.staticSize

/-- `map(head_size).sum()`. -/
def sumHeadSize : List AbiType → Nat
  | [] => 0
  | t :: ts => usizeAdd t.headSize (sumHeadSize ts)

mutual

/-- The types that `parse_type` gives for a signature: widths in range, and no tuple and no
fixed array without elements. -/
def Valid : AbiType → Prop
  | uint n | int n => 8 ≤ n ∧ n ≤ 256 ∧ n % 8 = 0
  | fixedBytes k => 1 ≤ k ∧ k ≤ 32
  | array t => Valid t
  | fixedArray t k => Valid t ∧ 0 < k ∧ k < 2 ^ 64
  | tuple ts => ts ≠ [] ∧ AllValid ts
  | struct _ => False
  | _ => True

/-- `Valid`, of each type. -/
def AllValid : List AbiType → Prop
  | [] => True
  | t :: ts => Valid t ∧ AllValid ts

end

theorem anyDynamic_iff {ts : List AbiType} : anyDynamic ts ↔ ∃ t ∈ ts, t.isDynamic = true := by
  induction ts with
  | nil => simp [anyDynamic]
  | cons t ts ih => rw [anyDynamic, Bool.or_eq_true, ih, List.exists_mem_cons_iff]

end AbiType

/-! ## Values -/

/-- `SynValue`, as far as the codec looks at it: of a kind that no type takes, the name of the
type. -/
inductive SynValue where
  | bool (b : Bool)
  | number (n : Number)
  | text (t : Text)
  | bytes (b : Bytes)
  | list (items : List SynValue)
  | secret
  | other (typeName : Text)

def SynValue.typeName : SynValue → Text
  | .bool _ => "bool"
  | .number (.decimal _) | .number (.bigDec ..) => "decimal"
  | .number _ => "number"
  | .text _ => "text"
  | .bytes _ => "bytes"
  | .list _ => "list"
  | .secret => "secret"
  | .other name => name

/-- `Number::from_bigint`. -/
def fromBigint (b : Int) : Number :=
  if -2 ^ 63 ≤ b ∧ b < 2 ^ 63 then .int (Int64.ofInt b) else .big b

def asBigint : Number → Option Int
  | .int n => some n.toInt
  | .big b => some b
  | .float _ => none
  | .decimal d => if d.mantissa % 10 ^ d.scale = 0 then some (d.mantissa / 10 ^ d.scale) else none
  | .bigDec m s => if m % 10 ^ s = 0 then some (m / 10 ^ s) else none

/-- A failure with a message. -/
def fail {α : Type} (message : Text) : Except Stop α := .error (.err message)

section Steps

variable {α β : Type}

theorem pure_ok {a b : α} : (pure a : Except Stop α) = .ok b ↔ a = b := by
  change Except.ok a = .ok b ↔ _
  rw [Except.ok.injEq]

theorem fail_ne_ok {message : Text} {a : α} : fail message ≠ .ok a := nofun

theorem if_fail_ok {c : Prop} [Decidable c] {message : Text} {x : Except Stop α} {a : α} :
    (if c then fail message else x) = .ok a ↔ ¬ c ∧ x = .ok a := by
  by_cases hc : c
  · rw [if_pos hc]
    exact ⟨fun h => (fail_ne_ok h).elim, fun h => (h.1 hc).elim⟩
  · rw [if_neg hc]
    exact ⟨fun h => ⟨hc, h⟩, And.right⟩

end Steps

def intValue (v : SynValue) (path fname : Text) : Except Stop Int :=
  match v with
  | .number n =>
    match asBigint n with
    | some b => .ok b
    | none => fail (fname ++ ": " ++ path ++ (" must be an exact integer (floats lose " ++
        "precision — a uint256 amount needs exact integers)").toList)
  | .secret => fail (fname ++ ": " ++ path ++ " cannot be a secret")
  | other => fail (fname ++ ": " ++ path ++ " must be an integer, got " ++
      other.typeName)

/-! ## Hexadecimal texts -/

/-- `HEX`. -/
def hexDigit (n : Nat) : Char := "0123456789abcdef".toList.getD n '0'

def hexEncode (b : Bytes) : Text :=
  b.flatMap fun c => [hexDigit (c.toNat / 16), hexDigit (c.toNat % 16)]

def hexVal (c : Char) : Option Nat :=
  if '0' ≤ c ∧ c ≤ '9' then some (c.toNat - 48)
  else if 'a' ≤ c ∧ c ≤ 'f' then some (c.toNat - 87)
  else if 'A' ≤ c ∧ c ≤ 'F' then some (c.toNat - 55)
  else none

/-- `is_ascii_hexdigit`. -/
def isHexDigit (c : Char) : Bool := (hexVal c).isSome

/-- The bytes of pairs of hexadecimal digits. -/
def hexPairs : Text → Option Bytes
  | [] => some []
  | [_] => none
  | h :: l :: t => do
    let hi ← hexVal h
    let lo ← hexVal l
    let bs ← hexPairs t
    return UInt8.ofNat (hi * 16 + lo) :: bs

/-! ## Addresses -/

section Addresses

variable (keccak : Bytes → Bytes)

/-- The digits of an address, a letter in capitals where the digit of the hash at its place is
at least 8. -/
def checksummed : Text → Text → Text
  | [], _ => []
  | c :: t, hash =>
    (if c.isDigit then c else if '8' ≤ hash.headD '0' then c.toUpper else c) ::
      checksummed t hash.tail

def eip55 (a : Bytes) : Text :=
  let hexs := hexEncode a
  ['0', 'x'] ++ checksummed hexs (hexEncode (keccak (utf8 hexs)))

/-- The part of an address after its `0x`. -/
def stripHexPrefix (s : Text) : Option Text :=
  (stripPrefix ['0', 'x'] s).or (stripPrefix ['0', 'X'] s)

def addr20 (v : SynValue) (path fname : Text) : Except Stop Bytes :=
  match v with
  | .bytes b =>
    if b.length ≠ 20 then
      fail (fname ++ ": " ++ path ++ " must be a 20-byte address, got " ++
        num b.length ++ " bytes")
    else .ok b
  | .text s =>
    match stripHexPrefix s with
    | none => fail (fname ++ ": " ++ path ++
        " must be a \"0x…\" address (40 hex chars) or 20 bytes")
    | some hexs =>
      if (utf8 hexs).length ≠ 40 ∨ hexs.all isHexDigit = false then
        fail (fname ++ ": " ++ path ++
          " is not a valid address (need exactly 40 hex chars after 0x)")
      else
        match hexPairs hexs with
        | none => fail (fname ++ ": " ++ path ++ ": invalid hex")
        | some raw =>
          let want := eip55 keccak raw
          if hexs.any Char.isLower ∧ hexs.any Char.isUpper ∧ want.drop 2 ≠ hexs then
            fail (fname ++ ": " ++ path ++ (" has an invalid EIP-55 checksum " ++
              "(did you paste it wrong?); expected ").toList ++ want)
          else .ok raw
  | .secret => fail (fname ++ ": " ++ path ++ " cannot be a secret")
  | other => fail (fname ++ ": " ++ path ++
      " must be an address (\"0x…\" text or 20 bytes), got " ++ other.typeName)

end Addresses

end Synsema.Abi
