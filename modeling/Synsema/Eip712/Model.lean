import Synsema.Abi.Codec
import Synsema.Eip712.TypeParser
import Synsema.Lib.Asking

/-!
# Typed data

`eip712_digest` of `synsema-stdlib/src/blockchain_abi.rs`: the definitions of structs, the text of a
type with all that it refers to, and the hashes of the message and of the domain.

The hash Keccak-256 is a parameter; what is hashed on the way to a digest is kept (`Asking`).  So
are the texts of `{:?}`.
-/

namespace Synsema.Eip712

open Text Bytesutil
open Abi hiding SynValue
open Blockchain (Stop)

/-! ## Values -/

/-- `SynValue`, as far as it is looked at. -/
inductive SynValue where
  | bool (b : Bool)
  | number (n : Number)
  | text (t : Text)
  | bytes (b : Bytes)
  | secret
  | list (items : List SynValue)
  | map (entries : List (Text × SynValue))
  | other (typeName : Text)

/-- `SynMap`, in the order of its keys. -/
abbrev SynMap := List (Text × SynValue)

/-- The value as `encode_atomic` sees it, which looks into no list and no map. -/
def SynValue.atom : SynValue → Abi.SynValue
  | .bool b => .bool b
  | .number n => .number n
  | .text t => .text t
  | .bytes b => .bytes b
  | .secret => .secret
  | .list _ => .list []
  | .map _ => .other "map"
  | .other name => .other name

def SynValue.typeName (v : SynValue) : Text := v.atom.typeName

/-- The name of the builtin, in its errors. -/
def fname : Text := "eip712_digest"

abbrev StructDefs := List (Text × List (Text × AbiType))

/-! ## Definitions -/

section Definitions

variable (debug : Text → Text)

/-- A field of a struct: the `i`-th, from 0. -/
def parseField (tname : Text) (i : Nat) (f : SynValue) : Except Stop (Text × AbiType) :=
  let what : Text := fname ++ ": field " ++ num (i + 1) ++ " of type " ++ debug tname
  match f with
  | .map fm =>
    match fm.lookup "name".toList, fm.lookup "type".toList with
    | none, _ => fail (what ++ " is missing \"name\"")
    | some _, none => fail (what ++ " is missing \"type\"")
    | some (.text name), some (.text type) => do
      let ft ← parseSingleType debug true fname type
      if containsTuple ft then
        fail (fname ++ ": field " ++ debug name ++ " of type " ++ debug tname ++
          (": tuple types are not part of EIP-712 (define a named struct instead)").toList)
      else .ok (name, ft)
    | some _, some _ => fail (what ++ ": \"name\" and \"type\" must be text")
  | other => fail (what ++ " must be a map with \"name\" and \"type\", got " ++
      other.typeName)

/-- The fields of a struct, from the `i`-th on. -/
def parseFields (tname : Text) : Nat → List SynValue → Except Stop (List (Text × AbiType))
  | _, [] => .ok []
  | i, f :: fs => do
    let field ← parseField debug tname i f
    let fields ← parseFields tname (i + 1) fs
    .ok (field :: fields)

/-- The name of a struct does not stand for another type. -/
def checkName (tname : Text) : Except Stop Unit :=
  let invalid : Except Stop Unit := fail (fname ++ ": invalid struct name " ++
    debug tname ++ " (it must be an identifier and cannot shadow a builtin ABI type)")
  if tname = "EIP712Domain" then .ok ()
  else
    match parseType debug true fname tname (maxDepth + 1) tname with
    | .ok (.struct _, []) => .ok ()
    | _ => invalid

/-- A struct. -/
def parseDef (tname : Text) (fields : SynValue) : Except Stop (Text × List (Text × AbiType)) := do
  checkName debug tname
  match fields with
  | .list l => do
    let parsed ← parseFields debug tname 0 l
    .ok (tname, parsed)
  | other => fail (fname ++ ": type " ++ debug tname ++
      " must map to a list of fields, got " ++ other.typeName)

def parseTypes (v : SynValue) : Except Stop StructDefs :=
  match v with
  | .map m => m.mapM fun e => parseDef debug e.1 e.2
  | other => fail (fname ++ ": types must be a map of struct definitions, got " ++
      other.typeName)

end Definitions

/-! ## The text of a type -/

def structRef : AbiType → Option Text
  | .struct n => some n
  | .array t | .fixedArray t _ => structRef t
  | _ => none

section TypeText

variable (debug : Text → Text) (defs : StructDefs)

/-- `collect`, of `encode_type`, with the number of levels that are left: what was seen. -/
def collect : Nat → Text → List Text → List Text → Except Stop (List Text)
  | 0, _, _, _ => fail (fname ++ ": the type reference chain is too deep (max " ++
      num maxDepth ++ " levels)")
  | levels + 1, name, seen, stack =>
    if name ∈ stack then
      fail (fname ++ ": type cycle detected involving " ++ debug name ++
        " (a struct cannot reference itself, directly or indirectly)")
    else if name ∈ seen then .ok seen
    else
      match defs.lookup name with
      -- the callers have looked it up
      | none => .error .panic
      | some fields =>
        fields.foldlM (fun seen f =>
          match structRef f.2 with
          | none => .ok seen
          | some r =>
            if (defs.lookup r).isSome then collect levels r seen (stack ++ [name])
            else fail (fname ++ ": type " ++ debug name ++
              " references undefined type " ++ debug r)) (seen ++ [name])

/-- The text of a field. -/
def fieldText (f : Text × AbiType) : Text := f.2.display ++ ' ' :: f.1

/-- The text of a struct. -/
def structText (name : Text) (fields : List (Text × AbiType)) : Text :=
  name ++ '(' :: (join [','] (fields.map fieldText) ++ [')'])

def encodeType (primary : Text) : Except Stop Text := do
  let seen ← collect debug defs (maxDepth + 1) primary [] []
  let deps := (seen.filter fun n => n ≠ primary).insertionSort (· ≤ ·)
  .ok ((primary :: deps).flatMap fun n => structText n ((defs.lookup n).getD []))

end TypeText

/-! ## The hash of a value -/

/-- 32 bytes. -/
abbrev Word := { b : Bytes // b.length = 32 }

/-- A computation that hashes. -/
abbrev Hashing (α : Type) := Asking Bytes Stop α

section Values

variable (debug : Text → Text) (keccak : Bytes → Word) (defs : StructDefs)

/-- `Keccak256::digest`. -/
def digest (b : Bytes) : Hashing Bytes := Asking.ask (fun b => (keccak b).1) b

/-- A hash that ends with an error. -/
def refuse {α : Type} (message : Text) : Hashing α := Asking.lift (fail message)

/-- What hashes a value of a type, at a path. -/
abbrev Encoder := AbiType → Text → Hashing Bytes

/-- The words of the items of a list, from the `i`-th on. -/
def encodeItems (inner : AbiType) (path : Text) : Nat → List Encoder → Hashing Bytes
  | _, [] => pure []
  | i, enc :: encs => do
    let word ← enc inner (path ++ ['['] ++ num i ++ [']'])
    let rest ← encodeItems inner path (i + 1) encs
    pure (word ++ rest)

/-- The words of the fields of a struct. -/
def encodeFields (name path : Text) (m : List (Text × Encoder)) :
    List (Text × AbiType) → Hashing Bytes
  | [] => pure []
  | (f, t) :: fields =>
    match m.lookup f with
    | none => refuse (fname ++ ": field " ++ debug f ++ " of " ++ debug name ++
        " is missing in " ++ path)
    | some enc => do
      let word ← enc t (path ++ ['.'] ++ f)
      let rest ← encodeFields name path m fields
      pure (word ++ rest)

/-- `hash_struct`, of a map with the encoder of each of its values. -/
def hashStruct (name : Text) (v : SynValue) (path : Text) (m : List (Text × Encoder)) :
    Hashing Bytes :=
  match defs.lookup name with
  | none => refuse (fname ++ ": undefined type " ++ debug name)
  | some fields =>
    match v with
    | .map entries =>
      match entries.find? fun e => !fields.any fun f => f.1 = e.1 with
      | some e => refuse (fname ++ ": unexpected field " ++ debug e.1 ++ " in " ++
          path ++ " (type " ++ debug name ++
          " does not define it — you should not sign data you cannot read)")
      | none => do
        let text ← Asking.lift (encodeType debug defs name)
        let typeHash ← digest keccak (utf8 text)
        let data ← encodeFields debug name path m fields
        digest keccak (typeHash ++ data)
    | other => refuse (fname ++ ": " ++ path ++ " must be a map for type " ++
        debug name ++ ", got " ++ other.typeName)

/-- `list_items`: it is a list. -/
def checkList (v : SynValue) (path : Text) : Hashing Unit :=
  match v with
  | .list _ => pure ()
  | other => refuse (fname ++ ": " ++ path ++ " must be a list, got " ++
      other.typeName)

/-- `encode_712_value`, of a value with the encoders of its items or of its entries. -/
def encodeWith (v : SynValue) (items : List Encoder) (m : List (Text × Encoder)) : Encoder :=
  fun t path =>
    match t with
    | .struct name => hashStruct debug keccak defs name v path m
    | .string =>
      match v with
      | .text s => digest keccak (utf8 s)
      | .secret => refuse (fname ++ ": " ++ path ++ " cannot be a secret")
      | other => refuse (fname ++ ": " ++ path ++ " must be text for string, got " ++
          other.typeName)
    | .bytes =>
      match v with
      | .bytes b => digest keccak b
      | other => refuse (fname ++ ": " ++ path ++ " must be bytes, got " ++
          other.typeName)
    | .array inner => do
      checkList v path
      let concat ← encodeItems inner path 0 items
      digest keccak concat
    | .fixedArray inner k => do
      checkList v path
      if items.length ≠ k then
        refuse (fname ++ ": " ++ path ++ " must have exactly " ++ num k ++
          " elements for " ++ (AbiType.fixedArray inner k).display ++ ", got " ++
          num items.length)
      else do
        let concat ← encodeItems inner path 0 items
        digest keccak concat
    | t => Asking.lift (encodeAtomic (fun b => (keccak b).1) fname t v.atom path)

mutual

def encode712Value : SynValue → Encoder
  | .list items => encodeWith debug keccak defs (.list items) (itemEncoders items) []
  | .map entries => encodeWith debug keccak defs (.map entries) [] (entryEncoders entries)
  | .bool b => encodeWith debug keccak defs (.bool b) [] []
  | .number n => encodeWith debug keccak defs (.number n) [] []
  | .text t => encodeWith debug keccak defs (.text t) [] []
  | .bytes b => encodeWith debug keccak defs (.bytes b) [] []
  | .secret => encodeWith debug keccak defs .secret [] []
  | .other name => encodeWith debug keccak defs (.other name) [] []

/-- The encoders of the items of a list. -/
def itemEncoders : List SynValue → List Encoder
  | [] => []
  | v :: vs => encode712Value v :: itemEncoders vs

/-- The encoders of the entries of a map. -/
def entryEncoders : List (Text × SynValue) → List (Text × Encoder)
  | [] => []
  | (k, v) :: es => (k, encode712Value v) :: entryEncoders es

end

end Values

/-! ## The domain -/

mutual

/-- `==`, of types. -/
def sameType : AbiType → AbiType → Bool
  | .uint n, .uint m | .int n, .int m | .fixedBytes n, .fixedBytes m => n == m
  | .address, .address | .bool, .bool | .bytes, .bytes | .string, .string => true
  | .array t, .array u => sameType t u
  | .fixedArray t k, .fixedArray u l => sameType t u && k == l
  | .tuple ts, .tuple us => sameTypes ts us
  | .struct n, .struct m => n == m
  | _, _ => false

/-- `sameType`, of the types of two lists. -/
def sameTypes : List AbiType → List AbiType → Bool
  | [], [] => true
  | t :: ts, u :: us => sameType t u && sameTypes ts us
  | _, _ => false

end

def domainFields : List (Text × AbiType) :=
  [("name", .string), ("version", .string), ("chainId", .uint 256),
    ("verifyingContract", .address), ("salt", .fixedBytes 32)]

section Domain

variable (debug : Text → Text) (keccak : Bytes → Word) (defs : StructDefs)

/-- The word of a field of the domain. -/
def domainWord (t : AbiType) (v : SynValue) (path : Text) : Hashing Bytes :=
  match t with
  | .string =>
    match v with
    | .text s => digest keccak (utf8 s)
    | other => refuse (fname ++ ": " ++ path ++ " must be text, got " ++
        other.typeName)
  | t => Asking.lift (encodeAtomic (fun b => (keccak b).1) fname t v.atom path)

/-- The words of the fields that are there. -/
def domainWords (m : SynMap) : List (Text × AbiType) → Hashing Bytes
  | [] => pure []
  | (f, t) :: fields =>
    match m.lookup f with
    -- the field is there
    | none => Asking.lift (.error .panic)
    | some v => do
      let word ← domainWord keccak t v ("domain." ++ f)
      let rest ← domainWords m fields
      pure (word ++ rest)

def domainSeparator (domain : SynValue) : Hashing Bytes :=
  match domain with
  | .map m =>
    match m.find? fun e => !domainFields.any fun f => f.1 = e.1 with
    | some e => refuse (fname ++ ": unknown domain field " ++ debug e.1 ++
        (" (the EIP-712 domain allows: name, version, chainId, verifyingContract, " ++
          "salt)").toList)
    | none =>
      let present := domainFields.filter fun f => (m.lookup f.1).isSome
      let declared : Bool :=
        match defs.lookup "EIP712Domain".toList with
        | none => true
        | some user => user.length == present.length &&
            (user.zip present).all fun p => p.1.1 == p.2.1 && sameType p.1.2 p.2.2
      if declared = false then
        refuse (fname ++ (": the \"EIP712Domain\" entry in types does not match the domain " ++
          "map (expected fields, in order: ").toList ++
          join ", " (present.map Prod.fst) ++ ")")
      else do
        let typeHash ← digest keccak (utf8 (structText "EIP712Domain" present))
        let data ← domainWords keccak m present
        digest keccak (typeHash ++ data)
  | other => refuse (fname ++ ": domain must be a map, got " ++ other.typeName)

end Domain

/-! ## The digest -/

def eip712Digest (debug : Text → Text) (keccak : Bytes → Word)
    (domain types primary message : SynValue) : Hashing Bytes := do
  let defs ← Asking.lift (parseTypes debug types)
  match primary with
  | .text name =>
    if name = "EIP712Domain" then
      refuse (fname ++ (": the primary type cannot be \"EIP712Domain\" (that is the domain, not " ++
        "the message)").toList)
    else if (defs.lookup name).isSome = false then
      refuse (fname ++ ": primary type " ++ debug name ++
        " is not defined in types")
    else do
      let dsep ← domainSeparator debug keccak defs domain
      let mhash ← encode712Value debug keccak defs message (.struct name) "message"
      digest keccak ([0x19, 0x01] ++ (dsep ++ mhash))
  | other => refuse (fname ++ ": the primary type must be text, got " ++ other.typeName)

end Synsema.Eip712
