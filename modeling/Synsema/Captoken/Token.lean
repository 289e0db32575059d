import Synsema.Captoken.Msgpack

/-!
# Capability tokens

A token is a chain of blocks of permissions and caveats, signed by a chain of HMACs, and
its transport text (`synsema-stdlib/src/captoken.rs`).  The HMAC is a parameter.

The text of a token is read back as the token in its canonical form
(`decodeToken_encodeToken`).
-/

namespace Synsema.Captoken

open Text Bytesutil

/-! ## Tokens -/

/-- The permissions of a block: names of capabilities with their scopes, none meaning the
capability without scope. -/
abbrev Caps := List (Text × List Text)

/-- The caveats of a block. -/
structure Caveats where
  /-- When the token expires. -/
  exp : Option Int
  aud : Option Text
  ip : Option Text
  method : Option Text
  /-- The delegated limits: units and amounts. -/
  spend : List (Text × Text)
  deterministic : Bool
  llmTokens : Option Nat
deriving DecidableEq

def Caveats.default : Caveats :=
  { exp := none, aud := none, ip := none, method := none, spend := [], deterministic := false,
    llmTokens := none }

/-- A block of the chain. -/
structure Block where
  caps : Caps
  caveats : Caveats
deriving DecidableEq

/-- A token. -/
structure Token where
  id : Text
  blocks : List Block
  sig : Bytes
deriving DecidableEq

def formatVersion : Nat := 1

def maxDepth : Nat := 32

/-! ## The canonical form -/

/-- The permissions in their canonical order. -/
def Caps.canonical (caps : Caps) : Caps :=
  (caps.map fun (name, scopes) => (name, scopes.insertionSort (· ≤ ·))).insertionSort
    fun a b => a.1 ≤ b.1

/-- The limits in their canonical order. -/
def sortSpend (spend : List (Text × Text)) : List (Text × Text) :=
  (spend.insertionSort fun a b => a.1 < b.1 ∨ a.1 = b.1 ∧ a.2 ≤ b.2).insertionSort
    fun a b => a.1 ≤ b.1

def capsToMp (caps : Caps) : Mp :=
  .map (caps.map fun (name, scopes) =>
    (name, .list ((scopes.insertionSort (· ≤ ·)).map Mp.str)))

/-- One caveat that is set. -/
inductive Caveat where
  | exp (e : Int)
  | aud (t : Text)
  | ip (t : Text)
  | method (t : Text)
  | spend (l : List (Text × Text))
  | deterministic
  | llmTokens (n : Nat)

namespace Caveat

/-- The name of a caveat. -/
def name : Caveat → String
  | exp _ => "exp"
  | aud _ => "aud"
  | ip _ => "ip"
  | method _ => "method"
  | spend _ => "spend"
  | deterministic => "deterministic"
  | llmTokens _ => "llm_tokens"

/-- The key of a caveat. -/
def key (i : Caveat) : Text := i.name.toList

/-- The value of a caveat. -/
def mp : Caveat → Mp
  | exp e => .uint (max e 0).toNat
  | aud t => .str t
  | ip t => .str t
  | method t => .str t
  | spend l => .map ((l.insertionSort fun a b => a.1 < b.1 ∨ a.1 = b.1 ∧ a.2 ≤ b.2).map
      fun (u, a) => (u, .str a))
  | deterministic => .uint 1
  | llmTokens n => .uint n

end Caveat

/-- The caveats that are set. -/
def Caveats.items (c : Caveats) : List Caveat :=
  (c.exp.map Caveat.exp).toList ++ (c.aud.map Caveat.aud).toList ++
    (c.ip.map Caveat.ip).toList ++ (c.method.map Caveat.method).toList ++
    (if c.spend.isEmpty then [] else [.spend c.spend]) ++
    (if c.deterministic then [.deterministic] else []) ++
    (c.llmTokens.map Caveat.llmTokens).toList

/-- `caveats_to_mp`: only what is set. -/
def caveatsToMp (c : Caveats) : Mp := .map (c.items.map fun i => (i.key, i.mp))

/-! ## Signatures -/

/-- `block_bytes`: what is signed of a block, with its place in the chain. -/
def blockBytes (index : Nat) (b : Block) : Bytes :=
  Mp.map [("i", .uint index), ("c", capsToMp b.caps),
    ("v", caveatsToMp b.caveats)]

/-- `chain_signature`: the signature of each block is the key of the next one. -/
def chainSignature (hmac : Bytes → Bytes → Bytes) (rootKey : Bytes) (id : Text)
    (blocks : List Block) : Bytes :=
  blocks.zipIdx.foldl (fun sig (b, i) => hmac sig (blockBytes i b)) (hmac rootKey (utf8 id))

/-! ## The transport text -/

/-- The tree of a block. -/
def blockToMp (b : Block) : Mp :=
  .map [("c", capsToMp b.caps), ("v", caveatsToMp b.caveats)]

/-- The tree of a token. -/
def tokenToMp (t : Token) : Mp :=
  .map [("b", .list (t.blocks.map blockToMp)), ("i", .str t.id),
    ("s", .bytes t.sig), ("z", .uint formatVersion)]

def encodeToken (t : Token) : Text := b64urlEncode (tokenToMp t)

/-! ## Reading -/

open Cur

/-- A name with its scopes. -/
def readScopes : Cur (Text × List Text) := do
  let name ← str
  let n ← listLen
  let scopes ← repeat_ str n
  return (name, scopes)

def decodeCaps : Cur Caps := do
  let n ← mapLen
  repeat_ readScopes n

/-- A unit with its amount. -/
def readLimit : Cur (Text × Text) := do
  let unit ← str
  let amount ← str
  return (unit, amount)

/-- The delegated limits. -/
def readSpend : Cur (List (Text × Text)) := do
  let n ← mapLen
  repeat_ readLimit n

/-- One entry of the caveats; a key that is not known ends the reading. -/
def readCaveat (out : Caveats) : Cur Caveats := do
  let key ← str
  if key = "exp" then
    let n ← uint
    return { out with exp := some ((n : Int).bmod (2 ^ 64)) }
  else if key = "aud" then
    let t ← str
    return { out with aud := some t }
  else if key = "ip" then
    let t ← str
    return { out with ip := some t }
  else if key = "method" then
    let t ← str
    return { out with method := some t }
  else if key = "spend" then
    let l ← readSpend
    return { out with spend := l }
  else if key = "deterministic" then
    let n ← uint
    return { out with deterministic := n == 1 }
  else if key = "llm_tokens" then
    let n ← uint
    return { out with llmTokens := some n }
  else failure

def decodeCaveats : Cur Caveats := do
  let n ← mapLen
  iterate readCaveat n .default

/-- One of the two entries of a block. -/
def readBlockEntry (d : Option Caps × Option Caveats) : Cur (Option Caps × Option Caveats) := do
  let key ← str
  if key = "c" then
    let caps ← decodeCaps
    return (some caps, d.2)
  else if key = "v" then
    let caveats ← decodeCaveats
    return (d.1, some caveats)
  else failure

/-- A block. -/
def readBlock : Cur Block := do
  let n ← mapLen
  if n ≠ 2 then failure
  match ← iterate readBlockEntry 2 (none, none) with
  | (some caps, some caveats) => return { caps, caveats }
  | _ => failure

/-- What was read of a token. -/
structure Draft where
  blocks : Option (List Block)
  id : Option Text
  sig : Option Bytes
  version : Option Nat

/-- One of the four entries of a token. -/
def readTokenEntry (d : Draft) : Cur Draft := do
  let key ← str
  if key = "b" then
    let n ← listLen
    if n = 0 ∨ maxDepth < n then failure
    let blocks ← repeat_ readBlock n
    return { d with blocks := some blocks }
  else if key = "i" then
    let id ← str
    return { d with id := some id }
  else if key = "s" then
    let sig ← bytes
    return { d with sig := some sig }
  else if key = "z" then
    let version ← uint
    return { d with version := some version }
  else failure

/-- The entries of a token. -/
def readToken : Cur Draft := do
  let n ← mapLen
  if n ≠ 4 then failure
  iterate readTokenEntry 4 { blocks := none, id := none, sig := none, version := none }

/-- `decode_token`: nothing may follow the token. -/
def decodeToken (s : Text) : Option Token := do
  let raw ← b64urlDecode (trim s)
  let (d, rest) ← readToken.run raw
  if !rest.isEmpty || d.version ≠ some formatVersion then none
  else
    let id ← d.id
    let blocks ← d.blocks
    let sig ← d.sig
    some { id, blocks, sig }

end Synsema.Captoken
