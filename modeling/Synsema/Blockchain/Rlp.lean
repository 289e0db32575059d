import Synsema.Blockchain.Bytes

/-!
# RLP

The codec of Ethereum's transactions (`rlp_encode` and `rlp_decode` of
`synsema-stdlib/src/blockchain.rs`): the writer, and the reader that takes no byte string but
the one the writer writes.

A `usize` is a machine word that wraps around, as in the release build, so a length header of
`2 ^ 63` or more can take the reader back to where it was.
-/

namespace Synsema.Blockchain

open Text Bytesutil Captoken

/-! ## Values -/

/-- `Number`, as far as RLP looks at it. -/
inductive Number where
  | int (i : Int64)
  | big (n : Int)
  | float
  | decimal

/-- `SynValue`, as far as RLP looks at it: of what it has no code for, the name of the type. -/
inductive SynValue where
  | bytes (b : Bytes)
  | number (n : Number)
  | list (items : List SynValue)
  | text
  | secret
  | other (typeName : Text)

/-! ## Writing -/

def rlpMaxDepth : Nat := 64

def intBeMinimal (n : Number) (fname : Text) : Except Stop Bytes :=
  match n with
  | .int i =>
    if i < 0 then
      .error (.err (fname ++ ": cannot RLP-encode a negative integer"))
    else .ok (significant i.toUInt64.toNat)
  | .big b =>
    if b < 0 then
      .error (.err (fname ++ ": cannot RLP-encode a negative integer"))
    else if toBytesBe b.natAbs = [0] then .ok []
    else .ok (toBytesBe b.natAbs)
  | .float => .error (.err (fname ++ (": cannot RLP-encode a float; RLP takes bytes, " ++
      "non-negative integers, and lists").toList))
  | .decimal => .error (.err (fname ++ (": cannot RLP-encode a decimal; RLP takes bytes, " ++
      "non-negative integers, and lists").toList))

/-- A payload under its length: the short form up to 55 bytes, the long form from there. -/
def framed (short long : UInt8) (payload : Bytes) : Bytes :=
  if payload.length ≤ 55 then (short + UInt8.ofNat payload.length) :: payload
  else
    let lenBe := significant payload.length
    (long + UInt8.ofNat lenBe.length) :: lenBe ++ payload

def rlpString (s : Bytes) : Bytes :=
  if s.length = 1 ∧ s.getD 0 0 ≤ 0x7f then [s.getD 0 0] else framed 0x80 0xb7 s

def rlpListFrame (payload : Bytes) : Bytes := framed 0xc0 0xf7 payload

mutual

/-- `rlp_encode_val`: what it adds to the buffer. -/
def rlpEncodeVal : SynValue → Nat → Except Stop Bytes
  | v, depth =>
    if rlpMaxDepth < depth then
      .error (.err "rlp_encode: the list is nested too deeply (max 64 levels)")
    else
      match v with
      | .bytes b => .ok (rlpString b)
      | .number n => (intBeMinimal n "rlp_encode").map rlpString
      | .list items => (rlpEncodeAll items (depth + 1)).map rlpListFrame
      | .text => .error (.err ("rlp_encode: cannot encode text directly (ambiguous); " ++
          "convert with bytes(x) for UTF-8 or bytes(x, \"hex\") for a hex value").toList)
      | .secret => .error (.err "rlp_encode: cannot encode a secret")
      | .other name => .error (.err ("rlp_encode: cannot encode " ++ name ++
          "; RLP takes bytes, non-negative integers, and lists"))

/-- The items of a list, one after the other. -/
def rlpEncodeAll : List SynValue → Nat → Except Stop Bytes
  | [], _ => .ok []
  | v :: vs, depth => do
    let b ← rlpEncodeVal v depth
    let bs ← rlpEncodeAll vs depth
    return b ++ bs

end

def rlpEncode (v : SynValue) : Except Stop Slice := do toSlice (← rlpEncodeVal v 0)

/-! ## Reading -/

/-- A reading.  It keeps the length headers that it has read. -/
abbrev Dec := StateT (List Nat) (Except Stop)

namespace Dec

/-- The reading fails. -/
def fail {α : Type} (message : Text) : Dec α := fun _ => .error (.err message)

end Dec

/-- `data[i..j]`. -/
def slice (data : Bytes) (i j : Nat) : Dec Bytes :=
  if i ≤ j ∧ j ≤ data.length then pure ((data.take j).drop i) else fun _ => .error .panic

/-- `read_len`: a length of `nbytes` bytes, which has to need them all. -/
def readLen (data : Bytes) (start nbytes : Nat) : Dec Nat :=
  if nbytes = 0 ∨ 8 < nbytes ∨ data.length < start + nbytes then
    Dec.fail "rlp_decode: truncated length header"
  else if data.getD start 0 = 0 then
    Dec.fail ("rlp_decode: non-canonical encoding " ++
      "(length header has a leading zero byte)").toList
  else do
    let n := Cur.beNat ((data.drop start).take nbytes)
    modify (n :: ·)
    if n ≤ 55 then
      Dec.fail ("rlp_decode: non-canonical encoding " ++
        "(long-form length used for a payload under 56 bytes)").toList
    else pure n

/-- The `while` of `rlp_decode_list`.  It is at a new place each time unless it goes on
forever, so `fuel` runs out only then. -/
def rlpDecodeItems (item : Nat → Dec (SynValue × Nat)) (stop : Nat) :
    Nat → Nat → Dec (List SynValue)
  | 0, _ => fun _ => .error .diverges
  | fuel + 1, p =>
    if p < stop then do
      let r ← item p
      if stop < r.2 then Dec.fail "rlp_decode: a list item overruns the list body"
      else
        let vs ← rlpDecodeItems item stop fuel r.2
        pure (r.1 :: vs)
    else pure []

def rlpDecodeList (item : Nat → Dec (SynValue × Nat)) (data : Bytes) (start len : Nat) :
    Dec (SynValue × Nat) :=
  let stop := usizeAdd start len
  if data.length < stop then
    Dec.fail "rlp_decode: list body exceeds input length"
  else do
    let items ← rlpDecodeItems item stop (data.length + 1) start
    pure (.list items, stop)

/-- A string body at `start`. -/
def stringBody (data : Bytes) (start len : Nat) : Dec (SynValue × Nat) :=
  let stop := usizeAdd start len
  if data.length < stop then
    Dec.fail "rlp_decode: string body exceeds input length"
  else do
    let b ← slice data start stop
    pure (.bytes b, stop)

/-- `rlp_decode_at`, with `room` levels left. -/
def rlpDecodeAt (data : Bytes) : Nat → Nat → Dec (SynValue × Nat)
  | 0, _ => Dec.fail "rlp_decode: the input is nested too deeply (max 64 levels)"
  | room + 1, pos =>
    let head := data.getD pos 0
    if data.length ≤ pos then Dec.fail "rlp_decode: unexpected end of input"
    else if head ≤ 0x7f then pure (.bytes [head], pos + 1)
    else if head ≤ 0xb7 then
      let len := (head - 0x80).toNat
      let start := pos + 1
      if data.length < start + len then
        Dec.fail "rlp_decode: string body exceeds input length"
      else if len = 1 ∧ data.getD start 0 ≤ 0x7f then
        Dec.fail ("rlp_decode: non-canonical encoding " ++
          "(a single byte <= 0x7f must be encoded as itself)").toList
      else stringBody data start len
    else if head ≤ 0xbf then do
      let nbytes := (head - 0xb7).toNat
      let len ← readLen data (pos + 1) nbytes
      stringBody data (pos + 1 + nbytes) len
    else if head ≤ 0xf7 then
      rlpDecodeList (rlpDecodeAt data room) data (pos + 1) (head - 0xc0).toNat
    else do
      let nbytes := (head - 0xf7).toNat
      let len ← readLen data (pos + 1) nbytes
      rlpDecodeList (rlpDecodeAt data room) data (pos + 1 + nbytes) len

/-- `rlp_decode`, and the length headers that it read. -/
def rlpDecodeLog (data : Slice) : Except Stop (SynValue × List Nat) :=
  if data.1.isEmpty then .error (.err "rlp_decode: empty input")
  else
    match rlpDecodeAt data.1 (rlpMaxDepth + 1) 0 [] with
    | .error e => .error e
    | .ok ((v, consumed), log) =>
      if consumed ≠ data.1.length then
        .error (.err ("rlp_decode: " ++ (toString (data.1.length - consumed)).toList ++
          " trailing byte(s) after the first RLP item"))
      else .ok (v, log)

def rlpDecode (data : Slice) : Except Stop SynValue := (rlpDecodeLog data).map Prod.fst

end Synsema.Blockchain
