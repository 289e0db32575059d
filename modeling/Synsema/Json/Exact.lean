import Synsema.Json.Value
import Synsema.Lib.OrderedMap

/-!
# Reading JSON

The parser of `json_decode` (`synsema-stdlib/src/json_exact.rs`).  What only moves along the
document is a scanner (`Scan`), over the text that is left; the rest of the parser's state is
the depth and what the documents of one call share.

An error carries its message and leaves the text at which it is reported, which is where the
line and the column of the final message come from.
-/

namespace Synsema.Json.Exact

open Text

def maxIntDigits : Nat := 4300

def maxDepth : Nat := 128

/-! ## Scanners -/

/-- What moves along a document: its state is the text that is left. -/
abbrev Scan := EStateM Text Text

/-- Stops with a message. -/
def fail {σ α : Type} (msg : String) : EStateM Text σ α := fun s => .error msg.toList s

/-- Stops, unless the condition holds. -/
@[grind] def require {σ : Type} (b : Bool) (msg : String) : EStateM Text σ Unit :=
  fun s => if b then .ok () s else .error msg.toList s

def peek : Scan (Option Char) := fun t => .ok t.head? t

/-- Moves over `n` characters. -/
def advance (n : Nat) : Scan Unit := fun t => .ok () (t.drop n)

/-- Moves over the characters that `p` accepts. -/
@[grind] def takeRun (p : Char → Bool) : Scan Text := fun t => .ok (t.takeWhile p) (t.dropWhile p)

/-- Moves over the next character if it is one of `cs`. -/
@[grind] def skipOne (cs : List Char) : Scan Unit :=
  fun t => match t with
    | c :: r => .ok () (if cs.contains c then r else t)
    | [] => .ok () []

/-- A character between two tokens. -/
def isWs (c : Char) : Bool := c == ' ' || c == '\t' || c == '\n' || c == '\r'

@[grind] def ws : Scan Unit := fun t => .ok () (t.dropWhile isWs)

/-- A letter, a digit or `_`. -/
def isWordChar (c : Char) : Bool := c.isAlphanum || c == '_'

/-- `word_at`: does the word begin here, all of it? -/
def wordAt (word : String) (t : Text) : Bool :=
  startsWith word.toList t && !((t.drop word.toList.length).head?.any isWordChar)

def lit (word : String) (v : SynValue) : Scan SynValue :=
  fun t =>
    if startsWith word.toList t then .ok v (t.drop word.toList.length)
    else .error "expected value" t

/-! ## Texts -/

/-- An ASCII hexadecimal digit. -/
def isHexDigit (c : Char) : Bool :=
  c.isDigit || ('a' ≤ c && c ≤ 'f') || ('A' ≤ c && c ≤ 'F')

/-- The value of a hexadecimal digit. -/
def hexValue (c : Char) : Nat :=
  if c.isDigit then c.toNat - '0'.toNat
  else if 'a' ≤ c then c.toNat - 'a'.toNat + 10
  else c.toNat - 'A'.toNat + 10

/-- The number of bytes of a text. -/
def byteLength (t : Text) : Nat := (t.map Char.utf8Size).sum

/-- `hex4`: four hexadecimal digits. -/
@[grind] def hex4 : Scan Nat := fun t =>
  if byteLength t < 4 then .error "EOF while parsing a string" t
  else match t with
    | a :: b :: c :: d :: r =>
      if isHexDigit a && isHexDigit b && isHexDigit c && isHexDigit d then
        .ok (((hexValue a * 16 + hexValue b) * 16 + hexValue c) * 16 + hexValue d) r
      else .error "invalid escape" t
    | _ => .error "invalid escape" t

/-- The first half of a surrogate pair. -/
def isHigh (n : Nat) : Bool := 0xd800 ≤ n && n < 0xdc00

/-- The second half of a surrogate pair. -/
def isLow (n : Nat) : Bool := 0xdc00 ≤ n && n < 0xe000

/-- `char::from_u32`. -/
def fromU32 (cp : Nat) : Scan Char :=
  fun t => if cp.isValidChar then .ok (Char.ofNat cp) t else .error "invalid escape" t

/-- The second half, after a first one. -/
def lowSurrogate (hi : Nat) : Scan Char := do
  let lo ← hex4
  require (isLow lo) "lone leading surrogate in hex escape"
  fromU32 (0x10000 + (hi - 0xd800) * 1024 + (lo - 0xdc00))

/-- The character of `\u`, after the letter. -/
@[grind] def unicodeEscape : Scan Char := do
  let hi ← hex4
  if isHigh hi then do
    let t ← get
    require (startsWith ['\\', 'u'] t) "lone leading surrogate in hex escape"
    advance 2
    lowSurrogate hi
  else if isLow hi then fail "lone trailing surrogate in hex escape"
  else fromU32 hi

/-- The character that a letter after `\` stands for. -/
@[grind] def shortEscape (c : Char) : Option Char :=
  if c = '"' then some '"'
  else if c = '\\' then some '\\'
  else if c = '/' then some '/'
  else if c = 'b' then some (Char.ofNat 0x08)
  else if c = 'f' then some (Char.ofNat 0x0c)
  else if c = 'n' then some '\n'
  else if c = 'r' then some '\r'
  else if c = 't' then some '\t'
  else none

/-- An escape, after its `\`. -/
@[grind] def escape : Scan Char := fun t =>
  match t with
  | [] => .error "EOF while parsing a string" []
  | c :: r =>
    if c = 'u' then unicodeEscape r
    else match shortEscape c with
      | some x => .ok x r
      | none => .error "invalid escape" t

/-- A character that a text has as it is. -/
@[grind] def isUnescaped (c : Char) : Bool := !(c == '"' || c == '\\' || c.toNat < 0x20)

/-- The loop of `string`, with the text read so far. -/
@[grind] def stringLoop : Nat → Text → Scan Text
  -- Not reached: each round but the last moves over an escape.
  | 0, _ => fail "EOF while parsing a string"
  | fuel + 1, out => do
    let run ← takeRun isUnescaped
    let c ← peek
    match c with
    | none => fail "EOF while parsing a string"
    | some c =>
      if c = '"' then do
        advance 1
        pure (out ++ run)
      else if c = '\\' then do
        advance 1
        let x ← escape
        stringLoop fuel (out ++ run ++ [x])
      else fail "control character (\\u0000-\\u001F) found while parsing a string"

/-- `string`: a text without escapes is taken from the document as it is. -/
def string : Scan Text := fun t =>
  let start := t.drop 1
  let run := start.takeWhile isUnescaped
  let stop := start.dropWhile isUnescaped
  if stop.head? = some '"' then .ok run (stop.drop 1)
  else stringLoop (start.length + 1) [] start

/-! ## Numbers -/

/-- `digits`: how many are passed over. -/
@[grind] def digits : Scan Nat := fun t => .ok (t.takeWhile Char.isDigit).length (t.dropWhile Char.isDigit)

/-- The fraction of a number, if it has one. -/
def fraction : Scan Bool := do
  let c ← peek
  if c = some '.' then do
    advance 1
    let n ← digits
    require (n ≠ 0) "invalid number"
    pure true
  else pure false

/-- The exponent of a number, if it has one. -/
def exponent : Scan Bool := do
  let c ← peek
  if c = some 'e' ∨ c = some 'E' then do
    advance 1
    skipOne ['+', '-']
    let n ← digits
    require (n ≠ 0) "invalid number"
    pure true
  else pure false

def clip (t : Text) : Text := if 40 < t.length then t.take 40 ++ ['…'] else t

/-- The number of a text with a fraction or an exponent, which began at `start`. -/
def floatNumber (start t : Text) : Scan SynValue := fun r =>
  match parseF64 t with
  | none => .error "invalid number" r
  | some x =>
    if x.isFinite then .ok (.number (.float x)) r
    else .error ("number " ++ clip t ++
      " is out of range for a float (JSON has no infinity; pass it as text)") start

/-- The number of a text of `n` digits and maybe a sign, which began at `start`. -/
def intNumber (start : Text) (n : Nat) (t : Text) : Scan SynValue := fun r =>
  if n ≤ 18 then
    match parseInt t with
    | none => .error "invalid number" r
    | some i =>
      if FitsInt64 i then .ok (.number (.int (Int64.ofInt i))) r
      else .error "invalid number" r
  else if maxIntDigits < n then
    .error ("integer with " ++ (toString n).toList ++ " digits; the limit is " ++
      (toString maxIntDigits).toList ++
      " (converting longer ones is quadratic — pass it as text)") start
  else
    match parseInt t with
    | none => .error "invalid number" r
    | some i => .ok (.number (Number.fromBigint i)) r

/-- Stops after the first digit, at `intStart`, of a number whose further digits follow a zero. -/
@[grind] def noLeadingZero (intStart : Text) (n : Nat) : Scan Unit := fun r =>
  if 1 < n ∧ intStart.head? = some '0' then
    .error "invalid number (leading zero)" (intStart.drop 1)
  else .ok () r

def number : Scan SynValue := do
  let start ← get
  skipOne ['-']
  let intStart ← get
  let n ← digits
  require (n ≠ 0) "invalid number"
  noLeadingZero intStart n
  let frac ← fraction
  let exp ← exponent
  let stop ← get
  let t := start.take (start.length - stop.length)
  if frac || exp then floatNumber start t else intNumber start n t

/-! ## Scalars -/

/-- `f64::NAN`. -/
def nan : F64 := ⟨false, 0x7ff8000000000000, by decide⟩

/-- `f64::INFINITY` and, with the sign, `f64::NEG_INFINITY`. -/
def infinite (neg : Bool) : F64 := ⟨neg, F64.infinity, by decide⟩

/-- `value`, of what is neither a list nor a map. -/
def scalar (allowNan : Bool) : Scan SynValue := fun t =>
  match t with
  | [] => .error "EOF while parsing a value" t
  | c :: _ =>
    if c = 'n' then lit "null" .nothing t
    else if c = 't' then lit "true" (.bool true) t
    else if c = 'f' then lit "false" (.bool false) t
    else if c = '"' then (do
      let s ← string
      pure (.text s) : Scan SynValue) t
    else if (c = 'N' ∨ c = 'I') ∧ !allowNan ∧ (wordAt "NaN" t ∨ wordAt "Infinity" t) then
      fail "NaN/Infinity is not JSON (a NaN passes every `x <= 0` check) — to read them on purpose: json_decode(text, allow_nan = true)" t
    else if c = '-' ∧ !allowNan ∧ wordAt "-Infinity" t then
      fail "-Infinity is not JSON — to read it on purpose: json_decode(text, allow_nan = true)" t
    else if (c = 'N' ∨ c = 'I') ∧ !allowNan then fail "expected value" t
    else if c = 'N' then lit "NaN" (.number (.float nan)) t
    else if c = 'I' then lit "Infinity" (.number (.float (infinite false))) t
    else if c = '-' ∧ startsWith "-Infinity" t then
      lit "-Infinity" (.number (.float (infinite true))) t
    else if c = '-' ∨ c.isDigit then number t
    else fail "expected value" t

/-! ## The parser -/

/-- `Memo`: what the documents of one call share. -/
structure Memo where
  /-- The keys already seen. -/
  keys : List Text := []
  /-- The number of keys that the last object of each level had. -/
  cap : List Nat := []
  /-- The buffer of each level for the entries of an object. -/
  bufs : List (List (Text × SynValue)) := []

/-- `Parser`, but for the document and `allow_nan`. -/
structure Parser where
  /-- The text that is left. -/
  rest : Text
  depth : Nat
  memo : Memo

/-- What the parser does. -/
abbrev P := EStateM Text Parser

/-- Moves along the document. -/
def scan {α : Type} (x : Scan α) : P α := fun p =>
  match x p.rest with
  | .ok a r => .ok a { p with rest := r }
  | .error e r => .error e { p with rest := r }

def enter : P Unit := fun p =>
  let p := { p with depth := p.depth + 1 }
  if maxDepth < p.depth then .error "nesting deeper than 128 levels" p else .ok () p

/-- The end of an array or an object. -/
def leave : P Unit := fun p => .ok () { p with depth := p.depth - 1 }

/-- The loop of `array`, with the items read so far. -/
def elements (value : P SynValue) : Nat → List SynValue → P (List SynValue)
  -- Not reached: each round moves over an item.
  | 0, _ => fail "EOF while parsing a list"
  | fuel + 1, out => do
    scan ws
    let v ← value
    scan ws
    let c ← scan peek
    match c with
    | none => fail "EOF while parsing a list"
    | some c =>
      if c = ',' then do
        scan (advance 1)
        elements value fuel (out ++ [v])
      else if c = ']' then do
        scan (advance 1)
        pure (out ++ [v])
      else fail "expected `,` or `]`"

/-- The items of `array`, after its bracket. -/
def items (value : P SynValue) : P (List SynValue) := do
  scan ws
  let c ← scan peek
  if c = some ']' then do
    scan (advance 1)
    pure []
  else do
    let p ← get
    elements value (p.rest.length + 1) []

def array (value : P SynValue) : P SynValue := do
  enter
  scan (advance 1)
  let out ← items value
  leave
  pure (.list out)

/-- The text that was kept for the same key, if it has been seen. -/
def shareKey (t : Text) : P Text := fun p =>
  match p.memo.keys.find? (· = t) with
  | some k => .ok k p
  | none => .ok t { p with memo := { p.memo with keys := t :: p.memo.keys } }

def key : P Text := do
  let t ← scan string
  shareKey t

/-- `Vec::resize`. -/
def resize {α : Type} (l : List α) (n : Nat) (a : α) : List α :=
  l.take n ++ List.replicate (n - l.length) a

/-- The buffer of the level, which is empty in the meantime; it is cleared before it is used. -/
def takeBuf : P (List (Text × SynValue)) := fun p =>
  let bufs := if p.memo.bufs.length ≤ p.depth then resize p.memo.bufs (p.depth + 1) []
    else p.memo.bufs
  .ok ((bufs.getD p.depth []).take 0) { p with memo := { p.memo with bufs := bufs.set p.depth [] } }

/-- Gives the buffer of the level back. -/
def putBuf (out : List (Text × SynValue)) : P Unit := fun p =>
  .ok () { p with memo := { p.memo with bufs := p.memo.bufs.set p.depth out } }

/-- Keeps the number of keys of an object for the next one of its level. -/
def setCap (n : Nat) : P Unit := fun p =>
  let cap := if p.memo.cap.length ≤ p.depth then resize p.memo.cap (p.depth + 1) 0
    else p.memo.cap
  .ok () { p with memo := { p.memo with cap := cap.set p.depth n } }

/-- The loop of `object`, with the entries read so far. -/
def members (value : P SynValue) : Nat → List (Text × SynValue) → P (List (Text × SynValue))
  -- Not reached: each round moves over an entry.
  | 0, _ => fail "EOF while parsing an object"
  | fuel + 1, out => do
    scan ws
    let c ← scan peek
    require c.isSome "EOF while parsing an object"
    require (c = some '"') "key must be a string"
    let k ← key
    scan ws
    let c ← scan peek
    require (c = some ':') "expected `:`"
    scan (advance 1)
    scan ws
    let v ← value
    scan ws
    let c ← scan peek
    match c with
    | none => fail "EOF while parsing an object"
    | some c =>
      if c = ',' then do
        scan (advance 1)
        members value fuel (out ++ [(k, v)])
      else if c = '\x7d' then do
        scan (advance 1)
        pure (out ++ [(k, v)])
      else fail "expected `,` or `\x7d`"

/-- The entries of `object`, after its brace, in the buffer `out`. -/
def entries (value : P SynValue) (out : List (Text × SynValue)) : P SynValue := do
  scan ws
  let c ← scan peek
  if c = some '\x7d' then do
    scan (advance 1)
    putBuf out
    pure (.map [])
  else do
    let p ← get
    let out ← members value (p.rest.length + 1) out
    -- The map is built with the entries of the buffer, which is left empty.
    let m : OrderedMap Text SynValue := OrderedMap.ofList out
    setCap m.length
    putBuf []
    pure (.map m.entries)

def object (value : P SynValue) : P SynValue := do
  enter
  scan (advance 1)
  let out ← takeBuf
  let v ← entries value out
  leave
  pure v

/-- `value`, with `value` for what stands inside a list or a map. -/
def valueWith (allowNan : Bool) (value : P SynValue) : P SynValue := do
  let c ← scan peek
  if c = some '[' then array value
  else if c = some '\x7b' then object value
  else scan (scalar allowNan)

/-- `value`, for as many levels as there is fuel. -/
def value (allowNan : Bool) : Nat → P SynValue
  -- Not reached: `enter` stops before.
  | 0 => fail "nesting deeper than 128 levels"
  | fuel + 1 => valueWith allowNan (value allowNan fuel)

def document (allowNan : Bool) : P SynValue := do
  scan ws
  let v ← value allowNan (maxDepth + 1)
  scan ws
  let c ← scan peek
  require c.isNone "trailing characters"
  pure v

/-- `fail`: the message, and the place up to which the document `s` was read. -/
def report (s msg rest : Text) : Text :=
  let upto := s.take (s.length - rest.length)
  let line := upto.count '\n' + 1
  let col := (upto.reverse.takeWhile (· != '\n')).length + 1
  msg ++ " at line " ++ (toString line).toList ++ " column " ++
    (toString col).toList

/-- A byte order mark at the start is not part of the document. -/
def dropBom (text : Text) : Text := (stripPrefix [Char.ofNat 0xfeff] text).getD text

/-- `parse_with`: the result, and what the next document of the call is given. -/
def parseWith (text : Text) (allowNan : Bool) (memo : Memo) : Except Text SynValue × Memo :=
  let s := dropBom text
  match document allowNan ⟨s, 0, memo⟩ with
  | .ok v p => (.ok v, p.memo)
  | .error msg p => (.error (report s msg p.rest), p.memo)

def parseOpts (text : Text) (allowNan : Bool) : Except Text SynValue :=
  (parseWith text allowNan {}).1

def parse (text : Text) : Except Text SynValue := parseOpts text false

end Synsema.Json.Exact
