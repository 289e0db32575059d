import Synsema.Json.Value

/-!
# Writing JSON

The text that `json_encode` gives (`synsema-stdlib/src/json.rs`), that of Python's
`json.dumps`.  There are two writers: one of a JSON tree, and one that writes a value without
building its tree.  They write the same (`dumps_synToJson`), in ASCII.
-/

namespace Synsema.Json

open Text

/-! ## Trees -/

/-- `Json`: what a value is written from. -/
inductive Json where
  | null
  | bool (b : Bool)
  | int (n : Int64)
  | float (x : F64)
  /-- The digits of an integer, verbatim. -/
  | bigInt (digits : Text)
  | str (t : Text)
  | array (items : List Json)
  | object (pairs : List (Text × Json))

/-! ## Texts -/

/-- `{:04x}`, of a number of 16 bits. -/
def hex4 (n : Nat) : Text :=
  [Nat.digitChar (n / 4096 % 16), Nat.digitChar (n / 256 % 16), Nat.digitChar (n / 16 % 16),
    Nat.digitChar (n % 16)]

/-- The escape of one character. -/
def escapeChar (c : Char) : Text :=
  if c = '"' then ['\\', '"']
  else if c = '\\' then ['\\', '\\']
  else if c.toNat = 0x08 then ['\\', 'b']
  else if c.toNat = 0x09 then ['\\', 't']
  else if c.toNat = 0x0a then ['\\', 'n']
  else if c.toNat = 0x0c then ['\\', 'f']
  else if c.toNat = 0x0d then ['\\', 'r']
  else if c.toNat < 0x20 then ['\\', 'u'] ++ hex4 c.toNat
  else if c.toNat < 0x7f then [c]
  else if c.toNat ≤ 0xffff then ['\\', 'u'] ++ hex4 c.toNat
  else
    let v := c.toNat - 0x10000
    ['\\', 'u'] ++ hex4 (0xd800 + v / 1024) ++ ['\\', 'u'] ++ hex4 (0xdc00 + v % 1024)

/-- A character that is written as it is. -/
def isPlain (c : Char) : Bool := 0x20 ≤ c.toNat && c.toNat < 0x7f && c != '"' && c != '\\'

/-- `json_escape_str`: a text of plain characters is copied. -/
def escapeStr (t : Text) : Text :=
  if t.all isPlain then ['"'] ++ t ++ ['"'] else ['"'] ++ t.flatMap escapeChar ++ ['"']

/-! ## Numbers -/

/-- The digits that the loop of `push_int` writes, before those of `out`. -/
def pushDigits (u : Nat) (out : Text) : Text :=
  if h : u / 10 = 0 then Nat.digitChar (u % 10) :: out
  else pushDigits (u / 10) (Nat.digitChar (u % 10) :: out)
termination_by u
decreasing_by omega

def pushInt (n : Int64) : Text :=
  (if n < 0 then ['-'] else []) ++ pushDigits n.toInt.natAbs []

def pushFloat (R : RustFmt) (x : F64) : Text :=
  if x.isNan then "NaN"
  else if x.isInfinite then if x.neg then "-Infinity" else "Infinity"
  else pyFloatStr R x

/-! ## The writer of a tree -/

/-- The items of a list or a map, already written, with commas between them. -/
def commaSep (items : List Text) : Text := join ", " items

mutual

/-- `dumps_into`. -/
def dumps (R : RustFmt) : Json → Text
  | .null => "null"
  | .bool b => if b then "true" else "false"
  | .int n => pushInt n
  | .bigInt digits => digits
  | .float x => pushFloat R x
  | .str t => escapeStr t
  | .array items => ['['] ++ commaSep (dumpsAll R items) ++ [']']
  | .object pairs => ['\x7b'] ++ commaSep (dumpsPairs R pairs) ++ ['\x7d']

/-- Each item as it is written. -/
def dumpsAll (R : RustFmt) : List Json → List Text
  | [] => []
  | j :: js => dumps R j :: dumpsAll R js

/-- Each pair as it is written. -/
def dumpsPairs (R : RustFmt) : List (Text × Json) → List Text
  | [] => []
  | (k, j) :: ps => (escapeStr k ++ ": " ++ dumps R j) :: dumpsPairs R ps

end

mutual

def synToJson : SynValue → Json
  | .nothing => .null
  | .bool b => .bool b
  | .number (.int n) => .int n
  | .number (.float x) => .float x
  | .number (.big n _) => .bigInt (toString n).toList
  | .text t => .str t
  | .list items => .array (synToJsonAll items)
  | .ints xs => .array (xs.map fun x => .int x)
  | .floats xs => .array (xs.map fun x => .float x)
  | .map entries => .object (synToJsonEntries entries)

/-- The trees of the items. -/
def synToJsonAll : List SynValue → List Json
  | [] => []
  | v :: vs => synToJson v :: synToJsonAll vs

/-- The trees of the entries. -/
def synToJsonEntries : List (Text × SynValue) → List (Text × Json)
  | [] => []
  | (k, v) :: es => (k, synToJson v) :: synToJsonEntries es

end

/-! ## The writer of a value -/

mutual

/-- `dumps_syn_into`: an unboxed list is written from its numbers, and only a big integer
goes through its tree. -/
def dumpsSyn (R : RustFmt) : SynValue → Text
  | .nothing => "null"
  | .bool b => if b then "true" else "false"
  | .number (.int n) => pushInt n
  | .number (.float x) => pushFloat R x
  | .text t => escapeStr t
  | .ints xs => ['['] ++ commaSep (xs.map pushInt) ++ [']']
  | .floats xs => ['['] ++ commaSep (xs.map (pushFloat R)) ++ [']']
  | .list items => ['['] ++ commaSep (dumpsSynAll R items) ++ [']']
  | .map entries => ['\x7b'] ++ commaSep (dumpsSynEntries R entries) ++ ['\x7d']
  | .number (.big n h) => dumps R (synToJson (.number (.big n h)))

/-- Each item as it is written. -/
def dumpsSynAll (R : RustFmt) : List SynValue → List Text
  | [] => []
  | v :: vs => dumpsSyn R v :: dumpsSynAll R vs

/-- Each entry as it is written. -/
def dumpsSynEntries (R : RustFmt) : List (Text × SynValue) → List Text
  | [] => []
  | (k, v) :: es => (escapeStr k ++ ": " ++ dumpsSyn R v) :: dumpsSynEntries R es

end

/-- `str::replace` of a character by a text. -/
def replaceText (c : Char) (by_ : Text) (t : Text) : Text :=
  t.flatMap fun x => if x = c then by_ else [x]

/-- `json_for_script`: the characters of a tag are escaped. -/
def jsonForScript (R : RustFmt) (v : SynValue) : Text :=
  replaceText '&' "\\u0026"
    (replaceText '>' "\\u003e" (replaceText '<' "\\u003c" (dumpsSyn R v)))

/-! ## The two writers agree -/

variable (R : RustFmt)

theorem dumpsAll_eq (js : List Json) : dumpsAll R js = js.map (dumps R) := by
  induction js with
  | nil => rfl
  | cons j js ih => rw [dumpsAll, ih, List.map_cons]

mutual

theorem dumps_eq_dumpsSyn (v : SynValue) : dumps R (synToJson v) = dumpsSyn R v := by
  cases v with
  | nothing | bool b => rfl
  | number n => cases n <;> rfl
  | text t => rfl
  | list items =>
    show ['['] ++ commaSep (dumpsAll R (synToJsonAll items)) ++ [']'] = _
    rw [dumpsAll_eq_dumpsSynAll]
    rfl
  | ints xs =>
    show ['['] ++ commaSep (dumpsAll R (xs.map fun x => .int x)) ++ [']'] = _
    rw [dumpsAll_eq, List.map_map]
    rfl
  | floats xs =>
    show ['['] ++ commaSep (dumpsAll R (xs.map fun x => .float x)) ++ [']'] = _
    rw [dumpsAll_eq, List.map_map]
    rfl
  | map entries =>
    show ['\x7b'] ++ commaSep (dumpsPairs R (synToJsonEntries entries)) ++ ['\x7d'] = _
    rw [dumpsPairs_eq_dumpsSynEntries]
    rfl

theorem dumpsAll_eq_dumpsSynAll (vs : List SynValue) :
    dumpsAll R (synToJsonAll vs) = dumpsSynAll R vs := by
  cases vs with
  | nil => rfl
  | cons v vs => rw [synToJsonAll, dumpsAll, dumps_eq_dumpsSyn, dumpsAll_eq_dumpsSynAll, dumpsSynAll]

theorem dumpsPairs_eq_dumpsSynEntries (es : List (Text × SynValue)) :
    dumpsPairs R (synToJsonEntries es) = dumpsSynEntries R es := by
  match es with
  | [] => rfl
  | (k, v) :: es =>
    rw [synToJsonEntries, dumpsPairs, dumps_eq_dumpsSyn, dumpsPairs_eq_dumpsSynEntries,
      dumpsSynEntries]

end

end Synsema.Json
