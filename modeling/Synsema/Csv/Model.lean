import Synsema.Bytesutil
import Synsema.Lib.Except

/-!
# CSV

`csv_parse` and `csv_encode` (`synsema-core/src/csv.rs`).  The scanner looks for the delimiter,
the quote and the line ends, which are ASCII characters; the model reads characters where the
code reads bytes.

How a field is read as a number, or as a value of a type of a column, is a parameter.
-/

namespace Synsema.Csv

open Text Bytesutil

/-! ## Values -/

/-- A number, as `Display` writes it. -/
structure Number where
  text : Text
  ne_nil : text ≠ []
  ascii : ∀ c ∈ text, c.toNat < 128

/-- `SynValue`, as far as the two calls look at it. -/
inductive SynValue where
  | text (t : Text)
  | number (n : Number)
  | bool (b : Bool)
  | nothing
  /-- A point in time, as `Display` writes it. -/
  | time (shown : Text)
  | bytes (b : Bytes)
  | secret (name : Text)
  | list (items : List SynValue)
  | map (entries : List (Text × SynValue))
  | other (typeName : Text)

def SynValue.typeName : SynValue → Text
  | text _ => "text"
  | number _ => "number"
  | bool _ => "bool"
  | nothing => "nothing"
  | time _ => "time"
  | bytes _ => "bytes"
  | secret _ => "secret"
  | list _ => "list"
  | map _ => "map"
  | other name => name

/-- `SynMap`, in the order of its keys. -/
abbrev SynMap := List (Text × SynValue)

/-- The column of a field in a message. -/
inductive Column where
  | name (h : Text)
  | index (j : Nat)
deriving DecidableEq

/-- Why a call fails. -/
inductive Fault where
  | unknownOption (key : Text)
  | badOption (key : Text)
  | typesWithoutHeaders
  | notText (typeName : Text)
  | notRows (typeName : Text)
  | unclosedQuote (line : Nat)
  | recordWidth (line got expected : Nat)
  | duplicateHeader (h : Text)
  | unknownColumn (c : Text)
  | typedField (line : Nat) (column : Text)
  | rowShape (row : Nat) (typeName : Text)
  | rowWidth (row got expected : Nat)
  | missingColumn (row : Nat) (h : Text)
  | headersWidth (got expected : Nat)
  | cell (row : Nat) (col : Column) (typeName : Text)
deriving DecidableEq

/-! ## Options -/

def optsMap (opts : SynValue) (valid : List Text) : Except Fault SynMap :=
  match opts with
  | .nothing => .ok []
  | .map m =>
    match m.find? fun kv => !valid.contains kv.1 with
    | some kv => .error (.unknownOption kv.1)
    | none => .ok m
  | _ => .error (.badOption "options")

def optBool (opts : SynMap) (key : Text) (default : Bool) : Except Fault Bool :=
  match opts.lookup key with
  | none => .ok default
  | some (.bool b) => .ok b
  | some _ => .error (.badOption key)

/-- Has the character its own meaning in CSV? -/
def isSpecial (c : Char) : Bool := c == '"' || c == '\r' || c == '\n'

def optDelimiter (opts : SynMap) : Except Fault Char :=
  match opts.lookup "delimiter".toList with
  | none => .ok ','
  | some (.text [c]) =>
    if isSpecial c = false ∧ c.toNat < 128 then .ok c else .error (.badOption "delimiter")
  | some _ => .error (.badOption "delimiter")

/-- A text of a list of texts. -/
def textItem (key : Text) : SynValue → Except Fault Text
  | .text t => .ok t
  | _ => .error (.badOption key)

/-! ## Reading -/

/-- `Field`: its text, and whether it stood in quotes. -/
structure Field where
  text : Text
  quoted : Bool
deriving DecidableEq

/-- Does a field end here? -/
def isEnd (delim c : Char) : Bool := c == delim || c == '\n' || c == '\r'

/-- `eol_at`: a `\n`, or a `\r` that no `\n` follows. -/
def eolAt : Text → Bool
  | '\n' :: _ => true
  | '\r' :: t => t.head? != some '\n'
  | _ => false

/-- The text after a line end. -/
def skipEol : Text → Text
  | '\r' :: '\n' :: t => t
  | _ :: t => t
  | [] => []

/-- A field in quotes, after its first quote: its text, the line it ends on, and what follows
its last quote. -/
def quotedBody (line : Nat) : Text → Option (Text × Nat × Text)
  | [] => none
  | '"' :: '"' :: t => (quotedBody line t).map fun r => ('"' :: r.1, r.2)
  | '"' :: t => some ([], line, t)
  | c :: t =>
    (quotedBody (if eolAt (c :: t) then line + 1 else line) t).map fun r => (c :: r.1, r.2)

/-- One field: what follows its last quote is its text too. -/
def scanField (delim : Char) (line : Nat) : Text → Except Fault (Field × Nat × Text)
  | '"' :: t =>
    match quotedBody line t with
    | none => .error (.unclosedQuote line)
    | some r => .ok ({ text := r.1 ++ before (isEnd delim) r.2.2, quoted := true }, r.2.1,
        r.2.2.dropWhile fun c => !isEnd delim c)
  | t => .ok ({ text := before (isEnd delim) t, quoted := false }, line,
      t.dropWhile fun c => !isEnd delim c)

theorem quotedBody_length {line : Nat} {t : Text} {r : Text × Nat × Text}
    (h : quotedBody line t = some r) : r.2.2.length ≤ t.length := by
  induction line, t using quotedBody.induct generalizing r with
  | case1 => cases h
  | case2 line t ih =>
    rw [quotedBody] at h
    obtain ⟨r', hr', rfl⟩ := Option.map_eq_some_iff.mp h
    exact (ih hr').trans (Nat.le_add_right _ 2)
  | case3 line t hne =>
    rw [quotedBody] at h
    · cases h
      exact Nat.le_succ _
    · exact hne
  | case4 line c t hquote hpair ih =>
    rw [quotedBody] at h
    · obtain ⟨r', hr', rfl⟩ := Option.map_eq_some_iff.mp h
      exact (ih hr').trans (Nat.le_succ _)
    · exact hquote
    · exact hpair

theorem scanField_length {delim : Char} {line : Nat} {t : Text} {r : Field × Nat × Text}
    (h : scanField delim line t = .ok r) : r.2.2.length ≤ t.length := by
  rw [scanField.eq_def] at h
  split at h
  · split at h
    · cases h
    · rename_i hbody
      cases h
      exact ((List.dropWhile_sublist _).length_le.trans (quotedBody_length hbody)).trans
        (Nat.le_succ _)
  · cases h
    exact (List.dropWhile_sublist _).length_le

/-- One record, up to its line end: its fields, the line it ends on, and what follows. -/
def scanRecord (delim : Char) (line : Nat) (t : Text) : Except Fault (List Field × Nat × Text) :=
  match _h : scanField delim line t with
  | .error e => .error e
  | .ok r =>
    match _hr : r.2.2 with
    | [] => .ok ([r.1], r.2)
    | c :: rest =>
      if c = delim then
        (scanRecord delim r.2.1 rest).map fun rs => (r.1 :: rs.1, rs.2)
      else .ok ([r.1], r.2)
termination_by t.length
decreasing_by
  have hle := scanField_length _h
  rw [_hr] at hle
  exact hle

section Record

variable {delim : Char} {line : Nat} {t : Text} {r : Field × Nat × Text}

theorem scanRecord_error {e : Fault} (h : scanField delim line t = .error e) :
    scanRecord delim line t = .error e := by
  rw [scanRecord]
  split
  · rename_i h'
    rw [h] at h'
    cases h'
    rfl
  · rename_i h'
    rw [h] at h'
    cases h'

theorem scanRecord_last (h : scanField delim line t = .ok r) (hr : r.2.2.head? ≠ some delim) :
    scanRecord delim line t = .ok ([r.1], r.2) := by
  rw [scanRecord]
  split
  · rename_i h'
    rw [h] at h'
    cases h'
  · rename_i r' h'
    rw [h] at h'
    cases h'
    split
    · rfl
    · rename_i c rest hrest
      rw [if_neg]
      rintro rfl
      exact hr (by rw [hrest]; rfl)

theorem scanRecord_next {rest : Text} (h : scanField delim line t = .ok r)
    (hr : r.2.2 = delim :: rest) : scanRecord delim line t =
      (scanRecord delim r.2.1 rest).map fun rs => (r.1 :: rs.1, rs.2) := by
  rw [scanRecord]
  split
  · rename_i h'
    rw [h] at h'
    cases h'
  · rename_i r' h'
    rw [h] at h'
    cases h'
    split
    · rename_i hnil
      rw [hr] at hnil
      cases hnil
    · rename_i c rest' hrest
      rw [hr] at hrest
      obtain ⟨rfl, rfl⟩ := List.cons.inj hrest
      rw [if_pos rfl]

end Record

theorem scanRecord_length {delim : Char} {line : Nat} {t : Text} {rs : List Field × Nat × Text}
    (h : scanRecord delim line t = .ok rs) : rs.2.2.length ≤ t.length := by
  induction hn : t.length using Nat.strong_induction_on generalizing line t rs with
  | _ n ih =>
    subst hn
    cases hf : scanField delim line t with
    | error e =>
      rw [scanRecord_error hf] at h
      cases h
    | ok r =>
      have hle := scanField_length hf
      by_cases hr : r.2.2.head? = some delim
      · obtain ⟨rest, hrest⟩ : ∃ rest, r.2.2 = delim :: rest := by
          obtain ⟨rest, hrest⟩ := List.head?_eq_some_iff.mp hr
          exact ⟨rest, hrest⟩
        rw [scanRecord_next hf hrest] at h
        obtain ⟨rs', hrs', rfl⟩ := Except.map_eq_ok.mp h
        rw [hrest, List.length_cons] at hle
        exact (ih rest.length hle hrs' rfl).trans (Nat.le_of_succ_le hle)
      · rw [scanRecord_last hf hr] at h
        cases h
        exact hle

theorem skipEol_length {c : Char} {t : Text} : (skipEol (c :: t)).length ≤ t.length := by
  rw [skipEol.eq_def]
  split
  · rename_i h
    cases h
    exact Nat.le_succ _
  · rename_i h
    cases h
    exact Nat.le_refl _
  · rename_i h
    cases h

/-- `scan`: the records, each with its line.  A blank line is no record. -/
def scan (delim : Char) (line : Nat) (t : Text) : Except Fault (List (Nat × List Field)) :=
  match t with
  | [] => .ok []
  | c :: rest =>
    if c = '\n' ∨ c = '\r' then scan delim (line + 1) (skipEol (c :: rest))
    else
      match _h : scanRecord delim line (c :: rest) with
      | .error e => .error e
      | .ok r =>
        match _hr : r.2.2 with
        | [] => .ok [(line, r.1)]
        | d :: after =>
          (scan delim (r.2.1 + 1) (skipEol (d :: after))).map fun rs => (line, r.1) :: rs
termination_by t.length
decreasing_by
  · exact Nat.lt_succ_of_le skipEol_length
  · have hle := scanRecord_length _h
    rw [_hr] at hle
    exact Nat.lt_of_lt_of_le (Nat.lt_succ_of_le skipEol_length) hle

/-- A conversion of fields: how a text is read as a number, and as a value of the type of its
column (text, in quotes, type, column, line). -/
structure Conversion where
  fieldAsNumber : Text → Option Number
  typedField : Text → Bool → Text → Text → Nat → Except Fault SynValue

/-- The options of `csv_parse`. -/
structure ParseOpts where
  missing : List Text
  headers : Bool
  numbers : Bool
  types : Option (List (Text × Text))
  delimiter : Char

def optMissing (opts : SynMap) : Except Fault (List Text) :=
  match opts.lookup "missing".toList with
  | none => .ok []
  | some .nothing => .ok []
  | some (.text t) => .ok [t]
  | some (.list items) => items.mapM (textItem "missing")
  | some _ => .error (.badOption "missing")

/-- The types of columns. -/
def columnTypes : List Text :=
  ["int", "float", "decimal", "text", "bool", "date",
    "datetime"]

/-- One entry of the types. -/
def typeItem (kv : Text × SynValue) : Except Fault (Text × Text) :=
  match kv.2 with
  | .text t => if columnTypes.contains t then .ok (kv.1, t) else .error (.badOption "types")
  | _ => .error (.badOption "types")

def optTypes (opts : SynMap) : Except Fault (Option (List (Text × Text))) :=
  match opts.lookup "types".toList with
  | none => .ok none
  | some .nothing => .ok none
  | some (.map m) => (m.mapM typeItem).map some
  | some _ => .error (.badOption "types")

/-- The options of `csv_parse`, as it reads them. -/
def parseOpts (opts : SynValue) : Except Fault ParseOpts := do
  let m ← optsMap opts ["headers", "delimiter", "numbers", "types",
    "missing"]
  let missing ← optMissing m
  let headers ← optBool m "headers" true
  let numbers ← optBool m "numbers" false
  let types ← optTypes m
  if types.isSome ∧ headers = false then .error .typesWithoutHeaders
  else do
    let delimiter ← optDelimiter m
    return { missing, headers, numbers, types, delimiter }

section Parse

variable (V : Conversion) (o : ParseOpts)

def isMissingMarker (f : Field) : Bool := !f.quoted && o.missing.contains f.text

def fieldValue (f : Field) : SynValue :=
  if f.text = [] then if f.quoted then .text [] else .nothing
  else if isMissingMarker o f then .nothing
  else
    match if o.numbers then V.fieldAsNumber f.text else none with
    | some n => .number n
    | none => .text f.text

/-- A field of a column. -/
def columnValue (line : Nat) (h : Text) (f : Field) : Except Fault SynValue :=
  match o.types.bind (·.lookup h) with
  | none => .ok (fieldValue V o f)
  | some ty =>
    if isMissingMarker o f then .ok .nothing else V.typedField f.text f.quoted ty h line

/-- The first header that stands there twice. -/
def duplicate : List Text → List Text → Option Text
  | _, [] => none
  | seen, h :: hs => if seen.contains h then some h else duplicate (h :: seen) hs

/-- What is wrong with the header row. -/
def headerFault (hs : List Text) : Option Fault :=
  match duplicate [] hs with
  | some h => some (.duplicateHeader h)
  | none =>
    match (o.types.getD []).find? fun c => !hs.contains c.1 with
    | some c => some (.unknownColumn c.1)
    | none => none

/-- What `csv_parse` knows after some records. -/
structure Reader where
  width : Option Nat := none
  widthFault : Option Fault := none
  otherFault : Option Fault := none
  header : Option (List Text) := none
  rows : List SynValue := []

/-- The values of a row, by the columns of the header. -/
def rowValues (line : Nat) (hs : List Text) (fields : List Field) :
    Except Fault (List (Text × SynValue)) :=
  (hs.zip fields).mapM fun hf => (columnValue V o line hf.1 hf.2).map fun v => (hf.1, v)

/-- What `csv_parse` does with a record.  After a fault it only looks for one that wins. -/
def onRecord (σ : Reader) (record : Nat × List Field) : Reader :=
  let w := σ.width.getD record.2.length
  let σ := { σ with width := some w }
  if record.2.length ≠ w then
    { σ with widthFault := σ.widthFault.or (some (.recordWidth record.1 record.2.length w)) }
  else if σ.widthFault.isSome || σ.otherFault.isSome then σ
  else if o.headers = false then
    { σ with rows := σ.rows ++ [.list (record.2.map (fieldValue V o))] }
  else
    match σ.header with
    | none =>
      let hs := record.2.map Field.text
      { σ with header := some hs, otherFault := headerFault o hs }
    | some hs =>
      match rowValues V o record.1 hs record.2 with
      | .ok row => { σ with rows := σ.rows ++ [.map row] }
      | .error e => { σ with otherFault := some e }

/-- The rows, or the fault that wins. -/
def Reader.result (σ : Reader) : Except Fault SynValue :=
  match σ.widthFault.or σ.otherFault with
  | some e => .error e
  | none => .ok (.list σ.rows)

/-- The byte order mark. -/
def bom : Char := '\ufeff'

/-- `csv_parse`, of a text. -/
def parseText (text : Text) : Except Fault SynValue :=
  let src := (stripPrefix [bom] text).getD text
  if src = [] then .ok (.list [])
  else do
    let records ← scan o.delimiter 1 src
    (records.foldl (onRecord V o) {}).result

end Parse

def csvParse (V : Conversion) (value opts : SynValue) : Except Fault SynValue :=
  match value with
  | .text t => (parseOpts opts).bind fun o => parseText V o t
  | v => .error (.notText v.typeName)

/-! ## Writing -/

/-- The options of `csv_encode`. -/
structure EncodeOpts where
  escapeFormulas : Bool
  delimiter : Char
  eol : Text
  headers : Option (List Text)
  missing : Option Text

def optEol (opts : SynMap) : Except Fault Text :=
  match opts.lookup "eol".toList with
  | none => .ok "\r\n"
  | some (.text t) =>
    if t = "\r\n" ∨ t = "\n" then .ok t else .error (.badOption "eol")
  | some _ => .error (.badOption "eol")

def optHeadersList (opts : SynMap) : Except Fault (Option (List Text)) :=
  match opts.lookup "headers".toList with
  | none => .ok none
  | some (.list items) => (items.mapM (textItem "headers".toList)).map some
  | some _ => .error (.badOption "headers")

/-- The mark of `csv_encode`: it may not be empty, nor need quotes. -/
def optMark (opts : SynMap) (delimiter : Char) : Except Fault (Option Text) :=
  match opts.lookup "missing".toList with
  | none => .ok none
  | some .nothing => .ok none
  | some (.text t) =>
    if t = [] ∨ (t.any fun c => c == delimiter || isSpecial c) then
      .error (.badOption "missing")
    else .ok (some t)
  | some _ => .error (.badOption "missing")

/-- The options of `csv_encode`, as it reads them. -/
def encodeOpts (opts : SynValue) : Except Fault EncodeOpts := do
  let m ← optsMap opts ["headers", "delimiter", "eol",
    "escape_formulas", "missing"]
  let escapeFormulas ← optBool m "escape_formulas" false
  let delimiter ← optDelimiter m
  let eol ← optEol m
  let headers ← optHeadersList m
  let missing ← optMark m delimiter
  return { escapeFormulas, delimiter, eol, headers, missing }

/-- `t_starts_formula`. -/
def startsFormula (t : Text) : Bool :=
  match t.head? with
  | some c => c == '=' || c == '+' || c == '-' || c == '@' || c == '\t' || c == '\r'
  | none => false

/-- `str::replace` of a quote by two. -/
def doubleQuotes (t : Text) : Text := t.flatMap fun c => if c = '"' then ['"', '"'] else [c]

/-- `write_scalar`: a value that is not a text. -/
def writeScalar (v : SynValue) (row : Nat) (col : Column) : Except Fault Text :=
  match v with
  | .text t => .ok t
  | .number n => .ok n.text
  | .bool b => .ok (if b then "true" else "false")
  | .nothing => .ok []
  | .time shown => .ok shown
  | .bytes b => .ok (b64Encode b)
  | v => .error (.cell row col v.typeName)

section Encode

variable (o : EncodeOpts)

/-- A field as it stands between the delimiters. -/
def field (width : Nat) (t : Text) (isText isMissing quoteEmpty : Bool) : Text :=
  if isMissing ∧ o.missing.isSome then o.missing.getD []
  else
    let emptyText := quoteEmpty && t.isEmpty
    let t := if o.escapeFormulas ∧ isText ∧ startsFormula t then '\'' :: t else t
    let loneEmpty := width == 1 && t.isEmpty
    let isMark := isText && o.missing == some t
    if emptyText || loneEmpty || isMark || t.any fun c => c == o.delimiter || isSpecial c then
      ['"'] ++ doubleQuotes t ++ ['"']
    else t

/-- `put`: a field, after a delimiter if it is not the first. -/
def put (j width : Nat) (t : Text) (isText isMissing quoteEmpty : Bool) : Text :=
  (if 0 < j then [o.delimiter] else []) ++ field o width t isText isMissing quoteEmpty

def putValue (j width : Nat) (v : SynValue) (row : Nat) (col : Column) : Except Fault Text :=
  match v with
  | .text t => .ok (put o j width t true false true)
  | .nothing => .ok (put o j width [] false true false)
  | v => (writeScalar v row col).map fun t => put o j width t false false false

def putHeaders (hs : List Text) : Text :=
  (hs.zipIdx.flatMap fun hj => put o hj.2 hs.length hj.1 true false false) ++ o.eol

/-- The fields of a row that is a list, from the `j`-th on. -/
def putItems (row width : Nat) : Nat → List SynValue → Except Fault Text
  | _, [] => .ok []
  | j, v :: vs => do
    let t ← putValue o j width v row (.index (j + 1))
    let ts ← putItems row width (j + 1) vs
    return t ++ ts

/-- The fields of a row that is a map, by the columns from the `j`-th on. -/
def putColumns (row width : Nat) (m : SynMap) : Nat → List Text → Except Fault Text
  | _, [] => .ok []
  | j, h :: hs =>
    match m.lookup h with
    | none => .error (.missingColumn row h)
    | some v => do
      let t ← putValue o j width v row (.name h)
      let ts ← putColumns row width m (j + 1) hs
      return t ++ ts

/-- The rows that are lists, from the `row`-th on. -/
def putLists (width : Nat) : Nat → List SynValue → Except Fault Text
  | _, [] => .ok []
  | row, .list items :: rows =>
    if items.length ≠ width then .error (.rowWidth row items.length width)
    else do
      let t ← putItems o row width 0 items
      let ts ← putLists width (row + 1) rows
      return t ++ o.eol ++ ts
  | row, v :: _ => .error (.rowShape row v.typeName)

/-- The rows that are maps, from the `row`-th on. -/
def putMaps (hs : List Text) : Nat → List SynValue → Except Fault Text
  | _, [] => .ok []
  | row, .map m :: rows =>
    if o.headers.isNone ∧ m.length ≠ hs.length then .error (.rowWidth row m.length hs.length)
    else do
      let t ← putColumns o row hs.length m 0 hs
      let ts ← putMaps hs (row + 1) rows
      return t ++ o.eol ++ ts
  | row, v :: _ => .error (.rowShape row v.typeName)

/-- `csv_encode`, of rows. -/
def encodeRows (rows : List SynValue) : Except Fault Text :=
  match rows with
  | [] => .ok ((o.headers.map (putHeaders o)).getD [])
  | .map first :: _ =>
    let hs := o.headers.getD (first.map Prod.fst)
    (putMaps o hs 1 rows).map fun t => putHeaders o hs ++ t
  | .list first :: _ =>
    if o.headers.any (fun hs => hs.length ≠ first.length) then
      .error (.headersWidth (o.headers.getD []).length first.length)
    else (putLists o first.length 1 rows).map fun t => (o.headers.map (putHeaders o)).getD [] ++ t
  | v :: _ => .error (.notRows v.typeName)

end Encode

def csvEncode (value opts : SynValue) : Except Fault SynValue :=
  match value with
  | .list rows => (encodeOpts opts).bind fun o => (encodeRows o rows).map .text
  | v => .error (.notRows v.typeName)

end Synsema.Csv
