import Synsema.Json.Value
import Synsema.Lib.OrderedMap

/-!
# The grammar of JSON

The documents of RFC 8259, as trees of what they are written with: each tree has its text, and
the value that it denotes.  With them come the limits of the implementation on the trees it
admits.
-/

namespace Synsema.Json

open List

/-! ## Tokens -/

/-- White space between two tokens. -/
structure Ws where
  chars : Text
  ws : ∀ c ∈ chars, c = ' ' ∨ c = '\t' ∨ c = '\n' ∨ c = '\r'

namespace Ws

/-- No white space. -/
def none : Ws := ⟨[], nofun⟩

/-- White space after white space. -/
def append (w w' : Ws) : Ws :=
  ⟨w.chars ++ w'.chars, fun c hc => (mem_append.mp hc).elim (w.ws c) (w'.ws c)⟩

end Ws

/-- Decimal digits, one at least. -/
structure Digits where
  chars : Text
  ne_nil : chars ≠ []
  isDigit : ∀ c ∈ chars, c.isDigit = true

/-- The exponent of a number. -/
structure Exponent where
  upper : Bool
  /-- The sign, if it has one: is it a minus? -/
  sign : Option Bool
  digits : Digits

/-- The sign of an exponent. -/
def Exponent.signText (e : Exponent) : Text :=
  match e.sign with
  | none => []
  | some neg => [if neg then '-' else '+']

/-- The text of an exponent. -/
def Exponent.text (e : Exponent) : Text :=
  (if e.upper then 'E' else 'e') :: e.signText ++ e.digits.chars

/-- The number of an exponent. -/
def Exponent.value (e : Exponent) : Int :=
  if e.sign = some true then -Nat.ofDigitChars 10 e.digits.chars 0
  else Nat.ofDigitChars 10 e.digits.chars 0

/-- A number: its integer part has no zero before another digit. -/
structure NumberToken where
  neg : Bool
  int : Digits
  noLeadingZero : int.chars.head? = some '0' → int.chars.length = 1
  frac : Option Digits
  exp : Option Exponent

namespace NumberToken

/-- The sign of a number. -/
def signText (n : NumberToken) : Text := if n.neg then ['-'] else []

/-- The fraction of a number, with its point. -/
def fracText (n : NumberToken) : Text := n.frac.elim [] fun f => '.' :: f.chars

/-- The exponent of a number, with its letter. -/
def expText (n : NumberToken) : Text := n.exp.elim [] Exponent.text

/-- The text of a number. -/
@[grind] def text (n : NumberToken) : Text := n.signText ++ n.int.chars ++ n.fracText ++ n.expText

/-- Is the number without a fraction and without an exponent? -/
@[grind] def isInteger (n : NumberToken) : Bool := n.frac.isNone && n.exp.isNone

/-- The integer of a number without fraction and exponent. -/
def integer (n : NumberToken) : Int :=
  if n.neg then -Nat.ofDigitChars 10 n.int.chars 0 else Nat.ofDigitChars 10 n.int.chars 0

/-- The float that is nearest to the number. -/
def float (n : NumberToken) : F64 :=
  F64.round n.neg
    (decimalValue n.int.chars (n.frac.elim [] Digits.chars) (n.exp.elim 0 Exponent.value))

/-- What a number denotes: an integer is exact, of any size. -/
def value (n : NumberToken) : Number :=
  if n.isInteger then .fromBigint n.integer else .float n.float

/-- The limits on a number: the digits of an integer, the size of a float. -/
def Admitted (n : NumberToken) : Prop :=
  if n.isInteger then n.int.chars.length ≤ 4300 else n.float.isFinite = true

end NumberToken

/-- A hexadecimal digit. -/
structure HexDigit where
  char : Char
  hex : char.isDigit = true ∨ ('a' ≤ char ∧ char ≤ 'f') ∨ ('A' ≤ char ∧ char ≤ 'F')

/-- The number that a hexadecimal digit stands for. -/
def HexDigit.value (d : HexDigit) : Nat :=
  if d.char.isDigit then d.char.toNat - '0'.toNat
  else if 'a' ≤ d.char then d.char.toNat - 'a'.toNat + 10
  else d.char.toNat - 'A'.toNat + 10

/-- The four digits of `\u`. -/
structure Unit16 where
  a : HexDigit
  b : HexDigit
  c : HexDigit
  d : HexDigit

namespace Unit16

/-- The digits, in their order. -/
@[grind] def text (u : Unit16) : Text := [u.a.char, u.b.char, u.c.char, u.d.char]

/-- The code unit of UTF-16 that the digits stand for. -/
def value (u : Unit16) : Nat :=
  ((u.a.value * 16 + u.b.value) * 16 + u.c.value) * 16 + u.d.value

/-- The first half of a surrogate pair. -/
def IsHigh (u : Unit16) : Prop := 0xd800 ≤ u.value ∧ u.value < 0xdc00

/-- The second half of a surrogate pair. -/
def IsLow (u : Unit16) : Prop := 0xdc00 ≤ u.value ∧ u.value < 0xe000

instance (u : Unit16) : Decidable u.IsHigh := inferInstanceAs (Decidable (_ ∧ _))

instance (u : Unit16) : Decidable u.IsLow := inferInstanceAs (Decidable (_ ∧ _))

/-- The character of a surrogate pair. -/
def pair (u w : Unit16) : Char :=
  Char.ofNat (0x10000 + (u.value - 0xd800) * 1024 + (w.value - 0xdc00))

end Unit16

/-- What a letter after `\` stands for. -/
inductive Escape
  | quote | backslash | slash | b | f | n | r | t

namespace Escape

/-- The letter. -/
def letter : Escape → Char
  | quote => '"' | backslash => '\\' | slash => '/' | b => 'b' | f => 'f' | n => 'n' | r => 'r'
  | t => 't'

/-- The character that it stands for. -/
def char : Escape → Char
  | quote => '"' | backslash => '\\' | slash => '/' | b => Char.ofNat 8 | f => Char.ofNat 12
  | n => Char.ofNat 10 | r => Char.ofNat 13 | t => Char.ofNat 9

end Escape

/-- What a text is written with. -/
inductive StrItem
  /-- A character as it is. -/
  | char (c : Char) (h : 0x20 ≤ c.toNat ∧ c ≠ '"' ∧ c ≠ '\\')
  | escape (e : Escape)
  | unicode (u : Unit16)

namespace StrItem

/-- The text of one item. -/
@[grind] def text : StrItem → Text
  | char c _ => [c]
  | escape e => ['\\', e.letter]
  | unicode u => '\\' :: 'u' :: u.text

/-- The text of the items, without the quotes around them. -/
def textAll (s : List StrItem) : Text := s.flatMap text

/-- What the items denote; a half of a surrogate pair without the other denotes nothing. -/
@[grind] def decode : List StrItem → Option Text
  | [] => some []
  | char c _ :: s => (decode s).map (c :: ·)
  | escape e :: s => (decode s).map (e.char :: ·)
  | unicode u :: s =>
    if u.IsLow then none
    else if u.IsHigh then
      match s with
      | unicode w :: s => if w.IsLow then (decode s).map (u.pair w :: ·) else none
      | _ => none
    else (decode s).map (Char.ofNat u.value :: ·)

theorem decode_unicode {u : Unit16} (hl : ¬u.IsLow) (hh : ¬u.IsHigh) (s : List StrItem) :
    decode (unicode u :: s) = (decode s).map (Char.ofNat u.value :: ·) := by
  rw [decode.eq_def]
  dsimp only
  rw [if_neg hl, if_neg hh]

theorem decode_pair {u w : Unit16} (hu : u.IsHigh) (hw : w.IsLow) (s : List StrItem) :
    decode (unicode u :: unicode w :: s) = (decode s).map (u.pair w :: ·) := by
  have hl : ¬u.IsLow := by
    unfold Unit16.IsHigh at hu
    unfold Unit16.IsLow
    omega
  rw [decode, if_neg hl, if_pos hu, if_pos hw]

end StrItem

/-! ## Documents -/

mutual

/-- A value as it is written. -/
inductive Tree
  | null
  | bool (b : Bool)
  | number (n : NumberToken)
  | str (s : List StrItem)
  /-- The three tokens that are no JSON, but what is written for the floats of these names. -/
  | nan
  | infinity
  | negInfinity
  | emptyArray (w : Ws)
  | array (w : Ws) (es : Elements)
  | emptyObject (w : Ws)
  | object (w : Ws) (ms : Members)

/-- The elements of an array, with the white space after each and after each comma. -/
inductive Elements
  | last (v : Tree) (w : Ws)
  | cons (v : Tree) (w w' : Ws) (es : Elements)

/-- The members of an object, with the white space around each colon, after each value and
after each comma. -/
inductive Members
  | last (k : List StrItem) (wk wv : Ws) (v : Tree) (w : Ws)
  | cons (k : List StrItem) (wk wv : Ws) (v : Tree) (w w' : Ws) (ms : Members)

end

/-- The text of a text. -/
def quoted (s : List StrItem) : Text := '"' :: StrItem.textAll s ++ ['"']

mutual

/-- The text of a value. -/
def Tree.text : Tree → Text
  | .null => "null"
  | .bool b => if b then "true" else "false"
  | .number n => n.text
  | .str s => quoted s
  | .nan => "NaN"
  | .infinity => "Infinity"
  | .negInfinity => "-Infinity"
  | .emptyArray w => '[' :: w.chars ++ [']']
  | .array w es => '[' :: w.chars ++ es.text ++ [']']
  | .emptyObject w => '\x7b' :: w.chars ++ ['\x7d']
  | .object w ms => '\x7b' :: w.chars ++ ms.text ++ ['\x7d']

/-- The text of the elements of an array. -/
def Elements.text : Elements → Text
  | .last v w => v.text ++ w.chars
  | .cons v w w' es => v.text ++ w.chars ++ ',' :: w'.chars ++ es.text

/-- The text of the members of an object. -/
def Members.text : Members → Text
  | .last k wk wv v w => quoted k ++ wk.chars ++ ':' :: wv.chars ++ v.text ++ w.chars
  | .cons k wk wv v w w' ms =>
    quoted k ++ wk.chars ++ ':' :: wv.chars ++ v.text ++ w.chars ++ ',' :: w'.chars ++ ms.text

end

@[simp]
theorem Tree.text_emptyArray (w : Ws) : (Tree.emptyArray w).text = '[' :: w.chars ++ [']'] := rfl

@[simp]
theorem Tree.text_array (w : Ws) (es : Elements) :
    (Tree.array w es).text = '[' :: w.chars ++ es.text ++ [']'] := rfl

@[simp]
theorem Tree.text_emptyObject (w : Ws) :
    (Tree.emptyObject w).text = '\x7b' :: w.chars ++ ['\x7d'] := rfl

@[simp]
theorem Tree.text_object (w : Ws) (ms : Members) :
    (Tree.object w ms).text = '\x7b' :: w.chars ++ ms.text ++ ['\x7d'] := rfl

@[simp]
theorem Elements.text_last (v : Tree) (w : Ws) :
    (Elements.last v w).text = v.text ++ w.chars := rfl

@[simp]
theorem Elements.text_cons (v : Tree) (w w' : Ws) (es : Elements) :
    (Elements.cons v w w' es).text = v.text ++ w.chars ++ ',' :: w'.chars ++ es.text := rfl

@[simp]
theorem Members.text_last (k : List StrItem) (wk wv : Ws) (v : Tree) (w : Ws) :
    (Members.last k wk wv v w).text =
      quoted k ++ wk.chars ++ ':' :: wv.chars ++ v.text ++ w.chars := rfl

@[simp]
theorem Members.text_cons (k : List StrItem) (wk wv : Ws) (v : Tree) (w w' : Ws) (ms : Members) :
    (Members.cons k wk wv v w w' ms).text =
      quoted k ++ wk.chars ++ ':' :: wv.chars ++ v.text ++ w.chars ++ ',' :: w'.chars ++
        ms.text := rfl

mutual

/-- How many arrays and objects are nested. -/
def Tree.depth : Tree → Nat
  | .emptyArray _ | .emptyObject _ => 1
  | .array _ es => es.depth + 1
  | .object _ ms => ms.depth + 1
  | _ => 0

/-- The depth of the deepest element. -/
def Elements.depth : Elements → Nat
  | .last v _ => v.depth
  | .cons v _ _ es => max v.depth es.depth

/-- The depth of the deepest member. -/
def Members.depth : Members → Nat
  | .last _ _ _ v _ => v.depth
  | .cons _ _ _ v _ _ ms => max v.depth ms.depth

end

mutual

/-- What the numbers and the texts of a value keep to: an integer has at most 4300 digits, a
float is finite, no half of a surrogate pair stands alone; the three tokens that are no JSON
have to be allowed. -/
def Tree.Admitted (allowNan : Bool) : Tree → Prop
  | .number n => n.Admitted
  | .str s => (StrItem.decode s).isSome = true
  | .nan | .infinity | .negInfinity => allowNan = true
  | .array _ es => es.Admitted allowNan
  | .object _ ms => ms.Admitted allowNan
  | _ => True

/-- What the elements keep to. -/
def Elements.Admitted (allowNan : Bool) : Elements → Prop
  | .last v _ => v.Admitted allowNan
  | .cons v _ _ es => v.Admitted allowNan ∧ es.Admitted allowNan

/-- What the members keep to. -/
def Members.Admitted (allowNan : Bool) : Members → Prop
  | .last k _ _ v _ => (StrItem.decode k).isSome = true ∧ v.Admitted allowNan
  | .cons k _ _ v _ _ ms =>
    (StrItem.decode k).isSome = true ∧ v.Admitted allowNan ∧ ms.Admitted allowNan

end

mutual

/-- The value that a tree denotes. -/
def Tree.value : Tree → SynValue
  | .null => .nothing
  | .bool b => .bool b
  | .number n => .number n.value
  | .str s => .text ((StrItem.decode s).getD [])
  | .nan => .number (.float ⟨false, 0x7ff8000000000000, by decide⟩)
  | .infinity => .number (.float ⟨false, F64.infinity, by decide⟩)
  | .negInfinity => .number (.float ⟨true, F64.infinity, by decide⟩)
  | .emptyArray _ => .list []
  | .array _ es => .list es.values
  | .emptyObject _ => .map []
  | .object _ ms => .map (OrderedMap.lastWins ms.entries)

/-- The values of the elements. -/
def Elements.values : Elements → List SynValue
  | .last v _ => [v.value]
  | .cons v _ _ es => v.value :: es.values

/-- The members, each with its value. -/
def Members.entries : Members → List (Text × SynValue)
  | .last k _ _ v _ => [((StrItem.decode k).getD [], v.value)]
  | .cons k _ _ v _ _ ms => ((StrItem.decode k).getD [], v.value) :: ms.entries

end

@[simp]
theorem Elements.values_last (v : Tree) (w : Ws) : (Elements.last v w).values = [v.value] := rfl

@[simp]
theorem Elements.values_cons (v : Tree) (w w' : Ws) (es : Elements) :
    (Elements.cons v w w' es).values = v.value :: es.values := rfl

@[simp]
theorem Members.entries_last (k : List StrItem) (wk wv : Ws) (v : Tree) (w : Ws) :
    (Members.last k wk wv v w).entries = [((StrItem.decode k).getD [], v.value)] := rfl

@[simp]
theorem Members.entries_cons (k : List StrItem) (wk wv : Ws) (v : Tree) (w w' : Ws)
    (ms : Members) : (Members.cons k wk wv v w w' ms).entries =
      ((StrItem.decode k).getD [], v.value) :: ms.entries := rfl

/-- A document. -/
structure Document where
  before : Ws
  tree : Tree
  after : Ws

/-- The text of a document. -/
def Document.text (d : Document) : Text := d.before.chars ++ d.tree.text ++ d.after.chars

/-- The documents that are read: with at most 128 levels, and within the limits on their
numbers and texts. -/
def Document.Admitted (allowNan : Bool) (d : Document) : Prop :=
  d.tree.depth ≤ 128 ∧ d.tree.Admitted allowNan

/-! ## The numbers of the tokens -/

theorem Digits.isDigit_head (ds : Digits) {r : Text} {c : Char}
    (hc : c ∈ (ds.chars ++ r).head?) : c.isDigit = true := by
  obtain ⟨d, cs, hds⟩ := exists_cons_of_ne_nil ds.ne_nil
  have hd := ds.isDigit d (by simp [hds])
  rw [hds] at hc
  cases hc
  exact hd

theorem Digits.takeSign_append (ds : Digits) (r : Text) :
    takeSign (ds.chars ++ r) = (false, ds.chars ++ r) := by
  have h : ∀ c, (ds.chars ++ r).head? = some c → c.isDigit :=
    fun c hc => ds.isDigit_head hc
  revert h
  cases ds.chars ++ r with
  | nil => exact fun _ => rfl
  | cons c t =>
    intro h
    have hc := h c rfl
    unfold takeSign
    split
    · rename_i heq
      obtain ⟨rfl, -⟩ := cons.inj heq
      exact absurd hc (by decide)
    · rename_i heq
      obtain ⟨rfl, -⟩ := cons.inj heq
      exact absurd hc (by decide)
    · rfl

theorem parseInt_of_takeSign {t : Text} {neg : Bool} {ds : Digits}
    (h : takeSign t = (neg, ds.chars)) :
    parseInt t = some (if neg then -(Nat.ofDigitChars 10 ds.chars 0 : Int)
      else (Nat.ofDigitChars 10 ds.chars 0 : Int)) := by
  have h₁ : ds.chars.isEmpty = false := by simp [ds.ne_nil]
  have h₂ : Text.allDigits ds.chars := all_eq_true.mpr ds.isDigit
  simp [parseInt, h, h₁, h₂]

theorem Exponent.parseExponent_text (e : Exponent) : parseExponent e.text = some e.value := by
  have hsign : takeSign (e.signText ++ e.digits.chars) =
      (decide (e.sign = some true), e.digits.chars) := by
    obtain ⟨up, sign, ds⟩ := e
    match sign with
    | none => simpa [signText] using ds.takeSign_append []
    | some true => rfl
    | some false => rfl
  have hletter : ∀ t, parseExponent ((if e.upper then 'E' else 'e') :: t) = parseInt t := by
    intro t
    cases e.upper <;> rfl
  rw [text, cons_append, hletter, parseInt_of_takeSign hsign]
  simp [value]

namespace NumberToken

theorem takeSign_append (n : NumberToken) (t : Text) :
    takeSign (n.signText ++ n.int.chars ++ t) = (n.neg, n.int.chars ++ t) := by
  unfold signText
  cases n.neg
  · simpa using n.int.takeSign_append t
  · rfl

theorem parseInt_text {n : NumberToken} (hn : n.isInteger) : parseInt n.text = some n.integer := by
  have htext : n.text = n.signText ++ n.int.chars ++ [] := by
    simp only [isInteger, Bool.and_eq_true, Option.isNone_iff_eq_none] at hn
    simp [text, fracText, expText, hn.1, hn.2]
  have hsign := n.takeSign_append []
  rw [append_nil n.int.chars] at hsign
  rw [htext, parseInt_of_takeSign hsign, integer]

theorem parseExponent_expText (n : NumberToken) :
    parseExponent n.expText = some (n.exp.elim 0 Exponent.value) := by
  unfold expText
  cases n.exp with
  | none => rfl
  | some e => exact e.parseExponent_text

theorem expText_head (n : NumberToken) {c : Char} (hc : c ∈ n.expText.head?) :
    c.isDigit = false ∧ c ≠ '.' := by
  obtain ⟨_, _, _, _, exp⟩ := n
  cases exp with
  | none => cases hc
  | some e =>
    cases hup : e.upper <;> simp [expText, Exponent.text, hup] at hc <;> subst hc <;> decide

theorem takeWhile_of_head {t : Text} (h : ∀ c ∈ t.head?, c.isDigit = false) :
    t.takeWhile Char.isDigit = [] ∧ t.dropWhile Char.isDigit = t := by
  cases t with
  | nil => exact ⟨rfl, rfl⟩
  | cons c t => simp [h c rfl]

theorem takeWhile_digits (ds : Digits) {t : Text} (h : ∀ c ∈ t.head?, c.isDigit = false) :
    (ds.chars ++ t).takeWhile Char.isDigit = ds.chars ∧
      (ds.chars ++ t).dropWhile Char.isDigit = t := by
  obtain ⟨h₁, h₂⟩ := takeWhile_of_head h
  rw [takeWhile_append_of_pos ds.isDigit, dropWhile_append_of_pos ds.isDigit, h₁, h₂, append_nil]
  exact ⟨rfl, rfl⟩

theorem parseF64_text (n : NumberToken) : parseF64 n.text = some n.float := by
  have htext : n.text = n.signText ++ n.int.chars ++ (n.fracText ++ n.expText) := by
    simp [text]
  have hrest : ∀ c ∈ (n.fracText ++ n.expText).head?, c.isDigit = false := by
    unfold fracText
    cases n.frac with
    | none => exact fun c hc => (n.expText_head hc).1
    | some f =>
      intro c hc
      cases hc
      rfl
  obtain ⟨hint, hdrop⟩ := takeWhile_digits n.int hrest
  have hne : n.int.chars.isEmpty = false := by simp [n.int.ne_nil]
  rw [parseF64, htext, n.takeSign_append]
  dsimp only
  rw [hint, hdrop, hne]
  unfold fracText float
  cases n.frac with
  | some f =>
    obtain ⟨hfrac, hexp⟩ := takeWhile_digits f fun c hc => (n.expText_head hc).1
    simp [takeFraction, hfrac, hexp, n.parseExponent_expText]
  | none =>
    have hfrac : takeFraction n.expText = ([], n.expText) := by
      unfold takeFraction
      split
      · rename_i r hr
        exact absurd rfl (n.expText_head (c := '.') (by rw [hr]; rfl)).2
      · rfl
    simp [hfrac, n.parseExponent_expText]

end NumberToken

end Synsema.Json
