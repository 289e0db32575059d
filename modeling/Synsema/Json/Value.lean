import Synsema.Lib.Binary64
import Synsema.Text

/-!
# Values of JSON

The values of a program that JSON can carry (`SynValue` of `synsema-core/src/types.rs`), with
the three layouts of a list and the floats as their bits, and how the standard library of the
implementation reads and shows a float.
-/

namespace Synsema.Json

open Text

/-! ## Values -/

/-- Does the number fit a machine integer? -/
def FitsInt64 (n : Int) : Prop := -2 ^ 63 ≤ n ∧ n < 2 ^ 63

instance (n : Int) : Decidable (FitsInt64 n) := inferInstanceAs (Decidable (_ ∧ _))

/-- The numbers of JSON: an integer that fits a machine integer is never big. -/
inductive Number where
  | int (n : Int64)
  | big (n : Int) (h : ¬ FitsInt64 n)
  | float (x : F64)

/-- `SynValue`, of the kinds that JSON has. -/
inductive SynValue where
  | nothing
  | bool (b : Bool)
  | number (n : Number)
  | text (t : Text)
  /-- A list of values. -/
  | list (items : List SynValue)
  /-- An unboxed list of integers. -/
  | ints (xs : List Int64)
  /-- An unboxed list of floats. -/
  | floats (xs : List F64)
  /-- A map, its entries in their order. -/
  | map (entries : List (Text × SynValue))

def Number.fromBigint (n : Int) : Number :=
  if h : FitsInt64 n then .int (Int64.ofInt n) else .big n h

namespace SynValue

mutual

/-- The value with its lists boxed: the same elements, one by one. -/
def boxed : SynValue → SynValue
  | nothing => nothing
  | bool b => bool b
  | number n => number n
  | text t => text t
  | list items => list (boxedAll items)
  | ints xs => list (xs.map fun x => number (.int x))
  | floats xs => list (xs.map fun x => number (.float x))
  | map entries => map (boxedEntries entries)

/-- `boxed`, of every item. -/
def boxedAll : List SynValue → List SynValue
  | [] => []
  | v :: vs => boxed v :: boxedAll vs

/-- `boxed`, of every entry. -/
def boxedEntries : List (Text × SynValue) → List (Text × SynValue)
  | [] => []
  | (k, v) :: es => (k, boxed v) :: boxedEntries es

end

end SynValue

/-! ## Decimal texts of floats -/

/-- The value of decimal digits around a point, times a power of ten. -/
def decimalValue (int frac : Text) (exp : Int) : ℚ :=
  Nat.ofDigitChars 10 (int ++ frac) 0 * 10 ^ (exp - frac.length)

/-- A sign at the front of a text: is it a minus, and the rest. -/
def takeSign : Text → Bool × Text
  | '-' :: t => (true, t)
  | '+' :: t => (false, t)
  | t => (false, t)

/-- `str::parse` of an integer: digits after at most one sign. -/
def parseInt (t : Text) : Option Int :=
  let (neg, ds) := takeSign t
  if ds.isEmpty || !allDigits ds then none
  else some (if neg then -Nat.ofDigitChars 10 ds 0 else Nat.ofDigitChars 10 ds 0)

/-- The exponent that ends the text of a float. -/
def parseExponent : Text → Option Int
  | [] => some 0
  | c :: t => if c = 'e' ∨ c = 'E' then parseInt t else none

/-- The digits after a point at the front of a text, and the rest. -/
def takeFraction : Text → Text × Text
  | '.' :: t => (t.takeWhile Char.isDigit, t.dropWhile Char.isDigit)
  | t => ([], t)

/-- `str::parse::<f64>`, of a text of digits: the number nearest to the one that it writes. -/
def parseF64 (t : Text) : Option F64 :=
  let (neg, t) := takeSign t
  let int := t.takeWhile Char.isDigit
  let t := t.dropWhile Char.isDigit
  let (frac, t) := takeFraction t
  if int.isEmpty && frac.isEmpty then none
  else (parseExponent t).map fun exp => F64.round neg (decimalValue int frac exp)

/-- How the standard library shows a float. -/
structure RustFmt where
  /-- `{:e}`. -/
  sci : F64 → Text

/-- `str::parse` of a text that is known to be an integer. -/
def readInt (t : Text) : Int := (parseInt t).getD 0

/-- `write_py_float`: the shortest digits of a float, as Python writes them. -/
def pyFloatStr (R : RustFmt) (x : F64) : Text :=
  if x.isNan then "nan"
  else if x.isInfinite then if x.neg then "-inf" else "inf"
  else
    let (mant, expStr) := (splitOnce 'e' (R.sci x)).getD ([], [])
    let exp10 := readInt expStr
    let negative := startsWith ['-'] mant
    let mant := mant.dropWhile (· == '-')
    let d0 := mant.take 1
    let rest := (stripPrefix ['.'] (mant.drop 1)).getD (mant.drop 1)
    let n : Int := 1 + rest.length
    let digits (a b : Int) : Text := ((d0 ++ rest).drop a.toNat).take (b - a).toNat
    let zeros (k : Int) : Text := List.replicate k.toNat '0'
    let decpt := exp10 + 1
    let body :=
      if decpt ≤ -4 ∨ 16 < decpt then
        let exp := decpt - 1
        let shown := (toString exp.natAbs).toList
        d0 ++ (if 1 < n then '.' :: rest else []) ++ ['e', if exp < 0 then '-' else '+'] ++
          List.replicate (2 - shown.length) '0' ++ shown
      else if decpt ≤ 0 then "0." ++ zeros (-decpt) ++ digits 0 n
      else if n ≤ decpt then digits 0 n ++ zeros (decpt - n) ++ ".0"
      else digits 0 decpt ++ ['.'] ++ digits decpt n
    (if negative then ['-'] else []) ++ body

end Synsema.Json
