import Synsema.Lib.Binary64
import Synsema.Text

/-!
# What models answer in

JSON as the providers of models read it (`synsema-runtime/src/llm_providers.rs`), and a step of a
model (`synsema-llm/src/provider.rs`).  How a text is read as a value and how a value is shown is a
parameter: the library that does it is not part of the repository.
-/

namespace Synsema.Llm

open Text

/-- `serde_json::Number`. -/
inductive Number where
  | posInt (n : UInt64)
  | negInt (n : Int64)
  | float (x : F64)

/-- `serde_json::Value`: the entries of an object are in the order of the document. -/
inductive Value where
  | null
  | bool (b : Bool)
  | number (n : Number)
  | string (t : Text)
  | array (items : List Value)
  | object (entries : List (Text × Value))

namespace Value

/-- `Value::get`. -/
def get (key : Text) : Value → Option Value
  | object entries => (entries.find? fun e => e.1 == key).map Prod.snd
  | _ => none

/-- `Value::as_str`. -/
def asStr : Value → Option Text
  | string t => some t
  | _ => none

/-- `Value::as_u64`. -/
def asU64 : Value → Option UInt64
  | number (.posInt n) => some n
  | _ => none

/-- `Value::as_array`. -/
def asArray : Value → Option (List Value)
  | array items => some items
  | _ => none

/-- The text under a key. -/
def str (key : Text) (v : Value) : Option Text := (v.get key).bind asStr

/-- The number under a key. -/
def u64 (key : Text) (v : Value) : Option UInt64 := (v.get key).bind asU64

/-- The list under a key. -/
def list (key : Text) (v : Value) : Option (List Value) := (v.get key).bind asArray

/-- `type`, the key by which values of an answer are told apart. -/
def type (v : Value) : Option Text := v.str "type"

end Value

/-- `serde_json::from_str`, which reads no value of nothing, and `Value::to_string`. -/
structure Serde where
  fromStr : Text → Except Text Value
  empty : ∀ v, fromStr [] ≠ .ok v
  toText : Value → Text

namespace Serde

variable (σ : Serde)

def stringifyJson : Value → Text
  | .string t => t
  | v => σ.toText v

/-- The arguments of a call: the entries of an object. -/
def entries (m : List (Text × Value)) : List (Text × Text) :=
  m.map fun e => (e.1, σ.stringifyJson e.2)

/-- The arguments that a text holds, none if it is not an object. -/
def args (t : Text) : List (Text × Text) :=
  match σ.fromStr t with
  | .ok (.object m) => σ.entries m
  | _ => []

def apiErrorMessage (err : Value) : Text := (err.str "message").getD (σ.toText err)

end Serde

inductive LlmStep where
  | final (t : Text)
  | toolCall (name : Text) (args : List (Text × Text))
  deriving DecidableEq

/-- The last of the numbers that are there. -/
def lastOf (l : List (Option UInt64)) : Option UInt64 := (l.filterMap id).getLast?

@[simp]
theorem lastOf_nil : lastOf [] = none := rfl

theorem lastOf_cons_getD (o : Option UInt64) (l : List (Option UInt64)) (n : UInt64) :
    (lastOf (o :: l)).getD n = (lastOf l).getD (o.getD n) := by
  cases o with
  | none => rfl
  | some m =>
    simp only [lastOf, List.filterMap_cons, id_eq, List.getLast?_cons, Option.getD_some]

end Synsema.Llm
