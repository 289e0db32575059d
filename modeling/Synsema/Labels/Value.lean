import Synsema.Lib.SortedSet
import Synsema.Text

/-!
# Labelled values

Values with labels (`synsema-core/src/labels.rs`).  A label is a set of principals; a private value
is a value with one.  What the other kinds of values hold (`κ`: numbers, texts, tasks, …) has no
labels in it and is a parameter.

`label_deep` gathers the labels in a value, `strip_deep` takes them off, and `check_flow` lets a
value out to a sink that accepts all of them, or tells where the first is that it does not.
-/

namespace Synsema.Labels

open Text

/-- `Label`: principals, sorted, each once. -/
abbrev Label := SortedSet Text

def labelFrom (names : List Text) : Label := .ofList (names.filter fun s => !s.isEmpty)

/-! ## Values -/

/-- `SynList`: a list holds values, or numbers without a box each. -/
inductive SynList (κ ν : Type) where
  | values (vs : List ν)
  | unboxed (ks : List κ)

/-- `ServerValue`; the kinds without a value in them are one. -/
inductive ServerValue (κ ν : Type) where
  | envelope (status : Int) (value : ν)
  | node (m : List (Text × ν))
  | content (inner : ν)
  | withHeaders (inner : ν) (headers : List (Text × Text))
  | other (k : κ)

/-- `SynValue`; the kinds without a value in them are one, but for `Secret`. -/
inductive SynValue (κ : Type) where
  | atom (k : κ)
  | secret (k : κ)
  | list (l : SynList κ (SynValue κ))
  | map (m : List (Text × SynValue κ))
  | server (s : ServerValue κ (SynValue κ))
  | «private» (value : SynValue κ) (label : Label)

namespace SynValue

variable {κ : Type}

/-! ## The labels in a value -/

mutual

@[grind] def deepInto : SynValue κ → Label → Label
  | .private value label, acc => deepInto value (acc.union label)
  | .list (.values vs), acc => deepIntoList vs acc
  -- read as values these are numbers
  | .list (.unboxed _), acc => acc
  | .map m, acc => deepIntoMap m acc
  | .server (.envelope _ value), acc => deepInto value acc
  | .server (.node m), acc => deepIntoMap m acc
  | .server (.content inner), acc => deepInto inner acc
  | .server (.withHeaders inner _), acc => deepInto inner acc
  | .server (.other _), acc => acc
  | .atom _, acc => acc
  | .secret _, acc => acc

/-- The same, over the values of a list. -/
def deepIntoList : List (SynValue κ) → Label → Label
  | [], acc => acc
  | x :: vs, acc => deepIntoList vs (deepInto x acc)

/-- The same, over the values of a map. -/
def deepIntoMap : List (Text × SynValue κ) → Label → Label
  | [], acc => acc
  | (_, x) :: m, acc => deepIntoMap m (deepInto x acc)

end

@[grind] def labelDeep (v : SynValue κ) : Label := v.deepInto .empty

def hasLabelDeep (v : SynValue κ) : Bool := !v.labelDeep.isEmpty

/-! ## Making private values -/

/-- `labelled`, the only constructor of private values: it sets `ANY_PRIVATE`. -/
def labelled (value : SynValue κ) (label : Label) : StateM Bool (SynValue κ) := do
  set true
  pure (.private value label)

def mark (v : SynValue κ) (label : Label) : StateM Bool (SynValue κ) :=
  if label.isEmpty then pure v
  else match v with
    | .private value old =>
      let joined := old.union label
      if joined.elems.length = old.elems.length then pure v else labelled value joined
    | .secret _ => pure v
    | other => labelled other label

/-! ## Taking labels off -/

mutual

@[grind] def stripDeep (v : SynValue κ) : SynValue κ :=
  if !v.hasLabelDeep then v
  else match v with
    | .private value _ => stripDeep value
    | .list (.values vs) => .list (.values (stripList vs))
    | .list (.unboxed ks) => .list (.unboxed ks)
    | .map m => .map (stripMap m)
    | .server (.envelope status value) => .server (.envelope status (stripDeep value))
    | .server (.node m) => .server (.node (stripMap m))
    | .server (.content inner) => .server (.content (stripDeep inner))
    | .server (.withHeaders inner headers) => .server (.withHeaders (stripDeep inner) headers)
    | .server (.other k) => .server (.other k)
    | .atom k => .atom k
    | .secret k => .secret k

/-- The same, over the values of a list. -/
def stripList : List (SynValue κ) → List (SynValue κ)
  | [] => []
  | x :: vs => stripDeep x :: stripList vs

/-- The same, over the values of a map. -/
def stripMap : List (Text × SynValue κ) → List (Text × SynValue κ)
  | [] => []
  | (k, x) :: m => (k, stripDeep x) :: stripMap m

end

/-! ## Checking -/

structure LabelViolation where
  path : Text
  label : Label
  accepted : Label

mutual

@[grind] def checkInto (accepted : Label) : SynValue κ → Text → Label → Except LabelViolation Unit
  | .private value label, path, ctx =>
    let eff := ctx.union label
    if !eff.subset accepted then .error ⟨path, eff, accepted⟩
    else checkInto accepted value path eff
  | .list (.values vs), path, ctx => checkList accepted vs 0 path ctx
  | .list (.unboxed _), _, _ => .ok ()
  | .map m, path, ctx => checkMap accepted m path ctx
  | .server (.envelope _ value), path, ctx =>
    checkInto accepted value (path ++ ".value") ctx
  | .server (.node m), path, ctx => checkMap accepted m path ctx
  | .server (.content inner), path, ctx => checkInto accepted inner path ctx
  | .server (.withHeaders inner _), path, ctx => checkInto accepted inner path ctx
  | .server (.other _), _, _ => .ok ()
  | .atom _, _, _ => .ok ()
  | .secret _, _, _ => .ok ()

/-- The same, over the values of a list from the place `i` on. -/
@[grind] def checkList (accepted : Label) :
    List (SynValue κ) → Nat → Text → Label → Except LabelViolation Unit
  | [], _, _, _ => .ok ()
  | x :: vs, i, path, ctx => do
    checkInto accepted x (path ++ ('[' :: digits i ++ [']'])) ctx
    checkList accepted vs (i + 1) path ctx

@[grind] def checkMap (accepted : Label) :
    List (Text × SynValue κ) → Text → Label → Except LabelViolation Unit
  | [], _, _ => .ok ()
  | (k, x) :: m, path, ctx => do
    checkInto accepted x (path ++ '.' :: k) ctx
    checkMap accepted m path ctx

end

mutual

def holdsPrivate : SynValue κ → Bool
  | .private _ _ => true
  | .list (.values vs) => holdsPrivateList vs
  | .list (.unboxed _) => false
  | .map m => holdsPrivateMap m
  | .server (.envelope _ value) => holdsPrivate value
  | .server (.node m) => holdsPrivateMap m
  | .server (.content inner) => holdsPrivate inner
  | .server (.withHeaders inner _) => holdsPrivate inner
  | .server (.other _) => false
  | .atom _ => false
  | .secret _ => false

/-- Does a value of a list? -/
def holdsPrivateList : List (SynValue κ) → Bool
  | [] => false
  | x :: vs => holdsPrivate x || holdsPrivateList vs

/-- Does a value of a map? -/
def holdsPrivateMap : List (Text × SynValue κ) → Bool
  | [] => false
  | (_, x) :: m => holdsPrivate x || holdsPrivateMap m

end

/-- `check_flow`, with what `ANY_PRIVATE` is at the time. -/
def checkFlow (anyPrivate : Bool) (v : SynValue κ) (accepted : List Text) (path : Text) :
    Except LabelViolation Unit :=
  if !anyPrivate || !v.holdsPrivate then .ok ()
  else checkInto (labelFrom accepted) v path .empty

end SynValue

end Synsema.Labels
