import Synsema.Labels.Value
import Synsema.Lib.OrderedMap

/-!
# Templates

The renderer of `synsema-core/src/templates.rs`, over the parsed trees.  What is outside the module
is a parameter: the evaluation of an expression, the environments, and the opening of a template,
which may change whatever a step of a program may change.

The renderer is over the buffers it writes to (`Sink`).  The source's are `html`; `pieces` keeps
apart what was written at one time, to say what the HTML is made of.
-/

namespace Synsema.Templates

open Text Labels

/-! ## Escaping -/

/-- `html_escape`, of a character. -/
def escapeChar : Char → Text
  | '&' => "&amp;"
  | '<' => "&lt;"
  | '>' => "&gt;"
  | '"' => "&quot;"
  | '\'' => "&#x27;"
  | c => [c]

def htmlEscape (s : Text) : Text := s.flatMap escapeChar

/-! ## Trees -/

/-- `TNode`, over the expressions of the language. -/
inductive TNode (ε : Type) where
  | text (s : Text)
  | name (name : Text) (escape : Bool)
  | expr (node : ε) (escape : Bool)
  | each (var : Text) (coll : ε) (body els : List (TNode ε)) (line : Nat)
  | when (cond : ε) (thn els : List (TNode ε))
  | slot (name : Option Text)
  | includes (path : Text) (withExpr : Option ε)
  | layout (path : Text)
  | fill (name : Text) (body : List (TNode ε))

namespace TNode

variable {ε : Type}

/-- The trees in a node. -/
def blocks : TNode ε → List (List (TNode ε))
  | each _ _ body els _ => [body, els]
  | when _ thn els => [thn, els]
  | fill _ body => [body]
  | _ => []

/-- The node is somewhere in the tree. -/
inductive Within (n : TNode ε) : List (TNode ε) → Prop where
  | here {tree : List (TNode ε)} (h : n ∈ tree) : Within n tree
  | inside {tree block : List (TNode ε)} {m : TNode ε} (hm : m ∈ tree) (hb : block ∈ m.blocks)
      (h : Within n block) : Within n tree

/-- The path of a `Layout`. -/
def layoutPath? : TNode ε → Option Text
  | layout path => some path
  | _ => none

end TNode

/-! ## The interpreter -/

/-- A step of the interpreter, whose state is of `σ`; the error is its text. -/
abbrev Run (σ α : Type) := StateT σ (Except Text) α

/-- The interpreter, as the renderer uses it: over the values without a value in them (`κ`), the
expressions, the environments (`ρ`) and the states. -/
structure Interp (κ ε ρ σ : Type) where
  eval : ε → ρ → Run σ (SynValue κ)
  envGet : ρ → Text → Run σ (Option (SynValue κ))
  envSet : ρ → Text → SynValue κ → Run σ Unit
  /-- `Environment::child`. -/
  child : ρ → Text → Run σ ρ
  /-- `Environment::child_scope`. -/
  childScope : ρ → Text → Run σ ρ
  templateParent : Run σ ρ
  truth : SynValue κ → ε → Run σ Bool
  labelsEnabled : Run σ Bool
  noteSeen : Label → Run σ Unit
  /-- `to_string`. -/
  display : SynValue κ → Text
  typeName : SynValue κ → Text
  synText : Text → SynValue κ
  /-- `arrays::each_items`, of a value that is an array. -/
  arrayItems : κ → Option (Except Text (List (SynValue κ)))
  /-- The gate of `render_template`. -/
  gate : Text → Run σ Unit
  /-- `open_template`: the name in errors, and the tree. -/
  openTemplate : Text → Bool → Run σ (Text × List (TNode ε))

def terr (file : Text) (line : Nat) (msg : Text) : Text :=
  file ++ ":" ++ Nat.toDigits 10 line ++ ": " ++ msg

/-- What the renderer writes to. -/
structure Sink (β : Type) where
  empty : β
  /-- Literal text is written. -/
  text : β → Text → β
  /-- The text of a value is written, to be escaped or not. -/
  hole : β → Text → Bool → β
  /-- What was written elsewhere is written. -/
  append : β → β → β

/-- The source's buffers. -/
def html : Sink Text where
  empty := []
  text out s := out ++ s
  hole out s escape := out ++ if escape then htmlEscape s else s
  append out s := out ++ s

/-- What is written at one time. -/
inductive Piece where
  | text (s : Text)
  | hole (s : Text) (escape : Bool)

/-- The HTML of a piece. -/
def Piece.out : Piece → Text
  | text s => s
  | hole s escape => if escape then htmlEscape s else s

/-- Buffers that keep the pieces apart. -/
def pieces : Sink (List Piece) where
  empty := []
  text out s := out ++ [.text s]
  hole out s escape := out ++ [.hole s escape]
  append out ps := out ++ ps

structure Slots (β : Type) where
  default : β
  named : OrderedMap Text β

namespace Interp

variable {κ ε ρ σ β : Type} (io : Interp κ ε ρ σ)

/-- The text of a value; its label is noted. -/
def shown (value : SynValue κ) : Run σ Text := do
  let l := if ← io.labelsEnabled then value.labelDeep else .empty
  if l.isEmpty then
    return io.display value
  else
    io.noteSeen l
    return io.display value.stripDeep

def emit (sink : Sink β) (value : SynValue κ) (escape : Bool) (out : β) : Run σ β := do
  return sink.hole out (← io.shown value) escape

/-- The labels in the condition of a `when` are noted. -/
def noteDeep (c : SynValue κ) : Run σ Unit := do
  if ← io.labelsEnabled then
    unless c.labelDeep.isEmpty do io.noteSeen c.labelDeep

/-- The items of an `each`. -/
def items (filename : Text) (line : Nat) : SynValue κ → Run σ (List (SynValue κ))
  | .list (.values vs) => return vs
  | .list (.unboxed ks) => return ks.map .atom
  | .map m => return m.map fun e => io.synText e.1
  | other =>
    let err := terr filename line
      ("Cannot iterate over " ++ io.typeName other ++ " in '\x7b each \x7d'")
    match other with
    | .atom k => match io.arrayItems k with
        | some items => liftM items
        | none => throw err
    | _ => throw err

/-- The values of a map go to an environment. -/
def bindAll (env : ρ) (m : List (Text × SynValue κ)) : Run σ Unit :=
  m.forM fun (k, v) => io.envSet env k v

/-- The data of a page go to its environment, if they are a map. -/
def bindData (env : ρ) : Option (SynValue κ) → Run σ Unit
  | some (.map m) => io.bindAll env m
  | _ => return ()

end Interp

/-- What renders a tree: in an environment, under a name, to a buffer. -/
abbrev Renderer (ε ρ σ β : Type) := List (TNode ε) → ρ → Text → β → Run σ β

section Render

variable {κ ε ρ σ β : Type} (io : Interp κ ε ρ σ) (sink : Sink β)

mutual

/-- `render_nodes`.  What renders an included tree is there as long as the nesting is not too
deep. -/
def renderNodes (slots : Slots β) (inner : Option (Renderer ε ρ σ β)) : Renderer ε ρ σ β
  | [], _, _, out => return out
  | node :: nodes, env, filename, out => do
    let out ← renderNode slots inner node env filename out
    renderNodes slots inner nodes env filename out

def renderNode (slots : Slots β) (inner : Option (Renderer ε ρ σ β)) :
    TNode ε → ρ → Text → β → Run σ β
  | .text s, _, _, out => return sink.text out s
  | .name name escape, env, filename, out => do
    match ← io.envGet env name with
    | some val => io.emit sink val escape out
    | none =>
      throw (filename ++ ": field '" ++ name ++ "' is not in the template data")
  | .expr node escape, env, _, out => do
    let val ← io.eval node env
    io.emit sink val escape out
  | .each var coll body els line, env, filename, out => do
    let c ← io.eval coll env
    let items ← io.items filename line c
    if items.isEmpty then
      renderNodes slots inner els env filename out
    else
      items.foldlM (fun out item => do
        let child ← io.childScope env "template:each"
        io.envSet child var item
        renderNodes slots inner body child filename out) out
  | .when cond thn els, env, filename, out => do
    let c ← io.eval cond env
    io.noteDeep c
    if ← io.truth c cond then
      renderNodes slots inner thn env filename out
    else
      renderNodes slots inner els env filename out
  | .slot none, _, _, out => return sink.append out slots.default
  | .slot (some n), _, _, out =>
    match slots.named.get? n with
    | some h => return sink.append out h
    | none => return out
  | .layout _, _, _, out => return out
  | .fill name _, _, filename, _ =>
    throw (filename ++ ": '\x7b fill \"" ++ name ++
      "\" \x7d' must be at the top level of the page")
  | .includes path withExpr, env, filename, out =>
    match inner with
    | none => throw (filename ++ ": template include nesting too deep")
    | some inner => do
      let (incName, incTree) ← io.openTemplate path true
      match withExpr with
      | none => inner incTree env incName out
      | some expr => do
        match ← io.eval expr env with
        | .map m =>
          let child ← io.childScope (← io.templateParent) "template:include"
          io.bindAll child m
          inner incTree child incName out
        | other =>
          throw (filename ++ ": '\x7b include \"" ++ path ++
            "\" with ... \x7d' expects a map of props, got " ++ io.typeName other)

end

/-- `render_nodes` at a depth: `room` is how many levels of `include` and `layout` there may be below
it, which is 51 less the depth of the source. -/
def renderAt (slots : Slots β) : Nat → Renderer ε ρ σ β
  | 0 => renderNodes io sink slots none
  | room + 1 => renderNodes io sink slots (some (renderAt slots room))

/-- The nodes at the top of a page: a fill goes to a buffer of its own. -/
def renderTop (slots : Slots β) (room : Nat) (layout : Option Text) (env : ρ) (filename : Text) :
    List (TNode ε) → β → OrderedMap Text β → Run σ (β × OrderedMap Text β)
  | [], out, fills => return (out, fills)
  | .fill name body :: nodes, out, fills => do
    if layout.isNone then
      throw (filename ++ ": '\x7b fill \"" ++ name ++
        "\" \x7d' requires a '\x7b layout \"...\" \x7d' declaration")
    let fillOut ← renderAt io sink slots room body env filename sink.empty
    renderTop slots room layout env filename nodes out (fills.insert name fillOut)
  | node :: nodes, out, fills => do
    let out ← renderAt io sink slots room [node] env filename out
    renderTop slots room layout env filename nodes out fills

def renderFile (data : Option (SynValue κ)) : Nat → Text → Slots β → Bool → Run σ β
  | 0, path, _, _ => throw ("template layout nesting too deep (" ++ path ++ ")")
  | room + 1, path, slots, gated => do
    let (filename, tree) ← io.openTemplate path gated
    let layoutPath := tree.findSome? TNode.layoutPath?
    let env ← io.child (← io.templateParent) ("template:" ++ filename)
    io.bindData env data
    let (out, fills) ←
      renderTop io sink slots (room + 1) layoutPath env filename tree sink.empty .empty
    match layoutPath with
    | some lp => renderFile data room lp ⟨out, fills⟩ true
    | none => return out

def renderTemplate (path : Text) (data : Option (SynValue κ)) : Run σ β := do
  io.gate path
  renderFile io sink data 51 path ⟨sink.empty, .empty⟩ false

end Render

end Synsema.Templates
