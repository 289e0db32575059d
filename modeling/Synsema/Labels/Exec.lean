import Synsema.Labels.Taint
import Synsema.Lib.Runs

/-!
# Running nodes

The tree walker (`synsema-core/src/interpreter.rs`), as far as it has to do with the labels of the
control flow: which it pushes and pops, taints with, saves and restores, around which of the nodes
and calls that it runs.

The other kinds of nodes, the patterns, the builtins and the binding of arguments do not touch these
labels.  They are a parameter (`Rest`): each is a `Plan`, which may run nodes, call values and
change the rest of the state as it likes.  The shortcuts that are off with labels on (the VM, a
range that is walked without a list) are left out.
-/

namespace Synsema.Labels

open Text Run Interp

/-! ## Nodes -/

/-- `Node`, by its `NodeKind`.  Of the kinds that are one here, `body` are the nodes that
`node_exits_early` looks into (the value of a `let` or a `set`, the body of a `sandbox`, a `trace`,
a `measure` or a `stream`) and `parts` the others. -/
inductive Node (κ : Type) where
  | when (condition : Node κ) (body : List (Node κ)) (otherwise : Option (List (Node κ)))
      (otherwiseWhen : Option (Node κ))
  | each («variable» : Text) (collection : Node κ) (body : List (Node κ))
  | «while» (condition : Node κ) (body : List (Node κ))
  | «match» (value : Node κ) (arms : List (Node κ)) (otherwise : Option (List (Node κ)))
  | matchArm (pattern : Node κ) (guard : Option (Node κ)) (body : List (Node κ))
  | stop (value : Option (Node κ))
  | give (value : Option (Node κ))
  | taskCall (name : Node κ) (arguments : List (Option Text × Node κ))
  | tryRecover (tryBody : List (Node κ)) (errorVariable : Text) (recoverBody : List (Node κ))
  | and (left right : Node κ)
  | or (left right : Node κ)
  | identifier (name : Text)
  | other (kind : κ) (body parts : List (Node κ))

namespace Node

variable {κ : Type}

def asIdentifier : Node κ → Option Text
  | identifier name => some name
  | _ => none

mutual

/-- `node_exits_early`. -/
def exitsEarly : Node κ → Bool → Bool
  | give _, _ => true
  | stop _, inNestedLoop => !inNestedLoop
  | taskCall name _, _ => name.asIdentifier == some "raise".toList
  | when _ body otherwise otherwiseWhen, inNestedLoop =>
    blockExits body inNestedLoop || otherwiseExits otherwise inNestedLoop ||
      otherwiseWhenExits otherwiseWhen inNestedLoop
  | «match» _ arms otherwise, inNestedLoop =>
    blockExits arms inNestedLoop || otherwiseExits otherwise inNestedLoop
  | matchArm _ _ body, inNestedLoop => blockExits body inNestedLoop
  | each _ _ body, _ => blockExits body true
  | «while» _ body, _ => blockExits body true
  | tryRecover tryBody _ recoverBody, inNestedLoop =>
    blockExits tryBody inNestedLoop || blockExits recoverBody inNestedLoop
  | other _ body _, inNestedLoop => blockExits body inNestedLoop
  | and _ _, _ => false
  | or _ _, _ => false
  | identifier _, _ => false

/-- `block_exits_early` and, within a nested loop, `block_exits_task`. -/
def blockExits : List (Node κ) → Bool → Bool
  | [], _ => false
  | n :: ns, inNestedLoop => exitsEarly n inNestedLoop || blockExits ns inNestedLoop

/-- The same, of an `otherwise`. -/
def otherwiseExits : Option (List (Node κ)) → Bool → Bool
  | none, _ => false
  | some ns, inNestedLoop => blockExits ns inNestedLoop

/-- The same, of an `otherwise when`. -/
def otherwiseWhenExits : Option (Node κ) → Bool → Bool
  | none, _ => false
  | some n, inNestedLoop => exitsEarly n inNestedLoop

end

/-- `when_exits_early` and `when_exits_task`. -/
def whenExits (body : List (Node κ)) (otherwise : Option (List (Node κ)))
    (otherwiseWhen : Option (Node κ)) (inNestedLoop : Bool) : Bool :=
  blockExits body inNestedLoop || otherwiseExits otherwise inNestedLoop ||
    otherwiseWhenExits otherwiseWhen inNestedLoop

/-- `match_exits_early` and `match_exits_task`. -/
def matchExits (arms : List (Node κ)) (otherwise : Option (List (Node κ))) (inNestedLoop : Bool) :
    Bool :=
  blockExits arms inNestedLoop || otherwiseExits otherwise inNestedLoop

end Node

/-! ## The rest of the interpreter -/

/-- What the rest of the interpreter works with. -/
structure Sorts where
  Kind : Type
  Value : Type
  Env : Type
  Task : Type
  Builtin : Type
  Error : Type
  World : Type

/-- `Control`: the ends of a node that are not a value. -/
inductive Control (K : Sorts) where
  | give (v : K.Value)
  | stop (v : Option K.Value)
  | error (e : K.Error)

/-- The arguments of a call, each with its name. -/
abbrev Args (K : Sorts) := List (Option Text × K.Value)

/-- What running a node does. -/
abbrev Exec (K : Sorts) (α : Type) := Run (Interp K.World) (Control K) α

/-- How a node or a call ended. -/
abbrev Outcome (K : Sorts) := Except (Control K) K.Value

/-- Code of the rest of the interpreter. -/
inductive Plan (K : Sorts) : Type → Type 1 where
  /-- It ends. -/
  | done {α : Type} (r : Except (Control K) α) : Plan K α
  /-- It reads the state. -/
  | look {α : Type} (k : Interp K.World → Plan K α) : Plan K α
  /-- It changes its own part of the state. -/
  | change {α : Type} (w : K.World) (p : Plan K α) : Plan K α
  /-- It calls `note_seen`. -/
  | note {α : Type} (l : Label) (p : Plan K α) : Plan K α
  /-- It runs a node. -/
  | exec {α : Type} (node : Node K.Kind) (env : K.Env) (k : Outcome K → Plan K α) : Plan K α
  /-- It calls a value. -/
  | call {α : Type} (func : K.Value) (args : Args K) (k : Outcome K → Plan K α) : Plan K α
  /-- It dispatches a builtin. -/
  | dispatch {α : Type} (bt : K.Builtin) (args : List K.Value) (k : Outcome K → Plan K α) :
      Plan K α
  /-- It does something under a label, as `llm_stream` does. -/
  | under {α β : Type} (l : Label) (p : Plan K β) (k : Except (Control K) β → Plan K α) :
      Plan K α

/-- What a value is to a call. -/
inductive Callee (K : Sorts) where
  | builtin (bt : K.Builtin)
  | task (task : K.Task)
  | «private» (value : K.Value) (label : Label)
  | other

/-- The rest of the interpreter. -/
structure Rest (K : Sorts) where
  /-- `SynValue::Nothing`. -/
  nothing : K.Value
  /-- `syn_bool`. -/
  bool : Bool → K.Value
  /-- `label_deep`. -/
  labelDeep : K.World → K.Value → Label
  /-- `unwrap`. -/
  unwrap : K.Value → K.Value
  /-- `strip_deep`. -/
  stripDeep : K.World → K.Value → K.Value
  /-- `mark`. -/
  mark : K.Value → Label → K.Value
  /-- `mark_owned`. -/
  markOwned : K.World → K.Value → Label → K.Value
  /-- `is_secret`. -/
  isSecret : K.Value → Bool
  /-- `is_container`. -/
  isContainer : K.Value → Bool
  /-- `truth`. -/
  truth : K.Value → Except K.Error Bool
  /-- The error of a secret under labels. -/
  secretUnderLabels : Bool → K.Error
  /-- What an error is marked with that comes about under labels. -/
  fromPrivate : Label → K.Error → K.Error
  /-- `is_halt`. -/
  isHalt : K.Error → Bool
  /-- `is_fatal_for_labels`. -/
  isFatalForLabels : K.Error → Bool
  /-- The text of an error, for `recover`. -/
  message : K.Error → K.Value
  /-- `each_items_of`. -/
  eachItemsOf : K.World → K.Value → Except K.Error (List K.Value)
  /-- `is_declassify_call`. -/
  isDeclassifyCall : K.World → Node K.Kind → K.Env → Bool
  /-- A step is counted. -/
  countStep : K.World → K.World
  /-- `check_cancel`. -/
  checkCancel : Plan K Unit
  /-- `acquire_frame` and `child_scope`. -/
  childScope : K.Env → K.World → K.Env × K.World
  /-- `env_set`. -/
  envSet : K.Env → Text → K.Value → K.World → K.World
  /-- `release_frame`. -/
  releaseFrame : K.Env → K.World → K.World
  /-- `match_pattern_top`, with the `pattern_label` after it. -/
  matchPatternTop : Node K.Kind → K.Value → K.Env → Plan K (Option (List (Text × K.Value)) × Label)
  /-- `check_protected_callee`. -/
  checkCallee : Node K.Kind → K.Value → Plan K Unit
  /-- What a call node does between its arguments and the call. -/
  beforeCall : Node K.Kind → K.Value → Args K → Plan K Unit
  /-- What a call node does after the call. -/
  afterCall : Node K.Kind → Plan K Unit
  /-- `MAX_RECURSION`. -/
  maxRecursion : Nat
  /-- The error of a call beyond it. -/
  tooDeep : K.Error
  /-- Which value can be called. -/
  callee : K.Value → Callee K
  /-- The error of one that cannot. -/
  cannotCall : K.Value → K.Error
  /-- The arguments of a task are bound. -/
  bindTask : K.Task → Args K → Plan K K.Env
  /-- The body of a task. -/
  body : K.Task → List (Node K.Kind)
  /-- The error of a `stop` that leaves a task under private control. -/
  stopLeft : K.Task → Label → K.Error
  /-- The arguments of a builtin are bound, and it is dispatched. -/
  callBuiltin : K.Builtin → Args K → Plan K K.Value
  /-- Is the builtin to run as it is: a sink that was let through, or one that knows of labels? -/
  runsAsItIs : K.Builtin → List K.Value → Plan K Bool
  /-- `call_builtin_at`. -/
  callBuiltinAt : K.Builtin → List K.Value → Plan K K.Value
  /-- What follows the dispatch of a builtin. -/
  afterDispatch : K.Builtin → Outcome K → Plan K K.Value
  /-- The node kinds that have no code here. -/
  other : Node K.Kind → K.Env → Plan K K.Value

/-- The interpreter, to the code that runs nodes with it. -/
structure Rec (K : Sorts) where
  exec : Node K.Kind → K.Env → Exec K K.Value
  callValueNamed : K.Value → Args K → Exec K K.Value
  callInner : K.Value → Args K → Exec K K.Value
  dispatchBuiltin : K.Builtin → List K.Value → Exec K K.Value

section Exec

variable {K : Sorts} (H : Rest K) (I : Rec K)

/-- The code of a plan. -/
def Plan.run {α : Type} : Plan K α → Exec K α
  | done r => ofResult r
  | look k => do
    let s ← get
    (k s).run
  | change w p => do
    modify fun s => { s with world := w }
    p.run
  | note l p => do
    modify (noteSeen l)
    p.run
  | exec node env k => do
    let r ← attempt (I.exec node env)
    (k r).run
  | call func args k => do
    let r ← attempt (I.callValueNamed func args)
    (k r).run
  | dispatch bt args k => do
    let r ← attempt (I.dispatchBuiltin bt args)
    (k r).run
  | under l p k => do
    let s ← get
    let under := s.labels && !l.isEmpty
    modify fun s => if under then s.pcPush l else s
    let r ← attempt p.run
    modify fun s => if under then s.pcPop else s
    (k r).run

/-- A new scope. -/
def newScope (env : K.Env) : Exec K K.Env := do
  let s ← get
  let (child, w) := H.childScope env s.world
  modify fun s => { s with world := w }
  pure child

/-- A step that changes the rest of the state only. -/
def onWorld (f : K.World → K.World) : Exec K Unit := modify fun s => { s with world := f s.world }

/-- A fallible step that only reads. -/
def orError {α : Type} (x : Except K.Error α) : Exec K α := ofResult (x.mapError .error)

def pcMark (v : K.Value) : Exec K K.Value := do
  let s ← get
  if s.labels && !s.pcIsEmpty then
    if H.isSecret v then throw (.error (H.secretUnderLabels s.pcIsEmpty))
    else if !H.isContainer v then pure (H.mark v s.pcLabel)
    else pure v
  else pure v

def rewrap (v : K.Value) (l : Label) : Exec K K.Value := do
  let s ← get
  if l.isEmpty then pure v
  else if H.isSecret v then throw (.error (H.secretUnderLabels s.pcIsEmpty))
  else do
    modify (noteSeen l)
    pure (H.mark v l)

def joinOperands (res a : K.Value) (b : Option K.Value) : Exec K K.Value := do
  let s ← get
  let l := H.labelDeep s.world a
  let l := match b with
    | some b => l.union (H.labelDeep s.world b)
    | none => l
  rewrap H res l

/-- `exec_block`, from the value of the statement before on. -/
def execBlock (env : K.Env) : List (Node K.Kind) → K.Value → Exec K K.Value
  | [], result => pure result
  | node :: nodes, _ => do
    (H.checkCancel).run I
    let result ← I.exec node env
    execBlock env nodes result

/-- A block, and its value under the labels around it. -/
def execMarked (nodes : List (Node K.Kind)) (env : K.Env) : Exec K K.Value := do
  let v ← execBlock H I env nodes H.nothing
  pcMark H v

/-! ## Branches -/

def execWhenBranches (truthy : Bool) (body : List (Node K.Kind))
    (otherwise : Option (List (Node K.Kind))) (otherwiseWhen : Option (Node K.Kind))
    (env : K.Env) : Exec K K.Value :=
  if truthy then execBlock H I env body H.nothing
  else match otherwiseWhen, otherwise with
    | some ow, _ => I.exec ow env
    | none, some ob => execBlock H I env ob H.nothing
    | none, none => pure H.nothing

/-- `when`. -/
def execWhen (condition : Node K.Kind) (body : List (Node K.Kind))
    (otherwise : Option (List (Node K.Kind))) (otherwiseWhen : Option (Node K.Kind))
    (env : K.Env) : Exec K K.Value := do
  let cond ← I.exec condition env
  let yes ← orError (H.truth cond)
  let s ← get
  let l := if s.labels then H.labelDeep s.world cond else .empty
  modify fun s =>
    if l.isEmpty then s
    else
      let s := if Node.whenExits body otherwise otherwiseWhen false then
          s.taintBranch l (Node.whenExits body otherwise otherwiseWhen true)
        else s
      s.pcPush l
  let r ← attempt do
    let v ← execWhenBranches H I yes body otherwise otherwiseWhen env
    pcMark H v
  modify fun s => if l.isEmpty then s else s.pcPop
  ofResult r

/-- The binders of an arm. -/
def bindAll (armEnv : K.Env) (subjectLabel : Label) : List (Text × K.Value) → Exec K Unit
  | [] => pure ()
  | (name, val) :: binds => do
    let val ← pcMark H (H.mark val subjectLabel)
    onWorld (H.envSet armEnv name val)
    bindAll armEnv subjectLabel binds

/-- The binders of an arm, and its guard. -/
def prepareArm (armEnv : K.Env) (subjectLabel : Label) (binds : List (Text × K.Value))
    (guard : Option (Node K.Kind)) : Exec K (Option K.Value) := do
  bindAll H armEnv subjectLabel binds
  match guard with
  | some g => do
    let v ← I.exec g armEnv
    pure (some v)
  | none => pure none

/-- `exec_match_arms`, with `extra` as far as it is. -/
def execMatchArms (v : K.Value) (otherwise : Option (List (Node K.Kind))) (env : K.Env)
    (subjectLabel : Label) : List (Node K.Kind) → Label → Exec K K.Value
  | .matchArm pattern guard body :: arms, extra => do
    let (binds, patternLabel) ← (H.matchPatternTop pattern v env).run I
    let s ← get
    let extra := if s.labels then extra.union patternLabel else extra
    match binds with
    | none => execMatchArms v otherwise env subjectLabel arms extra
    | some binds => do
      let armEnv ← newScope H env
      let pushed := s.labels && !extra.isEmpty
      modify fun s => if pushed then s.pcPush extra else s
      let prep ← attempt (prepareArm H I armEnv subjectLabel binds guard)
      modify fun s => if pushed then s.pcPop else s
      let guardVal ← ofResult prep
      let s ← get
      let extra := match guardVal with
        | some gv => if s.labels then extra.union (H.labelDeep s.world gv) else extra
        | none => extra
      let yes ← (match guardVal with
        | some gv => orError (H.truth gv)
        | none => pure true)
      if !yes then execMatchArms v otherwise env subjectLabel arms extra
      else do
        let pushed := s.labels && !extra.isEmpty
        modify fun s => if pushed then s.pcPush extra else s
        let r ← attempt (execMarked H I body armEnv)
        modify fun s => if pushed then s.pcPop else s
        ofResult r
  | _ :: arms, extra => execMatchArms v otherwise env subjectLabel arms extra
  | [], extra => do
    let s ← get
    let pushed := s.labels && !extra.isEmpty
    modify fun s => if pushed then s.pcPush extra else s
    let r ← attempt do
      let v ← (match otherwise with
        | some body => execBlock H I env body H.nothing
        | none => pure H.nothing)
      pcMark H v
    modify fun s => if pushed then s.pcPop else s
    ofResult r

/-- `match`. -/
def execMatch (value : Node K.Kind) (arms : List (Node K.Kind))
    (otherwise : Option (List (Node K.Kind))) (env : K.Env) : Exec K K.Value := do
  let v ← I.exec value env
  let s ← get
  let l := if s.labels then H.labelDeep s.world v else .empty
  let inner := if s.labels then H.unwrap v else v
  modify fun s =>
    if l.isEmpty then s
    else
      let s := if Node.matchExits arms otherwise false then
          s.taintBranch l (Node.matchExits arms otherwise true)
        else s
      s.pcPush l
  let r ← attempt (execMatchArms H I inner otherwise env l arms .empty)
  modify fun s => if l.isEmpty then s else s.pcPop
  ofResult r

def execRightUnder (left : K.Value) (right : Node K.Kind) (env : K.Env) : Exec K K.Value := do
  let s ← get
  let l := if s.labels then H.labelDeep s.world left else .empty
  modify fun s => if l.isEmpty then s else s.pcPush l
  let r ← attempt (I.exec right env)
  modify fun s => if l.isEmpty then s else s.pcPop
  ofResult r

/-- `and` and `or`: the right side is run when the left is not `decided`. -/
def execLogic (decided : Bool) (left right : Node K.Kind) (env : K.Env) : Exec K K.Value := do
  let l ← I.exec left env
  let yes ← orError (H.truth l)
  if yes == decided then joinOperands H (H.bool decided) l none
  else do
    let r ← execRightUnder H I l right env
    let yes ← orError (H.truth r)
    joinOperands H (H.bool yes) l (some r)

def execTryRecover (tryBody : List (Node K.Kind)) (errorVariable : Text)
    (recoverBody : List (Node K.Kind)) (env : K.Env) : Exec K K.Value := do
  let r ← attempt (execBlock H I env tryBody H.nothing)
  let s ← get
  let trySeen := if s.labels then s.seen else .empty
  match r with
  | .error (.error e) =>
    if (s.labels && H.isFatalForLabels e) || H.isHalt e then throw (.error e)
    else do
      let recoverEnv ← newScope H env
      let ev ← pcMark H (H.mark (H.message e) trySeen)
      onWorld (H.envSet recoverEnv errorVariable ev)
      modify fun s => if trySeen.isEmpty then s else s.pcPush trySeen
      let out ← attempt (execMarked H I recoverBody recoverEnv)
      modify fun s => if trySeen.isEmpty then s else s.pcPop
      ofResult out
  | r => ofResult r

/-! ## Loops -/

/-- The rounds of an `each`, from the value of the round before on. -/
def eachRounds («variable» : Text) (eachLabel : Option Label) (body : List (Node K.Kind))
    (env : K.Env) : List K.Value → K.Value → Exec K K.Value
  | [], result => pure result
  | item :: items, _ => do
    let loopEnv ← newScope H env
    let item := match eachLabel with
      | some l => H.mark item l
      | none => item
    let item ← pcMark H item
    onWorld (H.envSet loopEnv «variable» item)
    let r ← attempt (execMarked H I body loopEnv)
    match r with
    | .ok v => do
      onWorld (H.releaseFrame loopEnv)
      eachRounds «variable» eachLabel body env items v
    | .error (.stop _) => pure H.nothing
    | .error other => throw other

/-- `each`, from where the frame of the loop is opened. -/
def eachOver («variable» : Text) (eachLabel : Option Label) (items : List K.Value)
    (body : List (Node K.Kind)) (env : K.Env) : Exec K K.Value := do
  let savedLoop ← loopTaint <$> get
  modify enterLoop
  modify fun s => match eachLabel with
    | some l =>
      let s := if Node.blockExits body false then s.taintBranch l (Node.blockExits body true)
        else s
      s.pcPush l
    | none => s
  let outcome ← attempt (eachRounds H I «variable» eachLabel body env items H.nothing)
  modify fun s => if eachLabel.isSome then s.pcPop else s
  modify (exitLoop savedLoop)
  ofResult outcome

/-- `each`. -/
def execEach («variable» : Text) (collection : Node K.Kind) (body : List (Node K.Kind))
    (env : K.Env) : Exec K K.Value := do
  let coll ← I.exec collection env
  let s ← get
  let l := if s.labels then H.labelDeep s.world coll else .empty
  let eachLabel := if l.isEmpty then none else some l
  let coll := if s.labels then H.unwrap coll else coll
  let items ← orError (H.eachItemsOf s.world coll)
  eachOver H I «variable» eachLabel items body env

/-- The rounds of a `while`, at most `n`, from the value of the round before on. -/
def whileRounds (condition : Node K.Kind) (body : List (Node K.Kind)) (env : K.Env) :
    Nat → K.Value → Exec K K.Value
  | 0, _ => diverge
  | n + 1, result => do
    let cond ← I.exec condition env
    let yes ← orError (H.truth cond)
    if !yes then pure result
    else do
      let s ← get
      let l := if s.labels then H.labelDeep s.world cond else .empty
      modify fun s =>
        if l.isEmpty then s
        else
          let s := if Node.blockExits body false then
              s.taintBranch l (Node.blockExits body true)
            else s
          s.pcPush l
      let r ← attempt (execMarked H I body env)
      modify fun s => if l.isEmpty then s else s.pcPop
      match r with
      | .ok v => whileRounds condition body env n v
      | .error (.stop _) => pure H.nothing
      | .error other => throw other

/-- `while`. -/
def execWhile (n : Nat) (condition : Node K.Kind) (body : List (Node K.Kind)) (env : K.Env) :
    Exec K K.Value := do
  let savedLoop ← loopTaint <$> get
  modify enterLoop
  let outcome ← attempt (whileRounds H I condition body env n H.nothing)
  modify (exitLoop savedLoop)
  ofResult outcome

/-! ## Jumps and calls -/

/-- `stop`. -/
def execStop (value : Option (Node K.Kind)) (env : K.Env) : Exec K K.Value := do
  let v ← (match value with
    | some n => some <$> I.exec n env
    | none => pure none)
  modify taintAfterStop
  throw (.stop v)

/-- `give`. -/
def execGive (value : Option (Node K.Kind)) (env : K.Env) : Exec K K.Value := do
  let v ← (match value with
    | some n => I.exec n env
    | none => pure H.nothing)
  let s ← get
  let escapes := s.labels && value.any fun n => H.isDeclassifyCall s.world n env
  let out ← (if escapes then pure v else pcMark H v)
  modify taintAfterGive
  throw (.give out)

/-- The arguments of a call, from left to right. -/
def execArguments (env : K.Env) : List (Option Text × Node K.Kind) → Exec K (Args K)
  | [] => pure []
  | (name, value) :: arguments => do
    let val ← I.exec value env
    let args ← execArguments env arguments
    pure ((name, val) :: args)

/-- A call node. -/
def execTaskCall (name : Node K.Kind) (arguments : List (Option Text × Node K.Kind))
    (env : K.Env) : Exec K K.Value := do
  let func ← I.exec name env
  (H.checkCallee name func).run I
  let args ← execArguments I env arguments
  (H.beforeCall (.taskCall name arguments) func args).run I
  let out ← attempt (I.callValueNamed func args)
  (H.afterCall (.taskCall name arguments)).run I
  ofResult out

def callValueNamed (func : K.Value) (args : Args K) : Exec K K.Value := do
  modify fun s => { s with recursionDepth := s.recursionDepth + 1 }
  let s ← get
  if s.recursionDepth > H.maxRecursion then do
    modify fun s => { s with recursionDepth := s.recursionDepth - 1 }
    throw (.error H.tooDeep)
  else do
    let result ← attempt (I.callInner func args)
    modify fun s => { s with recursionDepth := s.recursionDepth - 1 }
    ofResult result

/-- What a body gives is the value of the call. -/
def given : Outcome K → Outcome K
  | .error (.give v) => .ok v
  | r => r

/-- Did it end with a `stop`? -/
def stopped : Outcome K → Bool
  | .error (.stop _) => true
  | _ => false

/-- The call of a task whose arguments are bound. -/
def runTask (task : K.Task) (callEnv : K.Env) : Exec K K.Value := do
  let savedTaint ← taintFrame <$> get
  modify enterCall
  let body ← attempt (execBlock H I callEnv (H.body task) H.nothing)
  let out := given body
  let s ← get
  let escapingStop := s.labels && stopped out && !s.escapingTaint.isEmpty
  modify (leaveCall savedTaint)
  if escapingStop then throw (.error (H.stopLeft task s.escapingTaint))
  else do
    onWorld (H.releaseFrame callEnv)
    ofResult out

/-- `call_value_named_inner`. -/
def callInner (func : K.Value) (args : Args K) : Exec K K.Value :=
  match H.callee func with
  | .builtin bt => (H.callBuiltin bt args).run I
  | .task task => do
    let callEnv ← (H.bindTask task args).run I
    runTask H I task callEnv
  | .private inner l => do
    let s ← get
    if s.labels then do
      modify (pcPush l)
      let r ← attempt (I.callInner inner args)
      modify pcPop
      let v ← ofResult r
      rewrap H v l
    else throw (.error (H.cannotCall func))
  | .other => throw (.error (H.cannotCall func))

def callBuiltinLabelled (bt : K.Builtin) (args : List K.Value) : Exec K K.Value := do
  let asItIs ← (H.runsAsItIs bt args).run I
  if asItIs then (H.callBuiltinAt bt args).run I
  else do
    let s ← get
    let argLabel : Label := args.foldl (fun l a => l.union (H.labelDeep s.world a)) .empty
    let l := argLabel.union s.pcLabel
    -- `seen` is kept apart during the call, for what the builtin sees
    modify fun t => { t with seen := .empty }
    let stripped := if argLabel.isEmpty then args else args.map (H.stripDeep s.world)
    modify fun t => if l.isEmpty then t else t.pcPush l
    let r ← attempt ((H.callBuiltinAt bt stripped).run I)
    modify fun t => if l.isEmpty then t else t.pcPop
    let saw ← seen <$> get
    modify fun t => { t with seen := s.seen.union saw }
    let r ← ofResult r
    let l := l.union saw
    let t ← get
    if l.isEmpty then pure r
    else if H.isSecret r then throw (.error (H.secretUnderLabels t.pcIsEmpty))
    else do
      modify (noteSeen l)
      pure (H.markOwned t.world r l)

def dispatchBuiltin (bt : K.Builtin) (args : List K.Value) : Exec K K.Value := do
  let s ← get
  let r ← attempt
    (if s.labels then callBuiltinLabelled H I bt args else (H.callBuiltinAt bt args).run I)
  (H.afterDispatch bt r).run I

/-! ## Nodes -/

/-- `exec_node`; loops have at most `n` rounds. -/
def execNode (n : Nat) (node : Node K.Kind) (env : K.Env) : Exec K K.Value := do
  onWorld H.countStep
  match node with
  | .when condition body otherwise otherwiseWhen =>
    execWhen H I condition body otherwise otherwiseWhen env
  | .each «variable» collection body => execEach H I «variable» collection body env
  | .while condition body => execWhile H I n condition body env
  | .match value arms otherwise => execMatch H I value arms otherwise env
  | .stop value => execStop I value env
  | .give value => execGive H I value env
  | .taskCall name arguments => execTaskCall H I name arguments env
  | .tryRecover tryBody errorVariable recoverBody =>
    execTryRecover H I tryBody errorVariable recoverBody env
  | .and left right => execLogic H I false left right env
  | .or left right => execLogic H I true left right env
  | node => (H.other node env).run I

/-- An error that a node ended with, with what it saw. -/
def markError (s : Interp K.World) (inner : Label) : Control K → Control K
  | .error e =>
    if (!s.pcIsEmpty || !inner.isEmpty) && !H.isHalt e then
      let l := s.pcLabel.union inner
      if l.isEmpty then .error e else .error (H.fromPrivate l e)
    else .error e
  | c => c

def execLabelled (n : Nat) (node : Node K.Kind) (env : K.Env) : Exec K K.Value := do
  let outer ← seen <$> get
  modify fun s => { s with seen := .empty }
  let r ← attempt (execNode H I n node env)
  let inner ← seen <$> get
  modify fun s => { s with seen := outer.union inner }
  let s ← get
  ofResult (r.mapError (markError H s inner))

def exec (n : Nat) (node : Node K.Kind) (env : K.Env) : Exec K K.Value := do
  let s ← get
  if !s.labels then execNode H I n node env else execLabelled H I n node env

end Exec

/-- The interpreter, with calls at most `n` within each other and loops of at most `n` rounds; what
goes beyond it does not end here. -/
def interpreter {K : Sorts} (H : Rest K) : Nat → Rec K
  | 0 => ⟨fun _ _ => diverge, fun _ _ => diverge, fun _ _ => diverge, fun _ _ => diverge⟩
  | n + 1 =>
    let I := interpreter H n
    ⟨exec H I n, callValueNamed H I, callInner H I, dispatchBuiltin H I⟩

/-- `run_block`: the body of an agent. -/
def runBlock {K : Sorts} (H : Rest K) (n : Nat) (nodes : List (Node K.Kind)) (env : K.Env) :
    Exec K K.Value := do
  let saved ← taintFrame <$> get
  modify takeTaint
  let r ← attempt (execBlock H (interpreter H n) env nodes H.nothing)
  modify (restoreTaint saved)
  ofResult r

end Synsema.Labels
