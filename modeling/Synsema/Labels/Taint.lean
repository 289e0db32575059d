import Synsema.Labels.Value

/-!
# The labels of the control flow

The part of the interpreter's state that says which private values have decided that the program is
where it is (`synsema-core/src/interpreter.rs`): the stack of the labels of the branches it stands
in (`pc`), and the labels of what follows a jump out of one.  Such a label lasts to the end of the
task (`control_taint`) or, for a `stop`, to the end of the loop that it leaves (`loop_taint`); where
no loop of the task is around it, it goes on into the caller (`escaping_taint`).

`marks` is not in the source.  It is the history of the loops and of the jumps under private control
and serves to say where the escaping labels come from (`outside`).
-/

namespace Synsema.Labels

/-- An event of the history. -/
inductive Mark where
  /-- A loop is entered. -/
  | loop
  /-- A loop is left. -/
  | endLoop
  /-- A private branch has a `stop` in it and nothing that leaves the task. -/
  | branch (l : Label)
  /-- A `stop` is run under private control. -/
  | stop (l : Label)

/-- `Interpreter`: the fields for the control flow, `seen`, and the others as one. -/
structure Interp (ω : Type) where
  labels : Bool
  pc : List Label
  controlTaint : Label
  loopTaint : Label
  escapingTaint : Label
  loopDepth : Nat
  seen : Label
  recursionDepth : Nat
  marks : List Mark
  world : ω

structure TaintFrame where
  control : Label
  loops : Label
  escaping : Label
  depth : Nat

namespace Interp

variable {ω : Type}

/-- The label on top of the stack. -/
def pcTop (s : Interp ω) : Label := s.pc.getLast?.getD .empty

def pcLabel (s : Interp ω) : Label :=
  let top := s.pcTop
  let cont :=
    if s.controlTaint.isEmpty then s.loopTaint
    else if s.loopTaint.isEmpty then s.controlTaint
    else s.controlTaint.union s.loopTaint
  if cont.isEmpty then top else top.union cont

def pcIsEmpty (s : Interp ω) : Bool :=
  s.controlTaint.isEmpty && s.loopTaint.isEmpty && s.pcTop.isEmpty

def noteSeen (l : Label) (s : Interp ω) : Interp ω :=
  if l.isEmpty then s else { s with seen := s.seen.union l }

/-- An event is added to the history. -/
def record (m : Mark) (s : Interp ω) : Interp ω := { s with marks := s.marks ++ [m] }

/-! ## The stack -/

def pcPush (l : Label) (s : Interp ω) : Interp ω :=
  let joined := match s.pc.getLast? with
    | some top => top.union l
    | none => l
  { s.noteSeen l with pc := s.pc ++ [joined] }

def pcPop (s : Interp ω) : Interp ω := { s with pc := s.pc.dropLast }

/-! ## Jumps -/

/-- Where the label of a `stop` goes: to the loop that it leaves or, without one in this task, to
the rest of the task and to the caller. -/
def taintStop (l : Label) (s : Interp ω) : Interp ω :=
  if s.loopDepth > 0 then { s with loopTaint := s.loopTaint.union l }
  else
    { s with
      controlTaint := s.controlTaint.union l
      escapingTaint := s.escapingTaint.union l }

def taintBranch (l : Label) (escapesTask : Bool) (s : Interp ω) : Interp ω :=
  if !s.labels || l.isEmpty then s
  else if escapesTask then
    noteSeen l { s with controlTaint := s.controlTaint.union l }
  else noteSeen l ((s.record (.branch l)).taintStop l)

def taintAfterGive (s : Interp ω) : Interp ω :=
  if !s.labels then s
  else
    let pc := s.pcLabel
    if pc.isEmpty then s
    else noteSeen pc { s with controlTaint := s.controlTaint.union pc }

def taintAfterStop (s : Interp ω) : Interp ω :=
  if !s.labels then s
  else
    let pc := s.pcLabel
    if pc.isEmpty then s else noteSeen pc ((s.record (.stop pc)).taintStop pc)

/-! ## Loops and calls -/

/-- `enter_loop`: the state in the loop; what is saved is `loop_taint` before. -/
def enterLoop (s : Interp ω) : Interp ω :=
  if !s.labels then s else { s.record .loop with loopDepth := s.loopDepth + 1 }

def exitLoop (saved : Label) (s : Interp ω) : Interp ω :=
  if !s.labels then s
  else { s.record .endLoop with loopDepth := s.loopDepth - 1, loopTaint := saved }

/-- What `enter_call` and `take_taint` save. -/
def taintFrame (s : Interp ω) : TaintFrame :=
  ⟨s.controlTaint, s.loopTaint, s.escapingTaint, s.loopDepth⟩

/-- `enter_call`: the state in the call; what is saved is the `taintFrame` before. -/
def enterCall (s : Interp ω) : Interp ω := { s with escapingTaint := .empty, loopDepth := 0 }

def leaveCall (saved : TaintFrame) (s : Interp ω) : Interp ω :=
  let escaped := s.escapingTaint
  let s := { s with
    escapingTaint := saved.escaping
    loopDepth := saved.depth
    controlTaint := saved.control
    loopTaint := saved.loops }
  if !s.labels || escaped.isEmpty then s else s.taintStop escaped

/-- `take_taint`: the state in a new unit of execution; what is saved is the `taintFrame`. -/
def takeTaint (s : Interp ω) : Interp ω :=
  { s with controlTaint := .empty, loopTaint := .empty, escapingTaint := .empty, loopDepth := 0 }

def restoreTaint (saved : TaintFrame) (s : Interp ω) : Interp ω :=
  { s with
    controlTaint := saved.control
    loopTaint := saved.loops
    escapingTaint := saved.escaping
    loopDepth := saved.depth }

end Interp

end Synsema.Labels
