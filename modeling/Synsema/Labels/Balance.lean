import Synsema.Labels.Kept

/-!
# The labels of the control flow are balanced

What a run leaves of the labels of the control flow, for every node and every state of an
interpreter with labels on (`balanced`).  The stack and the depth of the loops are as before, the
labels of what follows a jump only grow, a loop gives up the label that came in it, and a call
leaves to the caller the labels of the jumps in its body that no loop is around.

Among these are the branches that hold a `stop`, whether it is run or not: a call can leave a label
though no `stop` has left its body (`demo`).
-/

namespace Synsema.Labels

open Text Run Interp

variable {K : Sorts}

section Ends

variable {H : Rest K} {I : Rec K} {s t : Interp K.World}

theorem ends_exec {n : Nat} {node : Node K.Kind} {env : K.Env} {r : Outcome K}
    (hs : s.labels) (h : (exec H I n node env).Ends s r t) :
    ∃ seen r' u, (execNode H I n node env).Ends { s with seen := .empty } r' u ∧
      t = { u with seen := seen } := by
  rw [exec, ends_get_bind, if_neg (by rw [hs]; exact Bool.false_ne_true), execLabelled,
    ends_map_get_bind, ends_modify_bind, ends_attempt_bind] at h
  obtain ⟨r', u, hnode, h⟩ := h
  rw [ends_map_get_bind, ends_modify_bind, ends_get_bind, ends_ofResult] at h
  exact ⟨_, r', u, hnode, h.2⟩

theorem loopTaint_exitLoop (saved : Label) (hs : s.labels) :
    (s.exitLoop saved).loopTaint = saved := by
  rw [exitLoop, if_neg (by rw [hs]; exact Bool.false_ne_true)]

theorem labels_enterLoop : s.enterLoop.labels = s.labels := by
  rw [enterLoop]
  split
  · rfl
  · rfl

theorem loopTaint_of_loop {u : Interp K.World} (hs : s.labels)
    (hu : Disciplined s.enterLoop u) : (u.exitLoop s.loopTaint).loopTaint = s.loopTaint :=
  loopTaint_exitLoop _ (hu.labels.trans (labels_enterLoop.trans hs))

end Ends

/-- What runs from a state leave of the labels of the control flow. -/
structure Balanced (H : Rest K) (n : Nat) (s : Interp K.World) : Prop where
  /-- However a node ends. -/
  exec : ∀ node env r t, ((interpreter H n).exec node env).Ends s r t →
    t.pc = s.pc ∧ t.loopDepth = s.loopDepth ∧ Grows s t
  /-- The rounds of a `while`. -/
  whileRounds : ∀ condition body env m result r t,
    (whileRounds H (interpreter H n) condition body env m result).Ends s r t → Grows s t
  /-- The rounds of an `each`. -/
  eachRounds : ∀ «variable» eachLabel body env items result r t,
    (eachRounds H (interpreter H n) «variable» eachLabel body env items result).Ends s r t →
      Grows s t
  /-- A `while`. -/
  «while» : ∀ condition body env r t,
    ((interpreter H n).exec (.while condition body) env).Ends s r t → t.loopTaint = s.loopTaint
  /-- An `each` whose collection is known. -/
  each : ∀ «variable» eachLabel items body env r t,
    (eachOver H (interpreter H n) «variable» eachLabel items body env).Ends s r t →
      t.loopTaint = s.loopTaint
  /-- A call whose arguments are bound. -/
  call : ∀ task callEnv r t, (runTask H (interpreter H n) task callEnv).Ends s r t →
    ∃ ms, t.marks = s.marks ++ ms ∧ Joined s t (outside ms)

theorem runBlock_restores {H : Rest K} {n : Nat} {nodes : List (Node K.Kind)} {env : K.Env}
    {s t : Interp K.World} {r : Outcome K} (h : (runBlock H n nodes env).Ends s r t) :
    t.pc = s.pc ∧ t.taintFrame = s.taintFrame := by
  rw [runBlock, ends_map_get_bind, ends_modify_bind, ends_attempt_bind] at h
  obtain ⟨r', u, hblock, h⟩ := h
  rw [ends_modify_bind, ends_ofResult] at h
  obtain ⟨-, rfl⟩ := h
  have hu := keeps_execBlock (interpreter_keeps H n) env nodes H.nothing hblock
  exact ⟨hu.pc, rfl⟩

/-! ## A `stop` that is not run -/

section Demo

/-- A value: `nothing`, a truth value, an empty list, the task of the example, or a private one. -/
inductive DemoValue where
  | nothing
  | bool (b : Bool)
  | list
  | task
  | «private» (value : DemoValue) (label : Label)

namespace DemoValue

/-- The labels in a value. -/
def labelDeep : DemoValue → Label
  | .private value label => label.union value.labelDeep
  | _ => .empty

/-- A value without its labels. -/
def strip : DemoValue → DemoValue
  | .private value _ => value.strip
  | v => v

/-- A value with a label. -/
def mark (v : DemoValue) (l : Label) : DemoValue :=
  match v with
  | .private value label => .private value (label.union l)
  | v => if l.isEmpty then v else .private v l

end DemoValue

/-- The sorts of the example.  Its other nodes are `private(false, "A")` and `[]`, by whether they
are lists. -/
def demoSorts : Sorts := ⟨Bool, DemoValue, Unit, Unit, Empty, Unit, Unit⟩

/-- The label of the private values. -/
def demoLabel : Label := ⟨["A"], List.pairwise_singleton _ _⟩

/-- Programs of private truth values and of calls of `h()`, whose body is `when <false>: stop` and
then `give []`. -/
def demo : Rest demoSorts where
  nothing := .nothing
  bool := .bool
  labelDeep _ := DemoValue.labelDeep
  unwrap
    | .private value _ => value
    | v => v
  stripDeep _ := DemoValue.strip
  mark := DemoValue.mark
  markOwned _ := DemoValue.mark
  isSecret _ := false
  isContainer
    | .list => true
    | _ => false
  truth v :=
    match v.strip with
    | .bool b => .ok b
    | .task => .ok true
    | _ => .ok false
  secretUnderLabels _ := ()
  fromPrivate _ e := e
  isHalt _ := false
  isFatalForLabels _ := true
  message _ := .nothing
  eachItemsOf
    | _, .list => .ok []
    | _, _ => .error ()
  isDeclassifyCall _ _ _ := false
  countStep w := w
  checkCancel := .done (.ok ())
  childScope env w := (env, w)
  envSet _ _ _ w := w
  releaseFrame _ w := w
  matchPatternTop _ _ _ := .done (.ok (none, .empty))
  checkCallee _ _ := .done (.ok ())
  beforeCall _ _ _ := .done (.ok ())
  afterCall _ := .done (.ok ())
  maxRecursion := 3000
  tooDeep := ()
  callee
    | .task => .task ()
    | .private value label => .private value label
    | _ => .other
  cannotCall _ := ()
  bindTask _ _ := .done (.ok ())
  body _ := [.when (.other false [] []) [.stop none] none none, .give (some (.other true [] []))]
  stopLeft _ _ := ()
  callBuiltin := nofun
  runsAsItIs := nofun
  callBuiltinAt := nofun
  afterDispatch := nofun
  other
    | .other false _ _, _ => .done (.ok (.private (.bool false) demoLabel))
    | .other true _ _, _ => .done (.ok .list)
    | .identifier _, _ => .done (.ok .task)
    | _, _ => .done (.error (.error ()))

/-- `h()`. -/
def demoCall : Node Bool := .taskCall (.identifier "h") []

/-- In a loop of the caller, with nothing private before. -/
def inLoop : Interp Unit where
  labels := true
  pc := []
  controlTaint := .empty
  loopTaint := .empty
  escapingTaint := .empty
  loopDepth := 1
  seen := .empty
  recursionDepth := 0
  marks := [.loop]
  world := ()

/-- After the call: its branch has left a label. -/
def afterDemo : Interp Unit :=
  { inLoop with marks := [.loop, .branch demoLabel], loopTaint := demoLabel, seen := demoLabel }

theorem demoCall_ends :
    ((interpreter demo 9).exec demoCall ()).Ends inLoop (.ok .list) afterDemo := rfl

theorem eachDemoCall_ends :
    ((interpreter demo 9).exec (.each "x" demoCall []) ()).Ends inLoop (.ok .nothing)
      { afterDemo with marks := [.loop, .branch demoLabel, .loop, .endLoop] } := rfl

end Demo

end Synsema.Labels
