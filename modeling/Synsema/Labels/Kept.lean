import Synsema.Labels.Discipline

/-!
# Every node keeps to the discipline

What is pushed is popped and what is saved is restored, on every way out of a node: with a value, a
`give`, a `stop` or an error.  So a node, a block and a call keep to the discipline when those that
they run do, and by induction on how deep they are within each other all do (`interpreter_keeps`).
-/

namespace Synsema.Labels

open Text Run Interp

variable {K : Sorts} {α β : Type}

/-- However it ends, it keeps to the discipline. -/
abbrev Keeps (x : Exec K α) : Prop := Within Disciplined x

/-- All that the interpreter runs keeps to the discipline. -/
structure Rec.Keeps (I : Rec K) : Prop where
  exec : ∀ node env, Labels.Keeps (I.exec node env)
  callValueNamed : ∀ func args, Labels.Keeps (I.callValueNamed func args)
  callInner : ∀ func args, Labels.Keeps (I.callInner func args)
  dispatchBuiltin : ∀ bt args, Labels.Keeps (I.dispatchBuiltin bt args)

/-! ## What is pushed is popped -/

variable {f : Interp K.World → Interp K.World} {k : Except (Control K) α → Exec K β} {x : Exec K α}

theorem keeps_under (c : Bool) (l : Label) (hf : ∀ s, Disciplined s (f s)) (hx : Keeps x)
    (hk : ∀ r, Keeps (k r)) :
    Keeps (do
      modify fun s => if c then s else (f s).pcPush l
      let r ← attempt x
      modify fun s => if c then s else s.pcPop
      k r) := by
  refine hx.bracket hk fun s t h => ?_
  cases c with
  | true => exact h
  | false => exact (hf s).trans h.pcPop

theorem keeps_pushed (c : Bool) (l : Label) (hx : Keeps x) (hk : ∀ r, Keeps (k r)) :
    Keeps (do
      modify fun s => if c then s.pcPush l else s
      let r ← attempt x
      modify fun s => if c then s.pcPop else s
      k r) := by
  refine hx.bracket hk fun s t h => ?_
  cases c with
  | true => exact h.pcPop
  | false => exact h

theorem disciplined_branch (c e : Bool) (l : Label) (s : Interp K.World) :
    Disciplined s (if c then s.taintBranch l e else s) := by
  cases c with
  | true => exact .taintBranch l e s
  | false => exact .refl s

theorem keeps_noteSeen (l : Label) : Keeps (modify (noteSeen l) : Exec K PUnit) :=
  within_modify fun s => .noteSeen l s

theorem keeps_seen_world (l : Interp K.World → Label) (d : Interp K.World → Nat)
    (w : Interp K.World → K.World)
    (hf : ∀ s, f s = { s with seen := l s, recursionDepth := d s, world := w s }) :
    Keeps (modify f : Exec K PUnit) :=
  within_modify fun s => hf s ▸ .seen_world s (l s) (d s) (w s)

theorem keeps_onWorld (f : K.World → K.World) : Keeps (onWorld f) :=
  keeps_seen_world _ _ _ fun _ => rfl

section Values

variable (H : Rest K)

theorem keeps_newScope (env : K.Env) : Keeps (newScope H env) :=
  within_get_bind fun _ => .bind (keeps_seen_world _ _ _ fun _ => rfl) fun _ => within_pure _

theorem keeps_orError (x : Except K.Error α) : Keeps (orError x : Exec K α) := within_ofResult _

theorem keeps_pcMark (v : K.Value) : Keeps (pcMark H v) := by
  refine within_get_bind fun s => ?_
  split
  · split
    · exact within_throw _
    · split
      · exact within_pure _
      · exact within_pure _
  · exact within_pure _

theorem keeps_rewrap (v : K.Value) (l : Label) : Keeps (rewrap H v l) := by
  refine within_get_bind fun s => ?_
  split
  · exact within_pure _
  · split
    · exact within_throw _
    · exact (keeps_noteSeen l).bind fun _ => within_pure _

theorem keeps_joinOperands (res a : K.Value) (b : Option K.Value) :
    Keeps (joinOperands H res a b) :=
  within_get_bind fun _ => keeps_rewrap H res _

theorem keeps_bindAll (armEnv : K.Env) (subjectLabel : Label) (binds : List (Text × K.Value)) :
    Keeps (bindAll H armEnv subjectLabel binds) := by
  induction binds with
  | nil => exact within_pure _
  | cons b binds ih =>
    exact (keeps_pcMark H _).bind fun val => (keeps_onWorld _).bind fun _ => ih

end Values

section Keeps

variable {H : Rest K} {I : Rec K} (hI : I.Keeps)

include hI

/-! ## Plans and blocks -/

theorem Plan.keeps (p : Plan K α) : Keeps (p.run I) := by
  induction p with
  | done r => exact within_ofResult r
  | look k ih => exact within_get_bind fun s => ih s
  | change w p ih =>
    exact (within_modify fun s => .seen_world s s.seen s.recursionDepth w).bind fun _ => ih
  | note l p ih => exact (within_modify fun s => .noteSeen l s).bind fun _ => ih
  | exec node env k ih => exact (hI.exec node env).attempt_bind ih
  | call func args k ih => exact (hI.callValueNamed func args).attempt_bind ih
  | dispatch bt args k ih => exact (hI.dispatchBuiltin bt args).attempt_bind ih
  | under l p k ih ihk => exact within_get_bind fun s => keeps_pushed _ l ih ihk

theorem keeps_execBlock (env : K.Env) (nodes : List (Node K.Kind)) (result : K.Value) :
    Keeps (execBlock H I env nodes result) := by
  induction nodes generalizing result with
  | nil => exact within_pure result
  | cons node nodes ih =>
    exact ((H.checkCancel).keeps hI).bind fun _ => (hI.exec node env).bind fun v => ih v

theorem keeps_execMarked (nodes : List (Node K.Kind)) (env : K.Env) :
    Keeps (execMarked H I nodes env) :=
  (keeps_execBlock hI env nodes H.nothing).bind fun v => keeps_pcMark H v

/-! ## Branches -/

theorem keeps_execWhenBranches (truthy : Bool) (body : List (Node K.Kind))
    (otherwise : Option (List (Node K.Kind))) (otherwiseWhen : Option (Node K.Kind))
    (env : K.Env) : Keeps (execWhenBranches H I truthy body otherwise otherwiseWhen env) := by
  cases truthy with
  | true => exact keeps_execBlock hI env body H.nothing
  | false =>
    cases otherwiseWhen with
    | some ow => exact hI.exec ow env
    | none =>
      cases otherwise with
      | some ob => exact keeps_execBlock hI env ob H.nothing
      | none => exact within_pure _

theorem keeps_execWhen (condition : Node K.Kind) (body : List (Node K.Kind))
    (otherwise : Option (List (Node K.Kind))) (otherwiseWhen : Option (Node K.Kind))
    (env : K.Env) : Keeps (execWhen H I condition body otherwise otherwiseWhen env) := by
  refine (hI.exec condition env).bind fun cond => (keeps_orError _).bind fun yes => ?_
  refine within_get_bind fun s => ?_
  refine keeps_under _ _ (disciplined_branch _ _ _) ?_ within_ofResult
  exact (keeps_execWhenBranches hI yes body otherwise otherwiseWhen env).bind
    fun v => keeps_pcMark H v

theorem keeps_prepareArm (armEnv : K.Env) (subjectLabel : Label) (binds : List (Text × K.Value))
    (guard : Option (Node K.Kind)) : Keeps (prepareArm H I armEnv subjectLabel binds guard) := by
  refine (keeps_bindAll H armEnv subjectLabel binds).bind fun _ => ?_
  cases guard with
  | none => exact within_pure _
  | some g => exact (hI.exec g armEnv).bind fun v => within_pure _

theorem keeps_execMatchArms (v : K.Value) (otherwise : Option (List (Node K.Kind)))
    (env : K.Env) (subjectLabel : Label) (arms : List (Node K.Kind)) (extra : Label) :
    Keeps (execMatchArms H I v otherwise env subjectLabel arms extra) := by
  induction arms generalizing extra with
  | nil =>
    refine within_get_bind fun s => keeps_pushed _ _ (.bind ?_ fun v => keeps_pcMark H v)
      within_ofResult
    cases otherwise with
    | none => exact within_pure _
    | some body => exact keeps_execBlock hI env body H.nothing
  | cons arm arms ih =>
    cases arm with
    | matchArm pattern guard body =>
      refine ((H.matchPatternTop pattern v env).keeps hI).bind fun p => ?_
      refine within_get_bind fun s => ?_
      obtain ⟨binds, patternLabel⟩ := p
      cases binds with
      | none => exact ih _
      | some binds =>
        refine (keeps_newScope H env).bind fun armEnv => ?_
        refine keeps_pushed _ _ (keeps_prepareArm hI armEnv subjectLabel binds guard)
          fun prep => (within_ofResult prep).bind fun guardVal => ?_
        refine within_get_bind fun s => .bind ?_ fun yes => ?_
        · cases guardVal with
          | none => exact within_pure _
          | some gv => exact keeps_orError _
        · split
          · exact ih _
          · exact keeps_pushed _ _ (keeps_execMarked hI body armEnv) within_ofResult
    | _ => exact ih extra

theorem keeps_execMatch (value : Node K.Kind) (arms : List (Node K.Kind))
    (otherwise : Option (List (Node K.Kind))) (env : K.Env) :
    Keeps (execMatch H I value arms otherwise env) := by
  refine (hI.exec value env).bind fun v => within_get_bind fun s => ?_
  exact keeps_under _ _ (disciplined_branch _ _ _)
    (keeps_execMatchArms hI _ otherwise env _ arms .empty) within_ofResult

theorem keeps_execRightUnder (left : K.Value) (right : Node K.Kind) (env : K.Env) :
    Keeps (execRightUnder H I left right env) :=
  within_get_bind fun _ => keeps_under _ _ .refl (hI.exec right env) within_ofResult

theorem keeps_execLogic (decided : Bool) (left right : Node K.Kind) (env : K.Env) :
    Keeps (execLogic H I decided left right env) := by
  refine (hI.exec left env).bind fun l => (keeps_orError _).bind fun yes => ?_
  split
  · exact keeps_joinOperands H _ l none
  · exact (keeps_execRightUnder hI l right env).bind fun r => (keeps_orError _).bind fun yes =>
      keeps_joinOperands H _ l (some r)

theorem keeps_execTryRecover (tryBody : List (Node K.Kind)) (errorVariable : Text)
    (recoverBody : List (Node K.Kind)) (env : K.Env) :
    Keeps (execTryRecover H I tryBody errorVariable recoverBody env) := by
  refine (keeps_execBlock hI env tryBody H.nothing).attempt_bind fun r => ?_
  refine within_get_bind fun s => ?_
  match r with
  | .ok v => exact within_ofResult _
  | .error (.give v) => exact within_ofResult _
  | .error (.stop v) => exact within_ofResult _
  | .error (.error e) =>
    refine within_ite (within_throw _) (.bind (keeps_newScope H env) fun recoverEnv => ?_)
    refine (keeps_pcMark H _).bind fun ev => ?_
    refine (keeps_onWorld _).bind fun _ => ?_
    exact keeps_under _ _ .refl (keeps_execMarked hI recoverBody recoverEnv) within_ofResult

/-! ## Loops -/

theorem keeps_eachRounds («variable» : Text) (eachLabel : Option Label)
    (body : List (Node K.Kind)) (env : K.Env) (items : List K.Value) (result : K.Value) :
    Keeps (eachRounds H I «variable» eachLabel body env items result) := by
  induction items generalizing result with
  | nil => exact within_pure result
  | cons item items ih =>
    refine (keeps_newScope H env).bind fun loopEnv => (keeps_pcMark H _).bind fun item => ?_
    refine (keeps_onWorld _).bind fun _ => ?_
    refine (keeps_execMarked hI body loopEnv).attempt_bind fun r => ?_
    split
    · exact (keeps_onWorld _).bind fun _ => ih _
    · exact within_pure _
    · exact within_throw _

theorem keeps_whileRounds (condition : Node K.Kind) (body : List (Node K.Kind)) (env : K.Env)
    (n : Nat) (result : K.Value) : Keeps (whileRounds H I condition body env n result) := by
  induction n generalizing result with
  | zero => exact within_diverge
  | succ n ih =>
    refine (hI.exec condition env).bind fun cond => (keeps_orError _).bind fun yes => ?_
    split
    · exact within_pure _
    · refine within_get_bind fun s => ?_
      refine keeps_under _ _ (disciplined_branch _ _ _) (keeps_execMarked hI body env)
        fun r => ?_
      split
      · exact ih _
      · exact within_pure _
      · exact within_throw _

variable {s t : Interp K.World} {r : Outcome K}

variable {body : List (Node K.Kind)} {env : K.Env}

theorem ends_eachOver {«variable» : Text} {eachLabel : Option Label} {items : List K.Value}
    (h : (eachOver H I «variable» eachLabel items body env).Ends s r t) :
    ∃ u, Disciplined s.enterLoop u ∧ t = u.exitLoop s.loopTaint := by
  rw [eachOver, ends_map_get_bind, ends_modify_bind, ends_modify_bind, ends_attempt_bind] at h
  obtain ⟨r', u, hrounds, h⟩ := h
  rw [ends_modify_bind, ends_modify_bind, ends_ofResult] at h
  obtain ⟨-, rfl⟩ := h
  refine ⟨_, ?_, rfl⟩
  have hu := keeps_eachRounds hI «variable» eachLabel body env items H.nothing hrounds
  cases eachLabel with
  | none => exact hu
  | some l => exact (disciplined_branch _ _ l s.enterLoop).trans hu.pcPop

theorem ends_execWhile {n : Nat} {condition : Node K.Kind}
    (h : (execWhile H I n condition body env).Ends s r t) :
    ∃ u, Disciplined s.enterLoop u ∧ t = u.exitLoop s.loopTaint := by
  rw [execWhile, ends_map_get_bind, ends_modify_bind, ends_attempt_bind] at h
  obtain ⟨r', u, hrounds, h⟩ := h
  rw [ends_modify_bind, ends_ofResult] at h
  obtain ⟨-, rfl⟩ := h
  exact ⟨u, keeps_whileRounds hI condition body env n H.nothing hrounds, rfl⟩

theorem keeps_execEach («variable» : Text) (collection : Node K.Kind) (body : List (Node K.Kind))
    (env : K.Env) : Keeps (execEach H I «variable» collection body env) := by
  refine (hI.exec collection env).bind fun coll => within_get_bind fun s => ?_
  refine (keeps_orError _).bind fun items s r t h => ?_
  obtain ⟨u, hu, rfl⟩ := ends_eachOver hI h
  exact hu.exitLoop

theorem keeps_execWhile (n : Nat) (condition : Node K.Kind) (body : List (Node K.Kind))
    (env : K.Env) : Keeps (execWhile H I n condition body env) := by
  intro s r t h
  obtain ⟨u, hu, rfl⟩ := ends_execWhile hI h
  exact hu.exitLoop

/-! ## Jumps and calls -/

theorem keeps_execStop (value : Option (Node K.Kind)) (env : K.Env) :
    Keeps (execStop I value env) := by
  refine .bind ?_ fun v => (within_modify .taintAfterStop).bind fun _ => within_throw _
  cases value with
  | none => exact within_pure _
  | some n => exact (hI.exec n env).bind fun v => within_pure _

theorem keeps_execGive (value : Option (Node K.Kind)) (env : K.Env) :
    Keeps (execGive H I value env) := by
  refine .bind ?_ fun v => within_get_bind fun s => .bind ?_ fun out =>
    (within_modify .taintAfterGive).bind fun _ => within_throw _
  · cases value with
    | none => exact within_pure _
    | some n => exact hI.exec n env
  · split
    · exact within_pure _
    · exact keeps_pcMark H v

theorem keeps_execArguments (env : K.Env) (arguments : List (Option Text × Node K.Kind)) :
    Keeps (execArguments I env arguments) := by
  induction arguments with
  | nil => exact within_pure _
  | cons a arguments ih =>
    exact (hI.exec a.2 env).bind fun val => ih.bind fun args => within_pure _

theorem keeps_execTaskCall (name : Node K.Kind) (arguments : List (Option Text × Node K.Kind))
    (env : K.Env) : Keeps (execTaskCall H I name arguments env) := by
  refine (hI.exec name env).bind fun func => ((H.checkCallee name func).keeps hI).bind fun _ => ?_
  refine (keeps_execArguments hI env arguments).bind fun args => ?_
  refine ((H.beforeCall _ func args).keeps hI).bind fun _ => ?_
  refine (hI.callValueNamed func args).attempt_bind fun out => ?_
  exact ((H.afterCall _).keeps hI).bind fun _ => within_ofResult out

theorem keeps_callValueNamed (func : K.Value) (args : Args K) :
    Keeps (callValueNamed H I func args) := by
  refine .bind (keeps_seen_world _ _ _ fun _ => rfl) fun _ => within_get_bind fun s => ?_
  split
  · exact .bind (keeps_seen_world _ _ _ fun _ => rfl) fun _ => within_throw _
  · exact (hI.callInner func args).attempt_bind fun result =>
      .bind (keeps_seen_world _ _ _ fun _ => rfl) fun _ => within_ofResult result

theorem ends_runTask {task : K.Task} {callEnv : K.Env} (h : (runTask H I task callEnv).Ends s r t) :
    ∃ u w, Disciplined s.enterCall u ∧
      t = { u.leaveCall s.taintFrame with world := w } := by
  rw [runTask, ends_map_get_bind, ends_modify_bind, ends_attempt_bind] at h
  obtain ⟨body, u, hbody, h⟩ := h
  rw [ends_get_bind, ends_modify_bind] at h
  have hu := keeps_execBlock hI callEnv (H.body task) H.nothing hbody
  split at h
  · obtain ⟨-, rfl⟩ := ends_throw.mp h
    exact ⟨u, _, hu, rfl⟩
  · rw [onWorld, ends_modify_bind, ends_ofResult] at h
    obtain ⟨-, rfl⟩ := h
    exact ⟨u, _, hu, rfl⟩

theorem keeps_runTask (task : K.Task) (callEnv : K.Env) : Keeps (runTask H I task callEnv) := by
  intro s r t h
  obtain ⟨u, w, hu, rfl⟩ := ends_runTask hI h
  exact hu.leaveCall.trans (.seen_world _ _ _ w)

theorem keeps_callInner (func : K.Value) (args : Args K) : Keeps (callInner H I func args) := by
  rw [callInner]
  cases H.callee func with
  | builtin bt => exact (H.callBuiltin bt args).keeps hI
  | task task =>
    exact ((H.bindTask task args).keeps hI).bind fun callEnv => keeps_runTask hI task callEnv
  | «private» inner l =>
    refine within_get_bind fun s => within_ite ?_ (within_throw _)
    exact (hI.callInner inner args).bracket
      (fun r => (within_ofResult r).bind fun v => keeps_rewrap H v l) fun s t h => h.pcPop
  | other => exact within_throw _

theorem keeps_callBuiltinLabelled (bt : K.Builtin) (args : List K.Value) :
    Keeps (callBuiltinLabelled H I bt args) := by
  refine ((H.runsAsItIs bt args).keeps hI).bind fun asItIs => ?_
  refine within_ite ((H.callBuiltinAt bt args).keeps hI) (within_get_bind fun s => ?_)
  refine .bind (keeps_seen_world _ _ _ fun _ => rfl) fun _ => ?_
  refine keeps_under _ _ .refl ((H.callBuiltinAt bt _).keeps hI) fun r => ?_
  refine within_map_get_bind fun saw => .bind (keeps_seen_world _ _ _ fun _ => rfl) fun _ => ?_
  refine (within_ofResult r).bind fun r => within_get_bind fun t => ?_
  refine within_ite (within_pure _) (within_ite (within_throw _) ?_)
  exact (keeps_noteSeen _).bind fun _ => within_pure _

theorem keeps_dispatchBuiltin (bt : K.Builtin) (args : List K.Value) :
    Keeps (dispatchBuiltin H I bt args) := by
  refine within_get_bind fun s => .attempt_bind ?_ fun r => (H.afterDispatch bt r).keeps hI
  exact within_ite (keeps_callBuiltinLabelled hI bt args) ((H.callBuiltinAt bt args).keeps hI)

/-! ## Nodes -/

theorem keeps_execNode (n : Nat) (node : Node K.Kind) (env : K.Env) :
    Keeps (execNode H I n node env) := by
  refine (keeps_onWorld _).bind fun _ => ?_
  cases node with
  | when condition body otherwise otherwiseWhen =>
    exact keeps_execWhen hI condition body otherwise otherwiseWhen env
  | each «variable» collection body => exact keeps_execEach hI «variable» collection body env
  | «while» condition body => exact keeps_execWhile hI n condition body env
  | «match» value arms otherwise => exact keeps_execMatch hI value arms otherwise env
  | stop value => exact keeps_execStop hI value env
  | give value => exact keeps_execGive hI value env
  | taskCall name arguments => exact keeps_execTaskCall hI name arguments env
  | tryRecover tryBody errorVariable recoverBody =>
    exact keeps_execTryRecover hI tryBody errorVariable recoverBody env
  | and left right => exact keeps_execLogic hI false left right env
  | or left right => exact keeps_execLogic hI true left right env
  | matchArm pattern guard body | identifier name
  | other kind body parts => exact (H.other _ env).keeps hI

theorem keeps_exec (n : Nat) (node : Node K.Kind) (env : K.Env) : Keeps (exec H I n node env) := by
  refine within_get_bind fun s => within_ite (keeps_execNode hI n node env) ?_
  refine within_map_get_bind fun outer => .bind (keeps_seen_world _ _ _ fun _ => rfl) fun _ => ?_
  refine (keeps_execNode hI n node env).attempt_bind fun r => within_map_get_bind fun inner => ?_
  exact .bind (keeps_seen_world _ _ _ fun _ => rfl) fun _ =>
    within_get_bind fun s => within_ofResult _

end Keeps

theorem interpreter_keeps (H : Rest K) (n : Nat) : (interpreter H n).Keeps := by
  induction n with
  | zero =>
    exact ⟨fun _ _ => within_diverge, fun _ _ => within_diverge, fun _ _ => within_diverge,
      fun _ _ => within_diverge⟩
  | succ n ih =>
    exact ⟨keeps_exec ih n, keeps_callValueNamed ih, keeps_callInner ih,
      keeps_dispatchBuiltin ih⟩

end Synsema.Labels
