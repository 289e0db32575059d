import Synsema.Lib.Simulation
import Mathlib.Data.BitVec

/-!
# Steps in blocks

How the compiler of bodies (`synsema-core/src/vm.rs`) counts the steps of a body: while it emits,
each instruction carries the nodes that were entered before it, and at the end (`Compiler::finish`)
each basic block gets one instruction that counts all of its steps, with for each instruction what
is counted too many where it fails.

Of an instruction there is what `finish` looks at: its kind and its target.
-/

namespace Synsema.Vm

/-! ## Instructions -/

/-- `Ins`.  A target is a label while the body is compiled, and a place in the code after that. -/
inductive Ins where
  | steps (w : Nat)
  | stepsCancel (w : Nat)
  | nop
  | checkCancel
  | jump (dest : Nat)
  | jumpIfFalsy (dest : Nat)
  | loopBack (dest : Nat)
  | tryInPlace (done : Nat)
  | setPath
  | pathRoot (desc : Nat)
  | eachNext (exit : Nat)
  | matchArm (fail : Nat)
  | eachStep (head : Nat)
  | eachStepV (head : Nat)
  | eachNextV (exit : Nat)
  | isRange (dest : Nat)
  | eachInit
  | exec
  | call
  | callBuiltin
  | callNative
  | define
  | give
  | stopOut
  | end_
  /-- The others, which go on or fail. -/
  | plain
deriving DecidableEq

namespace Ins

/-- The target; that of `PathRoot` is in the table of the paths. -/
def target (paths : List Nat) : Ins → Option Nat
  | jump dest | jumpIfFalsy dest | loopBack dest | isRange dest => some dest
  | tryInPlace done => some done
  | pathRoot desc => paths[desc]?
  | eachNext exit | eachNextV exit => some exit
  | matchArm fail => some fail
  | eachStep head | eachStepV head => some head
  | _ => none

/-- The instruction with its target put elsewhere; that of `PathRoot` is put elsewhere in the table.
-/
def retarget (f : Nat → Nat) : Ins → Ins
  | jump dest => jump (f dest)
  | jumpIfFalsy dest => jumpIfFalsy (f dest)
  | loopBack dest => loopBack (f dest)
  | tryInPlace done => tryInPlace (f done)
  | eachNext exit => eachNext (f exit)
  | matchArm fail => matchArm (f fail)
  | eachStep head => eachStep (f head)
  | eachStepV head => eachStepV (f head)
  | eachNextV exit => eachNextV (f exit)
  | isRange dest => isRange (f dest)
  | ins => ins

/-- `leader[i + 1] = true`: a block ends with the instruction. -/
def endsBlock : Ins → Bool
  | jump _ | jumpIfFalsy _ | loopBack _ => true
  | setPath => true
  | eachNext _ | matchArm _ | eachStep _ | eachStepV _ | eachNextV _ | isRange _ => true
  | eachInit => true
  | exec | call | callBuiltin | callNative => true
  | define | give | stopOut | end_ => true
  | _ => false

end Ins

/-! ## Emitting -/

/-- An instruction with its weight and the label of the loop that a `stop` in it cuts. -/
structure Slot where
  ins : Ins
  weight : Nat
  stopOf : Option Nat

/-- `Compiler`, as far as `finish` looks at it; `code`, `weight` and `stop_of` are one list. -/
structure Compiler where
  slots : List Slot
  pending : Nat
  labels : List (Option Nat)
  loops : List Nat
  paths : List Nat

namespace Compiler

/-- `Compiler::new`. -/
def new : Compiler := { slots := [], pending := 0, labels := [], loops := [], paths := [] }

def emit (c : Compiler) (ins : Ins) : Compiler :=
  { c with
    slots := c.slots ++ [{ ins, weight := c.pending, stopOf := c.loops.getLast? }]
    pending := 0 }

def enter (c : Compiler) : Compiler := { c with pending := (c.pending + 1) % 2 ^ 32 }

def flush (c : Compiler) : Compiler := if 0 < c.pending then c.emit .nop else c

/-- `label`, which answers the number of the labels there were. -/
def label (c : Compiler) : Compiler := { c with labels := c.labels ++ [none] }

def bind (c : Compiler) (l : Nat) : Compiler :=
  { c.flush with labels := c.flush.labels.set l (some c.flush.slots.length) }

/-- `self.paths.push(…)`, with the label behind the path. -/
def pushPath (c : Compiler) (done : Nat) : Compiler := { c with paths := c.paths ++ [done] }

/-- `self.loops.push(exit)`. -/
def pushLoop (c : Compiler) (exit : Nat) : Compiler := { c with loops := c.loops ++ [exit] }

/-- `self.loops.pop()`. -/
def popLoop (c : Compiler) : Compiler := { c with loops := c.loops.dropLast }

/-! ## The end of a body -/

/-- The first two lines of `finish`. -/
def closed (c : Compiler) : Compiler := c.flush.emit .end_

section Finish

variable (c : Compiler)

/-- `n`. -/
def size : Nat := c.slots.length

/-- `self.code[i]`. -/
def ins (i : Nat) : Ins := (c.slots[i]?.map Slot.ins).getD .nop

/-- `self.weight[i]`. -/
def weight (i : Nat) : Nat := (c.slots[i]?.map Slot.weight).getD 0

/-- `self.stop_of[i]`. -/
def stopOf (i : Nat) : Option Nat := c.slots[i]?.bind Slot.stopOf

/-- `self.labels[l]`. -/
def labelAt (l : Nat) : Nat := (c.labels[l]?.join).getD 0

/-- `target`, of an instruction. -/
def target (ins : Ins) : Option Nat := ins.target c.paths

/-- `leader[i]`: a block starts at 0, at each target, and behind what ends a block. -/
def leader : Nat → Bool
  | 0 => true
  | i + 1 =>
    (c.slots.any fun s => (c.target s.ins).any fun l => c.labelAt l == i + 1) ||
      (c.slots[i]?).any fun s => s.ins.endsBlock

/-- `acc` behind the last `m` rounds of `for i in (0..n).rev()`. -/
def acc : Nat → Nat
  | 0 => 0
  | m + 1 =>
    if c.leader (c.size - (m + 1)) then 0
    else (acc m + c.weight (c.size - (m + 1))) % 2 ^ 32

/-- `rest[i]`: what is counted too many where the instruction fails. -/
def rest (i : Nat) : Nat := c.acc (c.size - (i + 1))

/-- `j`: where the block that starts at `i` ends. -/
def blockEnd (i : Nat) : Nat :=
  ((List.range c.size).find? fun j => decide (i < j) && c.leader j).getD c.size

/-- `i..j`. -/
def block (i : Nat) : List Nat := List.range' i (c.blockEnd i - i)

def total (i : Nat) : Nat := ((c.block i).map c.weight).sum % 2 ^ 32

/-- `fused`: the check that the steps of the block are counted with. -/
def fused (i : Nat) : Option Nat :=
  ((c.block i).find? fun k => decide (c.ins k ≠ .nop)).filter fun k =>
    decide (0 < c.total i ∧ c.ins k = .checkCancel)

/-- The `i` of the block that an instruction is in. -/
def blockStart : Nat → Nat
  | 0 => 0
  | k + 1 => if c.leader (k + 1) then k + 1 else blockStart k

/-- An entry of `code`, `new_rest` and `new_stop`. -/
structure Placed where
  ins : Ins
  rest : Nat
  stopTo : Option Nat

/-- The instruction that counts the steps of a block. -/
def header (i : Nat) : List Placed :=
  match c.fused i with
  | some k => [{ ins := .stepsCancel (c.total i), rest := c.rest k, stopTo := c.stopOf k }]
  | none => if 0 < c.total i then [{ ins := .steps (c.total i), rest := 0, stopTo := none }] else []

/-- The instruction itself, unless it only carried steps or is counted with them. -/
def body (k : Nat) : List Placed :=
  if c.ins k = .nop ∨ c.fused (c.blockStart k) = some k then []
  else [{ ins := c.ins k, rest := c.rest k, stopTo := c.stopOf k }]

/-- What is pushed for an instruction. -/
def out (k : Nat) : List Placed := (if c.leader k then c.header k else []) ++ c.body k

/-- `new_index[k]`. -/
def newIndex (k : Nat) : Nat := ((List.range k).flatMap c.out).length

/-- `map`: where a label is in the new code. -/
def map (l : Nat) : Nat := c.newIndex (c.labelAt l)

end Finish

end Compiler

/-- `Chunk`, as far as the steps are concerned: `code`, `rest` and `stop_to` are one list. -/
structure Chunk where
  code : List Compiler.Placed
  paths : List Nat

/-- `finish`, behind its first two lines. -/
def Compiler.assemble (c : Compiler) : Chunk where
  code := ((List.range c.size).flatMap c.out).map fun p =>
    { ins := p.ins.retarget c.map, rest := p.rest, stopTo := p.stopTo.map c.map }
  paths := c.paths.map c.map

def Compiler.finish (c : Compiler) : Chunk := c.closed.assemble

/-! ## Running -/

/-- The counter of steps, a `u64` whose sums wrap. -/
abbrev Count := BitVec 64

/-- `Control`, without its values. -/
inductive Control where
  | give
  | stop
  | error

/-- How an instruction ends. -/
inductive Outcome where
  | next
  | jump
  | leave (c : Control)

/-- What is seen of an instruction: how it ends and, where it gave control to the reference or to a
task, what these saw of the counter and how many steps they took. -/
structure Event where
  outcome : Outcome
  run : Option (Count × Count)

/-- Before an instruction, or behind the end. -/
inductive State where
  | before (pc : Nat) (steps : Count)
  | left (c : Control) (steps : Count)

/-- How an instruction can end, having given control to others or not. -/
def Ins.May (ins : Ins) (o : Outcome) (ran : Bool) : Prop :=
  match ins with
  | .steps _ | .nop => False
  | .stepsCancel _ | .checkCancel | .plain => o ≠ .jump ∧ ran = false
  | .jump _ | .eachStep _ | .eachStepV _ => o = .jump ∧ ran = false
  | .loopBack _ => o ≠ .next
  | .jumpIfFalsy _ | .eachNext _ | .eachNextV _ | .isRange _ => ran = false
  | .matchArm _ => True
  -- the path of the reference is tried, and does not apply, is taken or fails
  | .tryInPlace _ => ran = false → o = .next
  -- the path is gone by the machine, or by the reference to its end
  | .pathRoot _ => o = .next ↔ ran = false
  | .setPath | .eachInit | .exec | .call | .callBuiltin | .callNative | .define => o ≠ .jump
  | .give | .stopOut | .end_ => (∃ c, o = .leave c) ∧ ran = false

/-- It takes back what the block counted ahead while the reference runs. -/
def Ins.discounts : Ins → Bool
  | .tryInPlace _ | .pathRoot _ => true
  | _ => false

namespace Compiler

/-- Where the body goes on before its steps are put in blocks. -/
def goto (c : Compiler) (k : Nat) (s : Slot) (steps : Count) : Outcome → State
  | .next => .before (k + 1) steps
  | .jump => .before (c.labelAt ((c.target s.ins).getD 0)) steps
  | .leave r =>
    match r, s.stopOf with
    | .stop, some l => .before (c.labelAt l) steps
    | _, _ => .left r steps

/-- The body before its steps are put in blocks: each instruction counts its own weight. -/
inductive Step (c : Compiler) : State → Option Event → State → Prop
  | nop {k : Nat} {t : Count} {s : Slot} (hs : c.slots[k]? = some s) (hnop : s.ins = .nop) :
      Step c (.before k t) none (.before (k + 1) (t + s.weight))
  | ins {k : Nat} {t : Count} {s : Slot} {o : Outcome} (hs : c.slots[k]? = some s)
      (hmay : s.ins.May o false) :
      Step c (.before k t) (some ⟨o, none⟩) (c.goto k s (t + s.weight) o)
  | run {k : Nat} {t : Count} {s : Slot} {o : Outcome} (hs : c.slots[k]? = some s)
      (hmay : s.ins.May o true) (r : Count) :
      Step c (.before k t) (some ⟨o, some (t + s.weight, r)⟩) (c.goto k s (t + s.weight + r) o)

end Compiler

namespace Chunk

open Compiler (Placed)

/-- Where the loop of `run_chunk_from` goes on. -/
def goto (ch : Chunk) (pc : Nat) (p : Placed) (steps : Count) : Outcome → State
  | .next => .before (pc + 1) steps
  | .jump => .before ((p.ins.target ch.paths).getD 0) steps
  | .leave r =>
    match r, p.stopTo with
    | .stop, some t => .before t steps
    | _, _ => .left r steps

/-- `StepsCancel` counts before it checks. -/
def entry (p : Placed) (steps : Count) : Count :=
  match p.ins with
  | .stepsCancel w => steps + w
  | _ => steps

/-- `pending`: what is taken back while the reference runs. -/
def pending (p : Placed) : Count := if p.ins.discounts then p.rest else 0

/-- The counter behind an instruction that gave control to nobody: what fails takes back the rest of
its block. -/
def quiet (p : Placed) (steps : Count) : Outcome → Count
  | .next | .jump => steps
  | .leave _ => steps - p.rest

/-- The counter behind an instruction that gave control to others, which took some steps. -/
def ran (p : Placed) (steps r : Count) : Outcome → Count
  | .next => steps - pending p + r + pending p
  | .jump => steps - pending p + r
  | .leave _ => steps - pending p + r + pending p - p.rest

/-- The loop of `run_chunk_from`, in one body. -/
inductive Step (ch : Chunk) : State → Option Event → State → Prop
  | steps {pc : Nat} {s : Count} {p : Placed} {w : Nat} (hp : ch.code[pc]? = some p)
      (hsteps : p.ins = .steps w) :
      Step ch (.before pc s) none (.before (pc + 1) (s + w))
  | nop {pc : Nat} {s : Count} {p : Placed} (hp : ch.code[pc]? = some p) (hnop : p.ins = .nop) :
      Step ch (.before pc s) none (.before (pc + 1) s)
  | ins {pc : Nat} {s : Count} {p : Placed} {o : Outcome} (hp : ch.code[pc]? = some p)
      (hmay : p.ins.May o false) :
      Step ch (.before pc s) (some ⟨o, none⟩) (ch.goto pc p (quiet p (entry p s) o) o)
  | run {pc : Nat} {s : Count} {p : Placed} {o : Outcome} (hp : ch.code[pc]? = some p)
      (hmay : p.ins.May o true) (r : Count) :
      Step ch (.before pc s) (some ⟨o, some (s - pending p, r)⟩) (ch.goto pc p (ran p s r o) o)

end Chunk

end Synsema.Vm
