import Synsema.Jit.Ir
import Synsema.Lib.Shrink

/-!
# The checkers of generated code

`check_memory` and `check_pointers` of `synsema-jit/src/lower.rs`.

`check_memory` looks at the definition of each address: a parameter, what was loaded from the
context, or a stack slot.  `check_pointers` starts from the values that are pointers by their
definition and adds the parameters of blocks and the `select`s into which nothing but pointers
comes.
-/

namespace Synsema.Jit

/-! ## `check_memory` -/

section Memory

variable (F : Func) (entryFn : Bool)

def isParam (v : Value) : Bool :=
  decide (F.entryParams[0]? = some v) || (entryFn && decide (F.entryParams[1]? = some v))

/-- `is_ctx_ptr`: what was loaded from the context. -/
def isCtxPtr (v : Value) : Bool :=
  match F.valueDef v with
  | .result i _ =>
    match F.data i with
    | .load .load arg _ _ => decide (F.entryParams[0]? = some arg)
    | _ => false
  | .param .. => false

/-- `is_stack`: the address of an own slot. -/
def isStack (v : Value) : Bool :=
  match F.valueDef v with
  | .result i _ =>
    match F.data i with
    | .stackAddr .. => true
    | _ => false
  | .param .. => false

/-- Is an instruction allowed? -/
def memoryOk : InstData → Bool
  | .load _ arg _ _ => isParam F entryFn arg || isCtxPtr F arg || isStack F arg
  | .store _ address _ _ =>
    decide (F.entryParams[0]? = some address) || isCtxPtr F address || isStack F address
  | .other op _ => !(op.canLoad || op.canStore || op.isCall)
  | .iconst _ | .stackAddr .. | .call .. | .bitcast _ | .select .. | .branch .. => true

def checkMemory : Bool :=
  F.blocks.head?.isSome && F.allInsts.all fun i => memoryOk F entryFn (F.data i)

end Memory

/-! ## `check_pointers` -/

section Pointers

variable (F : Func) (h : Helpers) (ptrParams : List Nat) (ptrSlots execPtrSlots : List StackSlot)

/-- Is the value the address of one of these slots? -/
def isSlotOf (slots : List StackSlot) (v : Value) : Bool :=
  match F.valueDef v with
  | .result i _ =>
    match F.data i with
    | .stackAddr s _ => decide (s ∈ slots)
    | _ => false
  | .param .. => false

/-- The definitions that are pointers by themselves. -/
def definesPointer : InstData → Bool
  | .iconst imm => decide (imm = 0)
  | .load .load arg offset _ =>
    (decide (F.entryParams[0]? = some (F.resolve arg)) && decide (offset = offOutPtr)) ||
      isSlotOf F execPtrSlots (F.resolve arg)
  | .call f _ => (h.pointerArgs f).any (·.2)
  | _ => false

/-- `ok_vals`, before the parameters of blocks. -/
def pointerDefs : List Value :=
  ptrParams.filterMap (fun k => F.entryParams[k]?) ++
    F.allInsts.filterMap fun i =>
      if definesPointer F h execPtrSlots (F.data i) then (F.results i).head? else none

/-- What comes into the parameters of blocks: each parameter with a value. -/
def edges : List (Value × Value) :=
  F.allInsts.flatMap fun i =>
    match F.data i with
    | .branch _ dests => dests.flatMap fun d => (F.params d.1).zip (d.2.map F.resolve)
    | _ => []

/-- The `select`s, with what they choose from. -/
def selects : List (Value × List Value) :=
  F.allInsts.filterMap fun i =>
    match F.data i with
    | .select _ x y => (F.results i).head?.map fun v => (v, [F.resolve x, F.resolve y])
    | _ => none

/-- `incoming`, of a value. -/
def incoming (v : Value) : List Value :=
  match (selects F).lookup v with
  | some vs => vs
  | none => (edges F).filterMap fun e => if e.1 = v then some e.2 else none

/-- `incoming.keys()`. -/
def candidates : List Value := ((edges F).map Prod.fst ++ (selects F).map Prod.fst).dedup

/-- A candidate is kept when nothing but pointers and candidates comes into it. -/
def keepsPointer (ok cand : List Value) (p : Value) : Bool :=
  (incoming F p).all fun v => decide (v ∈ ok) || decide (v ∈ cand)

def okVals : List Value :=
  let ok := pointerDefs F h ptrParams execPtrSlots
  ok ++ Shrink.shrink (keepsPointer F ok) (candidates F).length (candidates F)

/-- Is an instruction allowed? -/
def pointersOk (ok : List Value) : InstData → Bool
  | .call f args =>
    match h.pointerArgs f with
    | none => true
    | some (positions, _) => positions.all fun k => args[k]?.any fun a => decide (F.resolve a ∈ ok)
  | .store x address _ _ =>
    !(isSlotOf F (ptrSlots ++ execPtrSlots) (F.resolve address)) || decide (F.resolve x ∈ ok)
  | _ => true

/-- Does a function call anything that takes pointers? -/
def readsPointers : Bool :=
  F.allInsts.any fun i =>
    match F.data i with
    | .call f _ => (h.pointerArgs f).isSome
    | _ => false

def checkPointers : Bool :=
  F.blocks.head?.isSome &&
    ((!readsPointers F h && ptrSlots.isEmpty && ptrParams.isEmpty && execPtrSlots.isEmpty) ||
      F.allInsts.all fun i =>
        pointersOk F h ptrSlots execPtrSlots (okVals F h ptrParams execPtrSlots) (F.data i))

end Pointers

end Synsema.Jit
