import Mathlib.Data.BitVec

/-!
# Functions of the code generator and their runs

A function in Cranelift's representation, as far as the checkers of `synsema-jit/src/lower.rs` look
at it, and its runs.

A word of a run carries where it comes from: a parameter, the address of a stack slot, the address
of the cancellation flag, what a helper returned, and so on.  The words of the context are kept by
their offsets, each with where it comes from, so that what is read back from the context is known to
be what was left there; what is read from anywhere else may be any word.  A run may take any branch.
-/

namespace Synsema.Jit

abbrev Value := Nat
abbrev Block := Nat
abbrev Inst := Nat
abbrev StackSlot := Nat
abbrev FuncRef := Nat

/-! ## The representation -/

/-- `ValueDef`: where a value is defined. -/
inductive ValueDef where
  | result (inst : Inst) (num : Nat)
  | param (block : Block) (num : Nat)
deriving DecidableEq

/-- The opcodes that load. -/
inductive LoadOp where
  | load
  | uload8
  | atomicLoad
deriving DecidableEq

/-- What Cranelift says of any other opcode. -/
structure Opcode where
  canLoad : Bool
  canStore : Bool
  isCall : Bool

/-- `InstructionData`. -/
inductive InstData where
  | iconst (imm : Int)
  | load (op : LoadOp) (arg : Value) (offset : Int) (bytes : Nat)
  | store (value address : Value) (offset : Int) (bytes : Nat)
  | stackAddr (slot : StackSlot) (offset : Int)
  | call (func : FuncRef) (args : List Value)
  | bitcast (arg : Value)
  | select (cond x y : Value)
  /-- `jump`, `brif` and `br_table`: the operands, and the blocks with what their parameters get. -/
  | branch (args : List Value) (dests : List (Block × List Value))
  | other (op : Opcode) (args : List Value)

/-- `Function`: the layout and the data-flow graph, with what holds of every graph that the frontend
builds. -/
structure Func where
  /-- `layout.blocks()`, the entry block first. -/
  blocks : List Block
  /-- `dfg.block_params`. -/
  params : Block → List Value
  /-- `layout.block_insts`. -/
  insts : Block → List Inst
  /-- `dfg.insts`. -/
  data : Inst → InstData
  /-- `dfg.inst_results`. -/
  results : Inst → List Value
  /-- `dfg.resolve_aliases`. -/
  resolve : Value → Value
  /-- `dfg.value_def`, which resolves aliases. -/
  valueDef : Value → ValueDef
  valueDef_result : ∀ i k v, (results i)[k]? = some v → valueDef v = .result i k
  valueDef_param : ∀ b k v, (params b)[k]? = some v → valueDef v = .param b k
  valueDef_resolve : ∀ v, valueDef (resolve v) = valueDef v
  resolve_param : ∀ b, ∀ v ∈ params b, resolve v = v
  resolve_result : ∀ i, ∀ v ∈ results i, resolve v = v
  /-- The blocks that are branched to are in the layout, and none is the entry block. -/
  dest_mem : ∀ i args dests, data i = .branch args dests → ∀ d ∈ dests, d.1 ∈ blocks.tail
  blocks_nodup : blocks.Nodup

namespace Func

variable (F : Func)

/-- The parameters of `layout.entry_block()`. -/
def entryParams : List Value := (F.blocks.head?.map F.params).getD []

/-- The instructions of all blocks. -/
def allInsts : List Inst := F.blocks.flatMap F.insts

end Func

/-! ## The functions of `abi` -/

structure HostFns where
  exec : FuncRef
  home : FuncRef

structure Writes where
  home : FuncRef
  homeLocal : FuncRef
  pathRoot : FuncRef
  pathStep : FuncRef
  pathSet : FuncRef
  append : FuncRef

structure Reads where
  index : FuncRef
  prop : FuncRef
  listBody : FuncRef
  listElem : FuncRef
  truthy : FuncRef
  length : FuncRef
  get : FuncRef
  konst : FuncRef

structure Helpers where
  deopt : FuncRef
  reads : Option Reads
  writes : Option Writes
  host : Option HostFns

namespace Helpers

/-- What `pointer_args` has of the host's functions. -/
def hostArgs (h : HostFns) (f : FuncRef) : Option (List Nat × Bool) :=
  if f = h.home then some ([2], true)
  else if f = h.exec then some ([], false)
  else none

/-- What `pointer_args` has of the functions that write. -/
def writeArgs (w : Writes) (f : FuncRef) : Option (List Nat × Bool) :=
  if f = w.home ∨ f = w.homeLocal then some ([1, 2], true)
  else if f = w.pathRoot then some ([1], false)
  else if f = w.pathStep then some ([1, 4], true)
  else if f = w.pathSet then some ([1, 4, 8], false)
  else if f = w.append then some ([1, 2, 5], false)
  else none

/-- What `pointer_args` has of the functions that read. -/
def readArgs (r : Reads) (f : FuncRef) : Option (List Nat × Bool) :=
  if f = r.index then some ([1, 4], false)
  else if f = r.prop ∨ f = r.truthy ∨ f = r.length then some ([1], false)
  else if f = r.listBody then some ([1], true)
  else if f = r.listElem then some ([1], false)
  else if f = r.get then some ([1, 4], false)
  else if f = r.konst then some ([], false)
  else none

/-- `Helpers::pointer_args`: the arguments that are pointers, and whether a pointer is returned. -/
def pointerArgs (h : Helpers) (f : FuncRef) : Option (List Nat × Bool) :=
  ((h.host.bind fun x => hostArgs x f).or (h.writes.bind fun w => writeArgs w f)).or
    (h.reads.bind fun r => readArgs r f)

end Helpers

/-! ## Words -/

/-- Where a word comes from. -/
inductive Origin where
  /-- A parameter of the entry block: the first is the context. -/
  | param (k : Nat)
  /-- So many bytes into a stack slot. -/
  | slot (s : StackSlot) (offset : Int)
  /-- The address of the cancellation flag. -/
  | cancelFlag
  /-- The constant 0. -/
  | zero
  /-- The pointer that a helper returned. -/
  | returned (f : FuncRef)
  /-- What stood at `OFF_OUT_PTR` of the context. -/
  | outPtr
  /-- What stood in a buffer of pointers of the host. -/
  | hostBuffer (s : StackSlot)
  /-- A value of the program, or what was computed. -/
  | value
deriving DecidableEq

/-- A word of a run. -/
structure Word where
  bits : BitVec 64
  origin : Origin

/-- What is known of a unit's function: the functions of `abi`, whether the function is the entry
from Rust, its parameters and slots that are pointers, and the sizes of its slots and of the entry's
argument array. -/
structure Setting where
  helpers : Helpers
  entryFn : Bool
  ptrParams : List Nat
  ptrSlots : List StackSlot
  execPtrSlots : List StackSlot
  slotBytes : StackSlot → Int
  argvBytes : Int

/-! ## The context -/

/-- `OFF_CANCEL`: where the context has the address of the cancellation flag. -/
def offCancel : Int := 16

def offOutBits : Int := 40

def offOutPtr : Int := 48

/-- The size of `Ctx`. -/
def ctxBytes : Int := 120

/-- The size of the cancellation flag. -/
def flagBytes : Int := 1

/-! ## Runs -/

/-- The state of a run: the values that are defined, the words of the context by their offsets, and
the instructions up to the end of the block. -/
structure State where
  env : Value → Option Word
  ctx : Int → Word
  rest : List Inst

/-- What a step does that the checkers are about. -/
inductive Event where
  /-- A load or a store, at an offset from an address. -/
  | access (store : Bool) (base : Word) (offset : Int) (bytes : Nat)
  /-- A pointer that a helper gets, or that is left in a slot of pointers. -/
  | hands (pointer : Word)

/-- The values get words. -/
def setAll (env : Value → Option Word) (vs : List Value) (ws : List Word) : Value → Option Word :=
  fun v => ((vs.zip ws).lookup v).or (env v)

/-- A word that a load may give: of the context what stands there, of a buffer of pointers of the
host what the host left. -/
structure Loaded (U : Setting) (ctx : Int → Word) (base : Word) (offset : Int) (bytes : Nat) (w : Word) :
    Prop where
  bits : base.origin = .param 0 → bytes = 8 → w.bits = (ctx offset).bits
  origin : base.origin = .param 0 → bytes = 8 → offset ≠ offOutPtr → w.origin = (ctx offset).origin
  outPtr : base.origin = .param 0 → offset = offOutPtr → w.origin = .outPtr
  hostBuffer : ∀ s o, base.origin = .slot s o → s ∈ U.execPtrSlots → w.origin = .hostBuffer s

/-- The bytes are in the cancellation flag or in an own stack slot. -/
def Elsewhere (U : Setting) (base : Word) (offset : Int) (bytes : Nat) : Prop :=
  match base.origin with
  | .cancelFlag => 0 ≤ offset ∧ offset + bytes ≤ flagBytes
  | .slot s o => 0 ≤ o + offset ∧ o + offset + bytes ≤ U.slotBytes s
  | _ => False

/-- What a store may make of the context: a word that does not overlap the bytes stays, and nothing
changes when the bytes are elsewhere. -/
structure Stored (U : Setting) (ctx : Int → Word) (base : Word) (offset : Int) (bytes : Nat) (w : Word)
    (ctx' : Int → Word) : Prop where
  keeps : base.origin = .param 0 → ∀ o, o + 8 ≤ offset ∨ offset + bytes ≤ o → ctx' o = ctx o
  sets : base.origin = .param 0 → bytes = 8 → ctx' offset = w
  elsewhere : Elsewhere U base offset bytes → ctx' = ctx

/-- The pointers among the arguments of a call. -/
def handed (U : Setting) (f : FuncRef) (ws : List Word) : List Event :=
  match U.helpers.pointerArgs f with
  | none => []
  | some (positions, _) => positions.filterMap fun k => ws[k]?.map .hands

/-- A slot of pointers. -/
def isPtrSlot (U : Setting) : Origin → Bool
  | .slot s _ => decide (s ∈ U.ptrSlots) || decide (s ∈ U.execPtrSlots)
  | _ => false

/-- Where the result of a call comes from. -/
def returnedFrom (U : Setting) (f : FuncRef) (k : Nat) : Origin :=
  if k = 0 ∧ (U.helpers.pointerArgs f).any (·.2) then .returned f else .value

/-- A step of a run. -/
inductive Step (F : Func) (U : Setting) : State → Inst → List Event → State → Prop where
  | iconst {env ctx rest i imm} (h : F.data i = .iconst imm) :
      Step F U ⟨env, ctx, i :: rest⟩ i []
        ⟨setAll env (F.results i)
          [⟨BitVec.ofInt 64 imm, if imm = 0 then .zero else .value⟩], ctx, rest⟩
  | load {env ctx rest i op arg offset bytes base w} (h : F.data i = .load op arg offset bytes)
      (hbase : env (F.resolve arg) = some base) (hw : Loaded U ctx base offset bytes w) :
      Step F U ⟨env, ctx, i :: rest⟩ i [.access false base offset bytes]
        ⟨setAll env (F.results i) [w], ctx, rest⟩
  | store {env ctx ctx' rest i x address offset bytes base w}
      (h : F.data i = .store x address offset bytes) (hx : env (F.resolve x) = some w)
      (hbase : env (F.resolve address) = some base) (hctx : Stored U ctx base offset bytes w ctx') :
      Step F U ⟨env, ctx, i :: rest⟩ i
        (.access true base offset bytes :: if isPtrSlot U base.origin then [.hands w] else [])
        ⟨env, ctx', rest⟩
  | stackAddr {env ctx rest i s offset bits} (h : F.data i = .stackAddr s offset) :
      Step F U ⟨env, ctx, i :: rest⟩ i []
        ⟨setAll env (F.results i) [⟨bits, .slot s offset⟩], ctx, rest⟩
  | call {env ctx ctx' rest i f args ws rs} (h : F.data i = .call f args)
      (hargs : args.mapM (fun a => env (F.resolve a)) = some ws)
      (hrs : ∀ k r, rs[k]? = some r → r.origin = returnedFrom U f k) :
      Step F U ⟨env, ctx, i :: rest⟩ i (handed U f ws) ⟨setAll env (F.results i) rs, ctx', rest⟩
  | bitcast {env ctx rest i arg rs} (h : F.data i = .bitcast arg)
      (hrs : ∀ r ∈ rs, r.origin = .value) :
      Step F U ⟨env, ctx, i :: rest⟩ i [] ⟨setAll env (F.results i) rs, ctx, rest⟩
  | select {env ctx rest i c x y a b w} (h : F.data i = .select c x y)
      (hx : env (F.resolve x) = some a) (hy : env (F.resolve y) = some b) (hw : w = a ∨ w = b) :
      Step F U ⟨env, ctx, i :: rest⟩ i [] ⟨setAll env (F.results i) [w], ctx, rest⟩
  | branch {env ctx rest i args dests b vs ws} (h : F.data i = .branch args dests)
      (hb : (b, vs) ∈ dests) (hvs : vs.mapM (fun a => env (F.resolve a)) = some ws) :
      Step F U ⟨env, ctx, i :: rest⟩ i [] ⟨setAll env (F.params b) ws, ctx, F.insts b⟩
  | other {env ctx rest i op args rs} (h : F.data i = .other op args)
      (hpure : op.canLoad = false ∧ op.canStore = false ∧ op.isCall = false)
      (hrs : ∀ r ∈ rs, r.origin = .value) :
      Step F U ⟨env, ctx, i :: rest⟩ i [] ⟨setAll env (F.results i) rs, ctx, rest⟩

/-- Where a run starts: the parameters have words, and the context has the address of the
cancellation flag. -/
structure Start (F : Func) (s : State) : Prop where
  env : ∀ v w, s.env v = some w → ∃ k, F.entryParams[k]? = some v ∧ w.origin = .param k
  ctx : (s.ctx offCancel).origin = .cancelFlag
  rest : ∃ b, F.blocks.head? = some b ∧ s.rest = F.insts b

/-- A step as it was taken. -/
structure Turn where
  before : State
  inst : Inst
  events : List Event
  after : State

/-- A run, by its turns. -/
inductive Run (F : Func) (U : Setting) : State → List Turn → State → Prop where
  | nil (s : State) : Run F U s [] s
  | cons {s s' s'' : State} {i : Inst} {events : List Event} {turns : List Turn}
      (hstep : Step F U s i events s') (hrun : Run F U s' turns s'') :
      Run F U s (⟨s, i, events, s'⟩ :: turns) s''

/-! ## Safety -/

/-- An access that stays in the context, in the cancellation flag, in an own stack slot or, a load
of the entry, in the argument array. -/
def SafeAccess (U : Setting) (store : Bool) (base : Word) (offset : Int) (bytes : Nat) : Prop :=
  match base.origin with
  | .param k =>
    (k = 0 ∧ 0 ≤ offset ∧ offset + bytes ≤ ctxBytes) ∨
      (k = 1 ∧ U.entryFn = true ∧ store = false ∧ 0 ≤ offset ∧ offset + bytes ≤ U.argvBytes)
  | _ => Elsewhere U base offset bytes

/-- The origins of pointers. -/
def IsPointer (U : Setting) : Origin → Prop
  | .zero | .returned _ | .outPtr | .hostBuffer _ => True
  | .param k => k ∈ U.ptrParams
  | _ => False

/-- What a checked function may do. -/
def Event.Safe (U : Setting) : Event → Prop
  | .access store base offset bytes => SafeAccess U store base offset bytes
  | .hands pointer => IsPointer U pointer.origin

end Synsema.Jit
