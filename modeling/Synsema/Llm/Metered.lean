import Synsema.Lib.Census
import Synsema.Lib.OrderedMap
import Synsema.Text

/-!
# Token budgets

`MeteredProvider` (`synsema-runtime/src/llm_providers.rs`): a call takes a slot if there is a budget,
looks at the counters against the budgets, calls the provider inside, and adds what that used to the
counters.  A step is one access of a thread to what the threads share, or something a thread does by
itself: the callback of a stream may call again, and change the identity the thread works for.

The counters are of 64 bits.  What was added to them, and how much had been when a call looked at
them, is history.
-/

namespace Synsema.Llm

open Text Census

/-- How many values a counter has. -/
def counterSize : Nat := 2 ^ 64

/-- `MeteredProvider`, as far as its budgets go. -/
structure MeteredProvider where
  budget : Option Nat
  perIdentity : OrderedMap Text Nat

/-- Where a call is. -/
inductive Stage where
  /-- It is to get a slot, if it needs one. -/
  | start
  /-- It waits for a slot. -/
  | waiting
  /-- It is to look at the process counter. -/
  | process
  /-- It is to look at the counter of the identity, against the budget of the host. -/
  | host
  /-- And against the delegated one. -/
  | delegated
  /-- It has called the provider inside. -/
  | calling
  /-- The provider inside has used tokens, which are to be added. -/
  | returned (tokens : Nat)
  /-- They are in the process counter. -/
  | charged (tokens : Nat)
  /-- They are in that of the identity. -/
  | done
  /-- It has no slot, or no budget left: it hands out a text that says so. -/
  | marker
  deriving DecidableEq

/-- What a call found when it looked: how many calls had been charged, to the process and to the
identities, and for whom it was made. -/
structure Check where
  process : Nat
  host : Nat
  delegatedAt : Nat
  identity : Option Text
  delegated : Option Nat

/-- A call in progress.  The slot is that of the process, or under one of the same thread. -/
structure Call where
  provider : MeteredProvider
  slot : Option Bool
  stage : Stage
  check : Check

/-- A call whose tokens were added, with the thread-locals at its end. -/
structure Charge where
  provider : MeteredProvider
  check : Check
  identity : Option Text
  delegated : Option Nat
  tokens : Nat

/-- A thread: its calls, the innermost first, and its thread-locals. -/
structure Thread where
  stack : List Call
  /-- `BUDGET_HELD`. -/
  held : Nat
  /-- `CURRENT_LLM_IDENTITY`. -/
  identity : Option Text
  /-- `CURRENT_DELEGATED_LLM_BUDGET`. -/
  delegated : Option Nat

/-- What the threads share. -/
structure Shared where
  /-- `BudgetSlots`. -/
  max : Nat
  used : Nat
  /-- `LLM_TOKENS_USED`. -/
  process : Nat
  /-- `IDENTITY_TOKENS_USED`. -/
  identityUsed : Text → Nat
  charged : List Charge
  billed : List Charge

/-! ## Calls -/

namespace Call

/-- A call that begins. -/
def new (p : MeteredProvider) : Call := ⟨p, none, .start, ⟨0, 0, 0, none, none⟩⟩

/-- The call has a slot. -/
def slotted (c : Call) : Bool := c.slot.isSome

/-- The call goes on. -/
def goes (c : Call) (stage : Stage) : Call := { c with stage }

/-- The call gets a slot. -/
def gets (c : Call) (outer : Bool) : Call := { c with slot := some outer, stage := .process }

/-- Code of the program runs in the call, or may. -/
def Open (c : Call) : Prop := c.stage = .calling ∨ c.stage = .marker

/-- The call may end: with a response, the marker, or as the code in it unwinds. -/
def Ends (c : Call) : Prop := c.stage = .done ∨ c.Open

end Call

namespace Thread

/-- A thread that begins. -/
def new : Thread := ⟨[], 0, none, none⟩

/-- The call on top goes on. -/
def top (th : Thread) (c : Call) (rest : List Call) : Thread := { th with stack := c :: rest }

/-- Code of the program runs. -/
def Free (th : Thread) : Prop := ∀ c rest, th.stack = c :: rest → c.Open

/-- There is a budget to protect: `budget_slot`. -/
def capped (th : Thread) (p : MeteredProvider) : Bool :=
  p.budget.isSome || !p.perIdentity.entries.isEmpty || th.delegated.isSome

/-- The call on top ends, and its slot is dropped. -/
def pop (th : Thread) (c : Call) (rest : List Call) : Thread :=
  { th with stack := rest, held := th.held - c.slotted.toNat }

/-- The call on top got a slot. -/
def takes (th : Thread) (c : Call) (outer : Bool) (rest : List Call) : Thread :=
  { th with stack := c.gets outer :: rest, held := th.held + 1 }

/-- The call on top, as one whose tokens are added. -/
def charge (th : Thread) (c : Call) (tokens : Nat) : Charge :=
  ⟨c.provider, c.check, th.identity, th.delegated, tokens⟩

end Thread

/-- The identity whose counter a call's tokens go to: it has a budget. -/
def Charge.billedTo (c : Charge) : Option Text :=
  c.identity.filter fun id => (c.provider.perIdentity.get? id).isSome || c.delegated.isSome

/-- What of a call's tokens goes to the counter of an identity. -/
def Charge.toIdentity (id : Text) (c : Charge) : Nat :=
  if c.billedTo = some id then c.tokens else 0

namespace Shared

/-- A slot of the process comes back, if the call had it. -/
def drop (g : Shared) (c : Call) : Shared := { g with used := g.used - (c.slot == some true).toNat }

/-- `meter`: the process counter. -/
def charge (g : Shared) (c : Charge) : Shared :=
  { g with process := (g.process + c.tokens) % counterSize, charged := g.charged ++ [c] }

/-- `meter`: the counter of the identity, if a budget of it applies. -/
def bill (g : Shared) (c : Charge) : Shared :=
  { g with
    identityUsed := match c.billedTo with
      | some id =>
        Function.update g.identityUsed id ((g.identityUsed id + c.tokens) % counterSize)
      | none => g.identityUsed
    billed := g.billed ++ [c] }

end Shared

/-! ## Steps -/

/-- What a thread does, and what that does to what is shared. -/
inductive Move : Shared → Thread → Shared → Thread → Prop where
  /-- `delegation_scope`, or the end of one. -/
  | scope {g : Shared} {th : Thread} (h : th.Free) (identity : Option Text)
      (delegated : Option Nat) : Move g th g { th with identity, delegated }
  | call {g : Shared} {th : Thread} (h : th.Free) (p : MeteredProvider) :
      Move g th g (th.top (.new p) th.stack)
  /-- `budget_slot`: there is no budget. -/
  | uncapped {g : Shared} {th : Thread} {c : Call} {rest : List Call} (h : th.stack = c :: rest)
      (hs : c.stage = .start) (hc : th.capped c.provider = false) :
      Move g th g (th.top (c.goes .process) rest)
  /-- `acquire`, under a call of the thread that has a slot. -/
  | nested {g : Shared} {th : Thread} {c : Call} {rest : List Call} (h : th.stack = c :: rest)
      (hs : c.stage = .start) (hc : th.capped c.provider = true) (hheld : 0 < th.held) :
      Move g th g (th.takes c false rest)
  | wait {g : Shared} {th : Thread} {c : Call} {rest : List Call} (h : th.stack = c :: rest)
      (hs : c.stage = .start) (hc : th.capped c.provider = true) (hheld : th.held = 0) :
      Move g th g (th.top (c.goes .waiting) rest)
  /-- `acquire`, of a slot of the process. -/
  | acquire {g : Shared} {th : Thread} {c : Call} {rest : List Call} (h : th.stack = c :: rest)
      (hs : c.stage = .waiting) (hused : g.used < g.max) :
      Move g th { g with used := g.used + 1 } ({ th with held := 0 }.takes c true rest)
  /-- `acquire`, after its time or cancelled. -/
  | refuse {g : Shared} {th : Thread} {c : Call} {rest : List Call} (h : th.stack = c :: rest)
      (hs : c.stage = .waiting) (hused : g.max ≤ g.used) :
      Move g th g (th.top (c.goes .marker) rest)
  /-- `over_budget`: the budget of the process. -/
  | cutProcess {g : Shared} {th : Thread} {c : Call} {rest : List Call} (h : th.stack = c :: rest)
      (hs : c.stage = .process) {budget : Nat} (hb : c.provider.budget = some budget)
      (hover : budget ≤ g.process) : Move g th g (th.top (c.goes .marker) rest)
  | passProcess {g : Shared} {th : Thread} {c : Call} {rest : List Call} (h : th.stack = c :: rest)
      (hs : c.stage = .process) (hunder : ∀ budget, c.provider.budget = some budget →
        g.process < budget) :
      Move g th g (th.top { c with
        stage := .host
        check := { c.check with
          process := g.charged.length
          identity := th.identity
          delegated := th.delegated } } rest)
  /-- `over_budget`: the budget of the host for the identity. -/
  | cutHost {g : Shared} {th : Thread} {c : Call} {rest : List Call} (h : th.stack = c :: rest)
      (hs : c.stage = .host) {id : Text} {limit : Nat} (hid : th.identity = some id)
      (hb : c.provider.perIdentity.get? id = some limit) (hover : limit ≤ g.identityUsed id) :
      Move g th g (th.top (c.goes .marker) rest)
  | passHost {g : Shared} {th : Thread} {c : Call} {rest : List Call} (h : th.stack = c :: rest)
      (hs : c.stage = .host) (hunder : ∀ id limit, th.identity = some id →
        c.provider.perIdentity.get? id = some limit → g.identityUsed id < limit) :
      Move g th g (th.top { c with
        stage := .delegated
        check := { c.check with host := g.billed.length } } rest)
  /-- `over_budget`: the delegated budget. -/
  | cutDelegated {g : Shared} {th : Thread} {c : Call} {rest : List Call}
      (h : th.stack = c :: rest) (hs : c.stage = .delegated) {id : Text} {limit : Nat}
      (hid : th.identity = some id) (hb : th.delegated = some limit)
      (hover : limit ≤ g.identityUsed id) : Move g th g (th.top (c.goes .marker) rest)
  | passDelegated {g : Shared} {th : Thread} {c : Call} {rest : List Call}
      (h : th.stack = c :: rest) (hs : c.stage = .delegated)
      (hunder : ∀ id limit, th.identity = some id → th.delegated = some limit →
        g.identityUsed id < limit) :
      Move g th g (th.top { c with
        stage := .calling
        check := { c.check with delegatedAt := g.billed.length } } rest)
  /-- The provider inside returns. -/
  | returns {g : Shared} {th : Thread} {c : Call} {rest : List Call} (h : th.stack = c :: rest)
      (hs : c.stage = .calling) {tokens : Nat} (htokens : tokens < counterSize) :
      Move g th g (th.top (c.goes (.returned tokens)) rest)
  | charge {g : Shared} {th : Thread} {c : Call} {rest : List Call} (h : th.stack = c :: rest)
      {tokens : Nat} (hs : c.stage = .returned tokens) :
      Move g th (g.charge (th.charge c tokens)) (th.top (c.goes (.charged tokens)) rest)
  | bill {g : Shared} {th : Thread} {c : Call} {rest : List Call} (h : th.stack = c :: rest)
      {tokens : Nat} (hs : c.stage = .charged tokens) :
      Move g th (g.bill (th.charge c tokens)) (th.top (c.goes .done) rest)
  /-- The call ends, or unwinds. -/
  | pop {g : Shared} {th : Thread} {c : Call} {rest : List Call} (h : th.stack = c :: rest)
      (hs : c.Ends) : Move g th (g.drop c) (th.pop c rest)

/-- The process: its threads, and what they share. -/
structure Process where
  shared : Shared
  threads : List Thread

/-- A process in which nothing was called yet. -/
def Process.new (max : Nat) : Process := ⟨⟨max, 0, 0, fun _ => 0, [], []⟩, []⟩

inductive Process.Step : Process → Process → Prop where
  | spawn (s : Process) : Step s { s with threads := s.threads ++ [.new] }
  | move {s : Process} {i : Nat} {th th' : Thread} {g' : Shared} (hi : s.threads[i]? = some th)
      (h : Move s.shared th g' th') : Step s ⟨g', s.threads.set i th'⟩

/-- The states that are reached. -/
inductive Process.Reached (max : Nat) : Process → Prop where
  | new : Reached max (.new max)
  | step {s t : Process} (h : Reached max s) (hstep : Step s t) : Reached max t

end Synsema.Llm
