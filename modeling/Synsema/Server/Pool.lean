import Synsema.Lib.Census
import Synsema.Server.Waiting

/-!
# The elastic pool of the interpreter

`InterpreterPool` (`synsema-stdlib/src/server.rs`): permits to run, fixed threads that wait at the
queue, and extra threads that are created while others wait and retire when the queue is empty.

A step is what one thread does at once: what it does while it has the state locked, or one operation
on the receiver, on the channel or on the creation of a thread.  Threads that submit are members too.
A fixed thread has been created when the runs begin, and the sender is never dropped: the pool is a
static of the process.
-/

namespace Synsema.Server

open Census

/-- What the pool is created with (`interp_pool`). -/
structure PoolConfig where
  workers : Nat
  maxWaiting : Nat
  pos : 0 < workers

def PoolConfig.maxThreads (c : PoolConfig) : Nat := c.workers + c.maxWaiting

/-- What the threads share under the lock of the state. -/
structure PoolState where
  permits : Int
  threads : Nat
  idle : Nat
  starting : Nat
  waiting : Nat
  queued : Nat

namespace PoolState

def needsThread (c : PoolConfig) (st : PoolState) : Bool :=
  st.idle + st.starting < st.queued && 0 < st.waiting && 0 < st.permits &&
    st.threads < c.maxThreads

def reserveExtra (c : PoolConfig) (st : PoolState) : PoolState × Bool :=
  if st.needsThread c then
    ({ st with threads := st.threads + 1, starting := st.starting + 1 }, true)
  else (st, false)

/-- What the hooks do to the state: `on_wait`, `lend_permit` and `LentPermit::drop`; and is a thread
to be created? -/
def hooked (c : PoolConfig) (st : PoolState) : Hook → PoolState × Bool
  | .quiet => (st, false)
  | .waits => reserveExtra c { st with waiting := st.waiting + 1, permits := st.permits + 1 }
  | .back => ({ st with waiting := st.waiting - 1, permits := st.permits - 1 }, false)
  | .lends => ({ st with permits := st.permits + 1 }, false)
  | .unlends => ({ st with permits := st.permits - 1 }, false)

/-- The creation of a thread failed. -/
def uncreated (st : PoolState) : PoolState :=
  { st with threads := st.threads - 1, starting := st.starting - 1 }

end PoolState

/-- A job that runs.  `back` is history: has it taken its permit back, on credit? -/
structure PoolJob where
  id : Nat
  sections : Sections
  panicking : Bool
  back : Bool

/-- What a thread is about to do. -/
inductive PoolPhase where
  /-- Send a job it has counted in `queued`; it is to create a thread then, or it is not. -/
  | sending (j : Nat) (grow : Bool)
  /-- Create an extra thread. -/
  | growing
  /-- Count itself idle. -/
  | arriving
  /-- Lock the receiver. -/
  | locking
  /-- Receive a job, with the receiver locked. -/
  | receiving
  /-- Count itself no longer idle. -/
  | leaving (j : Nat)
  /-- Count itself started. -/
  | starting
  /-- Try to lock the receiver. -/
  | polling
  /-- Try to receive a job, with the receiver locked. -/
  | peeking
  /-- Look at `queued`: it came away from the receiver with nothing. -/
  | checking
  /-- Take its job off `queued`, and a permit. -/
  | counting (j : Nat)
  /-- Nothing: it sleeps on the condition variable. -/
  | sleeping (j : Nat)
  /-- Take a permit: it has been woken. -/
  | woken (j : Nat)
  /-- Run its job; it is to create a thread first, or it is not. -/
  | running (job : PoolJob) (grow : Bool)
  /-- Give the permit back: the job has ended.  `back` is history. -/
  | returning (back : Bool)
  /-- Nothing: it is gone. -/
  | gone

inductive ThreadKind where
  | outside
  | fixed
  | extra
deriving DecidableEq

/-- A thread: one of the pool, or one that submits. -/
structure PoolThread where
  kind : ThreadKind
  phase : PoolPhase

/-- Where a thread takes its next job from. -/
def ThreadKind.again : ThreadKind → PoolPhase
  | .extra => .polling
  | .fixed => .arriving
  | .outside => .gone

/-- The pool and its threads.  The receiver is locked by a thread, or by none.  A job is the number
of jobs that were submitted before it; which jobs were counted by a thread, and which were run, is
history. -/
structure Pool where
  state : PoolState
  rx : Option Nat
  channel : List Nat
  members : List PoolThread
  submitted : Nat
  counted : List Nat
  ran : List Nat

/-- `InterpreterPool::new`. -/
def Pool.new (c : PoolConfig) : Pool :=
  { state := ⟨c.workers, c.workers, 0, 0, 0, 0⟩
    rx := none
    channel := []
    members := List.replicate c.workers ⟨.fixed, .arriving⟩
    submitted := 0
    counted := []
    ran := [] }

/-! ## Steps -/

namespace PoolThread

/-- Does it sleep on the condition variable? -/
def sleeps (t : PoolThread) : Bool :=
  match t.phase with
  | .sleeping _ => true
  | _ => false

/-- Has it been woken? -/
def wakes (t : PoolThread) : Bool :=
  match t.phase with
  | .woken _ => true
  | _ => false

end PoolThread

/-- `notify_one`: one of the threads that sleep is woken, if there is one. -/
inductive Notified : List PoolThread → List PoolThread → Prop where
  | nobody {l : List PoolThread} (h : census PoolThread.sleeps l = 0) : Notified l l
  | one {l : List PoolThread} (k : Nat) {kind : ThreadKind} {j : Nat}
      (h : l[k]? = some ⟨kind, .sleeping j⟩) : Notified l (l.set k ⟨kind, .woken j⟩)

/-- A hook wakes a thread, or it does not. -/
inductive Rung : Bool → List PoolThread → List PoolThread → Prop where
  | quiet {l : List PoolThread} : Rung false l l
  | rung {l l' : List PoolThread} (h : Notified l l') : Rung true l l'

namespace Pool

/-- A thread goes on to a phase. -/
def move (p : Pool) (i : Nat) (t : PoolThread) : Pool := { p with members := p.members.set i t }

/-- A thread takes a permit and runs its job. -/
def run (p : Pool) (i : Nat) (kind : ThreadKind) (j : Nat) : Pool :=
  { p with
    state := { p.state with permits := p.state.permits - 1 }
    members := p.members.set i ⟨kind, .running ⟨j, .none, false, false⟩ false⟩
    ran := p.ran ++ [j] }

/-- Takes a job off `queued`. -/
def countJob (p : Pool) (j : Nat) : Pool :=
  { p with
    state := { p.state with queued := p.state.queued - 1 }
    counted := p.counted ++ [j] }

end Pool

/-- A step of a thread, or of none: a thread that was not there submits, or a thread is woken for no
reason. -/
inductive PoolStep (c : PoolConfig) : Option Nat → Pool → Pool → Prop where
  /-- `submit`: the job is counted, and a thread reserved where one is needed. -/
  | submit {p : Pool} {st : PoolState} {grow : Bool}
      (h : PoolState.reserveExtra c { p.state with queued := p.state.queued + 1 } = (st, grow)) :
      PoolStep c none p
        { p with
          state := st
          members := p.members ++ [⟨.outside, .sending p.submitted grow⟩]
          submitted := p.submitted + 1 }
  /-- `submit`: the job is sent. -/
  | send {p : Pool} (i : Nat) {j : Nat} {grow : Bool}
      (hi : p.members[i]? = some ⟨.outside, .sending j grow⟩) :
      PoolStep c (some i) p
        { p with
          channel := p.channel ++ [j]
          members := p.members.set i ⟨.outside, if grow then .growing else .gone⟩ }
  /-- `submit` creates an extra thread. -/
  | created {p : Pool} (i : Nat) (hi : p.members[i]? = some ⟨.outside, .growing⟩) :
      PoolStep c (some i) p
        { p with members := p.members.set i ⟨.outside, .gone⟩ ++ [⟨.extra, .starting⟩] }
  | uncreated {p : Pool} (i : Nat) (hi : p.members[i]? = some ⟨.outside, .growing⟩) :
      PoolStep c (some i) p { p.move i ⟨.outside, .gone⟩ with state := p.state.uncreated }
  /-- `on_wait` creates an extra thread. -/
  | grown {p : Pool} (i : Nat) {kind : ThreadKind} {job : PoolJob}
      (hi : p.members[i]? = some ⟨kind, .running job true⟩) :
      PoolStep c (some i) p
        { p with members := p.members.set i ⟨kind, .running job false⟩ ++ [⟨.extra, .starting⟩] }
  | ungrown {p : Pool} (i : Nat) {kind : ThreadKind} {job : PoolJob}
      (hi : p.members[i]? = some ⟨kind, .running job true⟩) :
      PoolStep c (some i) p
        { p.move i ⟨kind, .running job false⟩ with state := p.state.uncreated }
  | arrive {p : Pool} (i : Nat) (hi : p.members[i]? = some ⟨.fixed, .arriving⟩) :
      PoolStep c (some i) p
        { p.move i ⟨.fixed, .locking⟩ with state := { p.state with idle := p.state.idle + 1 } }
  | lock {p : Pool} (i : Nat) (hi : p.members[i]? = some ⟨.fixed, .locking⟩) (hrx : p.rx = none) :
      PoolStep c (some i) p { p.move i ⟨.fixed, .receiving⟩ with rx := some i }
  | receive {p : Pool} (i : Nat) {j : Nat} {rest : List Nat}
      (hi : p.members[i]? = some ⟨.fixed, .receiving⟩) (hj : p.channel = j :: rest) :
      PoolStep c (some i) p { p.move i ⟨.fixed, .leaving j⟩ with rx := none, channel := rest }
  | leave {p : Pool} (i : Nat) {j : Nat} (hi : p.members[i]? = some ⟨.fixed, .leaving j⟩) :
      PoolStep c (some i) p
        { p.move i ⟨.fixed, .counting j⟩ with state := { p.state with idle := p.state.idle - 1 } }
  /-- `extra_take`: the first time. -/
  | start {p : Pool} (i : Nat) (hi : p.members[i]? = some ⟨.extra, .starting⟩) :
      PoolStep c (some i) p
        { p.move i ⟨.extra, .polling⟩ with
          state := { p.state with starting := p.state.starting - 1 } }
  | poll {p : Pool} (i : Nat) (hi : p.members[i]? = some ⟨.extra, .polling⟩) (hrx : p.rx = none) :
      PoolStep c (some i) p { p.move i ⟨.extra, .peeking⟩ with rx := some i }
  | pollLocked {p : Pool} (i : Nat) {k : Nat} (hi : p.members[i]? = some ⟨.extra, .polling⟩)
      (hrx : p.rx = some k) :
      PoolStep c (some i) p (p.move i ⟨.extra, .checking⟩)
  | take {p : Pool} (i : Nat) {j : Nat} {rest : List Nat}
      (hi : p.members[i]? = some ⟨.extra, .peeking⟩) (hj : p.channel = j :: rest) :
      PoolStep c (some i) p { p.move i ⟨.extra, .counting j⟩ with rx := none, channel := rest }
  | takeNothing {p : Pool} (i : Nat) (hi : p.members[i]? = some ⟨.extra, .peeking⟩)
      (hj : p.channel = []) :
      PoolStep c (some i) p { p.move i ⟨.extra, .checking⟩ with rx := none }
  | retire {p : Pool} (i : Nat) (hi : p.members[i]? = some ⟨.extra, .checking⟩)
      (hq : p.state.queued = 0) :
      PoolStep c (some i) p
        { p.move i ⟨.extra, .gone⟩ with state := { p.state with threads := p.state.threads - 1 } }
  | retry {p : Pool} (i : Nat) (hi : p.members[i]? = some ⟨.extra, .checking⟩)
      (hq : p.state.queued ≠ 0) :
      PoolStep c (some i) p (p.move i ⟨.extra, .polling⟩)
  /-- A job is counted; there is no permit for it. -/
  | sleep {p : Pool} (i : Nat) {kind : ThreadKind} {j : Nat}
      (hi : p.members[i]? = some ⟨kind, .counting j⟩) (hp : p.state.permits ≤ 0) :
      PoolStep c (some i) p ((p.countJob j).move i ⟨kind, .sleeping j⟩)
  /-- A job is counted and run. -/
  | run {p : Pool} (i : Nat) {kind : ThreadKind} {j : Nat}
      (hi : p.members[i]? = some ⟨kind, .counting j⟩) (hp : 0 < p.state.permits) :
      PoolStep c (some i) p ((p.countJob j).run i kind j)
  /-- A spurious wake-up. -/
  | rouse {p : Pool} (i : Nat) {kind : ThreadKind} {j : Nat}
      (hi : p.members[i]? = some ⟨kind, .sleeping j⟩) :
      PoolStep c none p (p.move i ⟨kind, .woken j⟩)
  | sleepOn {p : Pool} (i : Nat) {kind : ThreadKind} {j : Nat}
      (hi : p.members[i]? = some ⟨kind, .woken j⟩) (hp : p.state.permits ≤ 0) :
      PoolStep c (some i) p (p.move i ⟨kind, .sleeping j⟩)
  | runWoken {p : Pool} (i : Nat) {kind : ThreadKind} {j : Nat}
      (hi : p.members[i]? = some ⟨kind, .woken j⟩) (hp : 0 < p.state.permits) :
      PoolStep c (some i) p (p.run i kind j)
  /-- A job opens or closes a section; when it panics it only closes them. -/
  | act {p : Pool} (i : Nat) {kind : ThreadKind} {job : PoolJob} {a : Act} {sections : Sections}
      {k : Hook} {st : PoolState} {grow : Bool} {members : List PoolThread}
      (hi : p.members[i]? = some ⟨kind, .running job false⟩)
      (hpanic : job.panicking = true → a = .close)
      (hact : job.sections.act a = some (sections, k)) (hst : p.state.hooked c k = (st, grow))
      (hrung : Rung k.notifies
        (p.members.set i
          ⟨kind, .running { job with sections := sections, back := job.back || k.takes } grow⟩)
        members) :
      PoolStep c (some i) p { p with state := st, members := members }
  | panic {p : Pool} (i : Nat) {kind : ThreadKind} {job : PoolJob}
      (hi : p.members[i]? = some ⟨kind, .running job false⟩) :
      PoolStep c (some i) p (p.move i ⟨kind, .running { job with panicking := true } false⟩)
  /-- A job ends, its guards closed, by returning or by the panic that is caught. -/
  | finish {p : Pool} (i : Nat) {kind : ThreadKind} {job : PoolJob}
      (hi : p.members[i]? = some ⟨kind, .running job false⟩)
      (hguards : job.sections.guards = []) :
      PoolStep c (some i) p (p.move i ⟨kind, .returning job.back⟩)
  | giveBack {p : Pool} (i : Nat) {kind : ThreadKind} {back : Bool} {members : List PoolThread}
      (hi : p.members[i]? = some ⟨kind, .returning back⟩)
      (hrung : Notified (p.members.set i ⟨kind, kind.again⟩) members) :
      PoolStep c (some i) p
        { p with state := { p.state with permits := p.state.permits + 1 }, members := members }

/-- The states of the runs that stay in `P`. -/
inductive PoolReach (c : PoolConfig) (P : Pool → Prop) : Pool → Prop where
  | new (h : P (Pool.new c)) : PoolReach c P (Pool.new c)
  | step {p p' : Pool} {a : Option Nat} (hr : PoolReach c P p) (h : PoolStep c a p p')
      (hp : P p') : PoolReach c P p'

end Synsema.Server
