import Synsema.Lib.OrderedMap
import Synsema.Text

/-!
# The scheduler

`CronScheduler` (`synsema-stdlib/src/cron.rs`): a table of jobs under their names, and a thread for
each job that was started.  A step is what one thread does at once: a section in which it has the
table locked, or one access of a job's thread to the flag of the job or to one of its counters.

A registration is two sections: the job that has the name is cancelled, and the new one inserted.
Any threads register, cancel and start, those of the jobs among them while their task runs.
Counters are without bound; a clock is a choice between steps.
-/

namespace Synsema.Cron

open Text

/-- `Schedule`, as far as the threads differ by it. -/
inductive Schedule where
  | every
  | after
  | at
  deriving DecidableEq

def Schedule.repeating : Schedule → Bool
  | after => false
  | _ => true

/-- Where the thread of a job is. -/
inductive Phase where
  /-- There is none. -/
  | unborn
  /-- It waits. -/
  | waiting
  /-- It has waited, and is to look at the flag. -/
  | awake
  /-- It has looked at the flag for the last time, and is to run the task. -/
  | passed
  /-- It runs the task. -/
  | running
  /-- It is to count the tick. -/
  | counting (ok : Bool)
  /-- It has ended. -/
  | ended
  /-- It has ended with a panic of the task. -/
  | panicked
  deriving DecidableEq

/-- Is a task to run on the thread? -/
def Phase.ticks : Phase → Bool
  | waiting | awake | passed | running | counting _ => true
  | unborn | ended | panicked => false

/-- Has a tick begun that has not been counted? -/
def Phase.inTick : Phase → Bool
  | running | counting _ | panicked => true
  | _ => false

/-- `JobHandle`, with its thread.  How often a thread was spawned and how many ticks have begun is
history. -/
structure Job where
  name : Text
  schedule : Schedule
  cancelled : Bool
  runCount : Nat
  errors : Nat
  /-- A task waits for `start`. -/
  pending : Bool
  phase : Phase
  spawned : Nat
  begun : Nat

namespace Job

/-- A job whose task waits for `start`. -/
def new (name : Text) (schedule : Schedule) : Job :=
  { name, schedule, cancelled := false, runCount := 0, errors := 0, pending := true
    phase := .unborn, spawned := 0, begun := 0 }

/-- `spawn_job_thread`: the task is taken. -/
def spawn (j : Job) : Job :=
  { j with pending := false, phase := .waiting, spawned := j.spawned + 1 }

/-- The flag is set, and the handle dropped with the task that waits in it. -/
def cancel (j : Job) : Job := { j with cancelled := true, pending := false }

/-- The handle is dropped, with the task that waits in it. -/
def dropHandle (j : Job) : Job := { j with pending := false }

/-- `start`, of one job. -/
def start (j : Job) : Job := if j.pending then j.spawn else j

/-- The counters after a tick, and where the thread goes. -/
def counted (j : Job) (ok : Bool) : Job :=
  { j with
    runCount := j.runCount + ok.toNat
    errors := j.errors + (!ok).toNat
    phase := if j.schedule.repeating then .waiting else .ended }

end Job

/-- A step of the thread of a job: `spawn_job_thread`.  A task that is in the middle of a
registration (`busy`) does not return. -/
inductive Tick (busy : Bool) : Job → Job → Prop where
  /-- `wait_parked` sees the flag. -/
  | stop {j : Job} (h : j.phase = .waiting) (hc : j.cancelled = true) :
      Tick busy j { j with phase := .ended }
  /-- `wait_parked` does not see the flag, and the time is over. -/
  | wake {j : Job} (h : j.phase = .waiting) (hc : j.cancelled = false) :
      Tick busy j { j with phase := .awake }
  /-- The time is over before the next slice. -/
  | due {j : Job} (h : j.phase = .waiting) (hs : j.schedule = .at) :
      Tick busy j { j with phase := .awake }
  /-- There is no next time, or none that the clock has. -/
  | leave {j : Job} (h : j.phase = .waiting) : Tick busy j { j with phase := .ended }
  /-- The last look at the flag. -/
  | quit {j : Job} (h : j.phase = .awake) (hc : j.cancelled = true) :
      Tick busy j { j with phase := .ended }
  | pass {j : Job} (h : j.phase = .awake) (hc : j.cancelled = false) :
      Tick busy j { j with phase := .passed }
  /-- The task is called. -/
  | begin {j : Job} (h : j.phase = .passed) :
      Tick busy j { j with phase := .running, begun := j.begun + 1 }
  /-- The task returns. -/
  | finish {j : Job} (ok : Bool) (h : j.phase = .running) (hbusy : busy = false) :
      Tick busy j { j with phase := .counting ok }
  | panic {j : Job} (h : j.phase = .running) (hbusy : busy = false) :
      Tick busy j { j with phase := .panicked }
  /-- `fetch_add`. -/
  | count {j : Job} {ok : Bool} (h : j.phase = .counting ok) : Tick busy j (j.counted ok)

/-- A thread that uses the scheduler: one of the program, or the thread of a job. -/
inductive Caller where
  | outside (n : Nat)
  | job (i : Nat)
  deriving DecidableEq

/-- `CronScheduler`, with every job that was ever registered, and the registrations that are between
their two sections. -/
structure CronScheduler where
  table : OrderedMap Text Nat
  jobs : List Job
  started : Bool
  calls : Caller → Option (Text × Schedule)

namespace CronScheduler

/-- `new` and `deferred`. -/
def new (started : Bool) : CronScheduler := ⟨.empty, [], started, fun _ => none⟩

/-- Some of the jobs change. -/
def onJobs (s : CronScheduler) (p : Nat → Bool) (f : Job → Job) : CronScheduler :=
  { s with jobs := s.jobs.mapIdx fun i j => if p i then f j else j }

/-- The jobs that are in the table. -/
def held (s : CronScheduler) (i : Nat) : Bool := s.table.values.contains i

def cancel (s : CronScheduler) (name : Text) : CronScheduler :=
  match s.table.get? name with
  | none => s
  | some i => { s.onJobs (· == i) Job.cancel with table := s.table.shiftRemove name }

def cancelAll (s : CronScheduler) : CronScheduler := { s.onJobs s.held Job.cancel with table := .empty }

def start (s : CronScheduler) : CronScheduler := { s.onJobs s.held Job.start with started := true }

/-- The second section of `schedule`: the job is inserted, started if jobs are.  The handle of a job
that has the name is dropped. -/
def insert (s : CronScheduler) (name : Text) (schedule : Schedule) : CronScheduler :=
  let s' := s.onJobs (fun i => s.table.get? name == some i) Job.dropHandle
  let job := Job.new name schedule
  { s' with
    table := s.table.insert name s.jobs.length
    jobs := s'.jobs ++ [if s.started then job.spawn else job] }

/-- A thread goes on to a registration, or is done with it. -/
def setCall (s : CronScheduler) (c : Caller) (call : Option (Text × Schedule)) : CronScheduler :=
  { s with calls := Function.update s.calls c call }

/-- A thread may call: it is not in a call, and the thread of a job runs the task. -/
def Free (s : CronScheduler) (c : Caller) : Prop :=
  s.calls c = none ∧ ∀ i, c = .job i → ∃ j, s.jobs[i]? = some j ∧ j.phase = .running

end CronScheduler

/-- What is done in a step. -/
inductive Act where
  | register (c : Caller) (name : Text) (schedule : Schedule)
  | insert (c : Caller)
  | cancel (c : Caller) (name : Text)
  | cancelAll (c : Caller)
  | start (c : Caller)
  | tick (i : Nat)

/-- A step. -/
inductive Step : Act → CronScheduler → CronScheduler → Prop where
  /-- The first section of `schedule`. -/
  | register {s : CronScheduler} {c : Caller} (h : s.Free c) (name : Text) (schedule : Schedule) :
      Step (.register c name schedule) s ((s.cancel name).setCall c (some (name, schedule)))
  | insert {s : CronScheduler} {c : Caller} {name : Text} {schedule : Schedule}
      (h : s.calls c = some (name, schedule)) :
      Step (.insert c) s ((s.insert name schedule).setCall c none)
  | cancel {s : CronScheduler} {c : Caller} (h : s.Free c) (name : Text) :
      Step (.cancel c name) s (s.cancel name)
  | cancelAll {s : CronScheduler} {c : Caller} (h : s.Free c) : Step (.cancelAll c) s s.cancelAll
  | start {s : CronScheduler} {c : Caller} (h : s.Free c) : Step (.start c) s s.start
  | tick {s : CronScheduler} {i : Nat} {j j' : Job} (hi : s.jobs[i]? = some j)
      (h : Tick (s.calls (.job i)).isSome j j') :
      Step (.tick i) s { s with jobs := s.jobs.set i j' }

/-- What is reached by steps that meet a condition. -/
inductive Runs (P : CronScheduler → Act → Prop) : CronScheduler → CronScheduler → Prop where
  | refl (s : CronScheduler) : Runs P s s
  | snoc {s t u : CronScheduler} {a : Act} (h : Runs P s t) (hP : P t a) (hstep : Step a t u) : Runs P s u

end Synsema.Cron
