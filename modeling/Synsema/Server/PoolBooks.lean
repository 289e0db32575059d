import Synsema.Server.Pool
import Mathlib.Tactic.Ring

/-!
# The books of the pool

Every counter of the pool is what its threads add up to, each by where it is.  An `Account` is one of
these counters, or what is known of one job; a step leaves every account balanced (`Books.step`), as
the thread that moves adds what the counter gains.
-/

namespace Synsema.Server

open Census List Option

namespace PoolThread

/-- Is it a thread of the pool? -/
def alive (t : PoolThread) : Bool :=
  match t.phase with
  | .gone => false
  | _ => t.kind ≠ .outside

/-- Is it to create a thread that is reserved? -/
def owes (t : PoolThread) : Bool :=
  match t.phase with
  | .growing => true
  | .sending _ grow => grow
  | .running _ grow => grow
  | _ => false

/-- Has it been created, and not counted itself started? -/
def isStarting (t : PoolThread) : Bool :=
  match t.phase with
  | .starting => true
  | _ => false

/-- Is it at the queue? -/
def isIdle (t : PoolThread) : Bool :=
  match t.phase with
  | .locking | .receiving | .leaving _ => true
  | _ => false

/-- Is its job in a wait? -/
def isWaiting (t : PoolThread) : Bool :=
  match t.phase with
  | .running job _ => job.sections.inWait
  | _ => false

/-- Is it one of the fixed threads? -/
def isFixed (t : PoolThread) : Bool := t.alive && t.kind = .fixed

/-- Does it run a job that holds its permit?  A job runs until its thread has given the permit
back. -/
def holds (t : PoolThread) : Bool :=
  match t.phase with
  | .running job _ => job.sections.given = 0
  | .returning _ => true
  | _ => false

/-- How often its job has lent its permit again, while it was lent. -/
def again (t : PoolThread) : Nat :=
  match t.phase with
  | .running job _ => job.sections.given - 1
  | _ => 0

/-- The permits it has taken, less those it has lent. -/
def taken (t : PoolThread) : Int :=
  match t.phase with
  | .running job _ => 1 - job.sections.given
  | .returning _ => 1
  | _ => 0

/-- The job it has that no thread has counted. -/
def uncounted (t : PoolThread) : Option Nat :=
  match t.phase with
  | .sending j _ | .leaving j | .counting j => some j
  | _ => none

/-- The job it has counted and does not run yet. -/
def unstarted (t : PoolThread) : Option Nat :=
  match t.phase with
  | .sleeping j | .woken j => some j
  | _ => none

theorem taken_eq (t : PoolThread) : t.taken = (t.holds.toNat : Int) - t.again := by
  obtain ⟨kind, phase⟩ := t
  cases phase with
  | running job grow =>
    by_cases h : job.sections.given = 0
    · simp [taken, holds, again, h]
    · simp only [taken, holds, again, h, decide_false, Bool.toNat_false]
      omega
  | _ => rfl

end PoolThread

/-- A counter of the pool, or what is known of a job. -/
inductive Account where
  | permits
  | threads
  | starting
  | idle
  | waiting
  | queued
  | fixed
  | submitted
  /-- Where a submitted job is that no thread has counted. -/
  | job (j : Nat)
  /-- Where a job is that is counted and not run. -/
  | begun (j : Nat)

/-- What a thread adds to an account. -/
def PoolThread.entry (t : PoolThread) : Account → Int
  | .permits => t.taken
  | .threads => t.alive.toNat + t.owes.toNat
  | .starting => t.isStarting.toNat + t.owes.toNat
  | .idle => t.isIdle.toNat
  | .waiting => t.isWaiting.toNat
  | .queued => t.uncounted.isSome.toNat
  | .fixed => t.isFixed.toNat
  | .submitted => 0
  | .job j => (t.uncounted == some j).toNat
  | .begun j => (t.unstarted == some j).toNat

/-- What the threads are to add up to. -/
def Pool.total (c : PoolConfig) (p : Pool) : Account → Int
  | .permits => c.workers - p.state.permits
  | .threads => p.state.threads
  | .starting => p.state.starting
  | .idle => p.state.idle
  | .waiting => p.state.waiting
  | .queued => p.state.queued - p.channel.length
  | .fixed => c.workers
  | .submitted => p.submitted - p.counted.length - p.state.queued
  | .job j => (if j < p.submitted then 1 else 0) - p.channel.count j - p.counted.count j
  | .begun j => p.counted.count j - p.ran.count j

/-- Every account is balanced. -/
def Books (c : PoolConfig) (p : Pool) : Prop :=
  ∀ a, tally (fun t => PoolThread.entry t a) p.members = p.total c a

namespace Books

variable {c : PoolConfig} {p p' : Pool}

theorem new (c : PoolConfig) : Books c (Pool.new c) := by
  have hall (w : PoolThread → Int) :
      tally w (Pool.new c).members = c.workers * w ⟨.fixed, .arriving⟩ := by
    simp [tally, Pool.new]
  intro a
  rw [hall]
  cases a <;> simp [PoolThread.entry, Pool.total, Pool.new, PoolThread.taken, PoolThread.alive,
    PoolThread.owes, PoolThread.isStarting, PoolThread.isIdle, PoolThread.isWaiting,
    PoolThread.isFixed, PoolThread.uncounted, PoolThread.unstarted]

variable {i : Nat} {x : PoolThread}

theorem move (h : Books c p) {y : PoolThread} (hi : p.members[i]? = some x)
    {others : List PoolThread} (hm : p'.members = p.members.set i y ++ others)
    (hd : ∀ a, p'.total c a + x.entry a =
      p.total c a + y.entry a + tally (fun t => PoolThread.entry t a) others) :
    Books c p' := by
  intro a
  have hmove := tally_move (fun t => PoolThread.entry t a) hi y
  have hold := h a
  have hdelta := hd a
  rw [hm, tally_append]
  omega

theorem move_only (h : Books c p) {y : PoolThread} (hi : p.members[i]? = some x)
    (hm : p'.members = p.members.set i y)
    (hd : ∀ a, p'.total c a + x.entry a = p.total c a + y.entry a) : Books c p' := by
  apply h.move hi (hm.trans (append_nil _).symm)
  intro a
  rw [hd a]
  exact (Int.add_zero _).symm

theorem notified (h : Books c p) {l : List PoolThread} (hn : Notified p.members l) :
    Books c { p with members := l } := by
  cases hn with
  | nobody => exact h
  | one k hk =>
    apply h.move_only hk rfl
    intro a
    cases a <;> rfl

theorem rung (h : Books c p) {b : Bool} {l : List PoolThread} (hr : Rung b p.members l) :
    Books c { p with members := l } := by
  cases hr with
  | quiet => exact h
  | rung hn => exact h.notified hn

theorem entry_le (h : Books c p) {a : Account} (ha : a ≠ .permits) (hi : p.members[i]? = some x) :
    x.entry a ≤ p.total c a := by
  rw [← h a]
  apply le_tally (w := fun t => PoolThread.entry t a)
  · intro t
    cases a <;> simp_all [PoolThread.entry] <;> omega
  · exact hi

theorem pos (h : Books c p) {a : Account} (ha : a ≠ .permits) (hi : p.members[i]? = some x)
    (hx : x.entry a = 1) : 1 ≤ p.total c a :=
  hx ▸ h.entry_le ha hi

end Books

/-! ## What the hooks do -/

namespace PoolState

variable {c : PoolConfig} {st st' : PoolState} {grow : Bool}

theorem reserveExtra_spec (h : st.reserveExtra c = (st', grow)) :
    st' = { st with threads := st.threads + grow.toNat, starting := st.starting + grow.toNat } ∧
      (st.threads ≤ c.maxThreads → st'.threads ≤ c.maxThreads) := by
  unfold reserveExtra at h
  split at h
  · rename_i hneeds
    cases h
    simp only [needsThread, Bool.and_eq_true, decide_eq_true_eq] at hneeds
    exact ⟨rfl, fun _ => hneeds.2⟩
  · cases h
    exact ⟨rfl, id⟩

theorem hooked_spec {k : Hook} (h : st.hooked c k = (st', grow)) :
    st'.permits = st.permits + k.credit ∧
      ((0 : Int) ≤ st.waiting + k.waiting → (st'.waiting : Int) = st.waiting + k.waiting) ∧
      st'.threads = st.threads + grow.toNat ∧ st'.starting = st.starting + grow.toNat ∧
      st'.idle = st.idle ∧ st'.queued = st.queued ∧
      (st.threads ≤ c.maxThreads → st'.threads ≤ c.maxThreads) := by
  cases k with
  | quiet | lends =>
    cases h
    simp [Hook.credit, Hook.waiting]
  | waits =>
    obtain ⟨rfl, hmax⟩ := reserveExtra_spec h
    exact ⟨rfl, fun _ => rfl, rfl, rfl, rfl, rfl, hmax⟩
  | back =>
    cases h
    refine ⟨rfl, fun hw => ?_, rfl, rfl, rfl, rfl, id⟩
    simp only [Hook.waiting] at hw ⊢
    omega
  | unlends =>
    cases h
    refine ⟨rfl, fun _ => (Int.add_zero _).symm, rfl, rfl, rfl, rfl, id⟩

end PoolState

/-! ## Every step balances the books -/

theorem count_concat (l : List Nat) (j a : Nat) :
    ((l ++ [j]).count a : Int) = l.count a + (some j == some a).toNat := by
  rw [count_append, count_singleton]
  by_cases h : j = a <;> simp [h]

theorem count_head (l : List Nat) (j a : Nat) :
    ((j :: l).count a : Int) = l.count a + (some j == some a).toNat := by
  rw [count_cons]
  by_cases h : j = a <;> simp [h]

namespace Books

variable {c : PoolConfig} {p p' : Pool}

theorem submit (h : Books c p) {st : PoolState} {grow : Bool}
    (hst : PoolState.reserveExtra c { p.state with queued := p.state.queued + 1 } = (st, grow)) :
    Books c { p with
      state := st
      members := p.members ++ [⟨.outside, .sending p.submitted grow⟩]
      submitted := p.submitted + 1 } := by
  obtain ⟨rfl, -⟩ := PoolState.reserveExtra_spec hst
  intro a
  have hold := h a
  rw [tally_join, hold]
  cases a with
  | threads => simp [Pool.total, PoolThread.entry, PoolThread.alive, PoolThread.owes]
  | starting => simp [Pool.total, PoolThread.entry, PoolThread.isStarting, PoolThread.owes]
  | queued =>
    simp only [Pool.total, PoolThread.entry, PoolThread.uncounted, isSome_some, Bool.toNat_true]
    omega
  | submitted =>
    simp only [Pool.total, PoolThread.entry]
    omega
  | job j =>
    simp only [Pool.total, PoolThread.entry, PoolThread.uncounted]
    by_cases hj : p.submitted = j
    · simp [hj]
      omega
    · have hlt : j < p.submitted + 1 ↔ j < p.submitted := by omega
      simp [hj, hlt]
  | _ => exact Int.add_zero _

variable {i j : Nat} {x y : PoolThread} {kind : ThreadKind}

theorem receive (h : Books c p) {rest : List Nat} (hi : p.members[i]? = some x)
    (hj : p.channel = j :: rest) (hx : x.uncounted = none) (hy : y.uncounted = some j)
    (hsame : ∀ a, a ≠ .queued → (∀ j, a ≠ .job j) → x.entry a = y.entry a) :
    Books c { p.move i y with rx := none, channel := rest } := by
  apply h.move_only hi rfl
  intro a
  cases a with
  | queued =>
    simp only [Pool.total, PoolThread.entry, hx, hy, hj, length_cons, Pool.move, isSome_some,
      isSome_none, Bool.toNat_true, Bool.toNat_false]
    omega
  | job k =>
    have hcount := count_head rest j k
    simp only [Pool.total, PoolThread.entry, hx, hy, hj, Pool.move] at hcount ⊢
    rw [hcount]
    simp only [none_beq_some, Bool.toNat_false]
    omega
  | _ =>
    rw [hsame _ (by simp) (by simp)]
    rfl

theorem stay (h : Books c p) (hi : p.members[i]? = some x) (hxy : ∀ a, x.entry a = y.entry a)
    (r : Option Nat) : Books c { p.move i y with rx := r } := by
  apply h.move_only hi rfl
  intro a
  rw [hxy]
  rfl

theorem send (h : Books c p) {grow : Bool} (hi : p.members[i]? = some ⟨.outside, .sending j grow⟩) :
    Books c { p with
      channel := p.channel ++ [j]
      members := p.members.set i ⟨.outside, if grow then .growing else .gone⟩ } := by
  apply h.move_only hi rfl
  intro a
  cases a with
  | queued =>
    cases grow <;> simp [Pool.total, PoolThread.entry, PoolThread.uncounted] <;> omega
  | job k =>
    have hcount := count_concat p.channel j k
    cases grow <;> simp only [Pool.total, PoolThread.entry, PoolThread.uncounted, hcount,
      if_true, Bool.false_eq_true, if_false, none_beq_some, Bool.toNat_false] <;> omega
  | _ => cases grow <;> rfl

theorem created (h : Books c p) (hi : p.members[i]? = some x) (hx : x.owes)
    (hy : y.owes = false) (hthreads : x.alive = y.alive) (hstarting : x.isStarting = y.isStarting)
    (hsame : ∀ a, a ≠ .threads → a ≠ .starting → x.entry a = y.entry a) :
    Books c { p with members := p.members.set i y ++ [⟨.extra, .starting⟩] } := by
  apply h.move hi rfl
  intro a
  cases a with
  | threads =>
    simp only [Pool.total, PoolThread.entry, hx, hy, hthreads, tally, map_singleton, sum_singleton,
      Bool.toNat_true, Bool.toNat_false]
    simp [PoolThread.alive, PoolThread.owes]
    omega
  | starting =>
    simp only [Pool.total, PoolThread.entry, hx, hy, hstarting, tally, map_singleton, sum_singleton,
      Bool.toNat_true, Bool.toNat_false]
    simp [PoolThread.isStarting, PoolThread.owes]
    omega
  | _ =>
    rw [hsame _ (by simp) (by simp)]
    exact (Int.add_zero _).symm

theorem uncreated (h : Books c p) (hi : p.members[i]? = some x) (hx : x.owes)
    (hy : y.owes = false) (hthreads : x.alive = y.alive) (hstarting : x.isStarting = y.isStarting)
    (hsame : ∀ a, a ≠ .threads → a ≠ .starting → x.entry a = y.entry a) :
    Books c { p.move i y with state := p.state.uncreated } := by
  have hpos₁ := h.entry_le (a := .threads) (by simp) hi
  have hpos₂ := h.entry_le (a := .starting) (by simp) hi
  simp only [Pool.total, PoolThread.entry, hx, Bool.toNat_true] at hpos₁ hpos₂
  apply h.move_only hi rfl
  intro a
  cases a with
  | threads =>
    simp only [Pool.total, PoolThread.entry, hx, hy, hthreads, PoolState.uncreated, Bool.toNat_true,
      Bool.toNat_false]
    omega
  | starting =>
    simp only [Pool.total, PoolThread.entry, hx, hy, hstarting, PoolState.uncreated,
      Bool.toNat_true, Bool.toNat_false]
    omega
  | _ =>
    rw [hsame _ (by simp) (by simp)]
    rfl

theorem arrive (h : Books c p) (hi : p.members[i]? = some ⟨.fixed, .arriving⟩) :
    Books c
      { p.move i ⟨.fixed, .locking⟩ with state := { p.state with idle := p.state.idle + 1 } } := by
  apply h.move_only hi rfl
  intro a
  cases a with
  | idle => exact Int.add_zero _
  | _ => rfl

theorem leave (h : Books c p) (hi : p.members[i]? = some ⟨.fixed, .leaving j⟩) :
    Books c { p.move i ⟨.fixed, .counting j⟩ with
      state := { p.state with idle := p.state.idle - 1 } } := by
  have hpos : (1 : Int) ≤ p.state.idle := h.pos (a := .idle) (by simp) hi rfl
  apply h.move_only hi rfl
  intro a
  cases a with
  | idle =>
    simp only [Pool.total, PoolThread.entry, PoolThread.isIdle, Bool.toNat_true, Bool.toNat_false]
    omega
  | _ => rfl

theorem start (h : Books c p) (hi : p.members[i]? = some ⟨.extra, .starting⟩) :
    Books c { p.move i ⟨.extra, .polling⟩ with
      state := { p.state with starting := p.state.starting - 1 } } := by
  have hpos : (1 : Int) ≤ p.state.starting := h.pos (a := .starting) (by simp) hi rfl
  apply h.move_only hi rfl
  intro a
  cases a with
  | starting =>
    simp only [Pool.total, PoolThread.entry, PoolThread.isStarting, PoolThread.owes,
      Bool.toNat_true, Bool.toNat_false]
    omega
  | _ => rfl

theorem retire (h : Books c p) (hi : p.members[i]? = some ⟨.extra, .checking⟩) :
    Books c { p.move i ⟨.extra, .gone⟩ with
      state := { p.state with threads := p.state.threads - 1 } } := by
  have hpos : (1 : Int) ≤ p.state.threads := h.pos (a := .threads) (by simp) hi rfl
  apply h.move_only hi rfl
  intro a
  cases a with
  | threads =>
    simp only [Pool.total, PoolThread.entry, PoolThread.alive, PoolThread.owes]
    simp
    omega
  | _ => rfl

theorem countJob (h : Books c p) (hi : p.members[i]? = some ⟨kind, .counting j⟩) :
    Books c ((p.countJob j).move i ⟨kind, .woken j⟩) := by
  have hpos : (1 : Int) ≤ p.state.queued - p.channel.length := h.pos (a := .queued) (by simp) hi rfl
  apply h.move_only hi rfl
  intro a
  cases a with
  | queued =>
    simp only [Pool.total, PoolThread.entry, PoolThread.uncounted, Pool.countJob, Pool.move,
      isSome_some, isSome_none, Bool.toNat_true, Bool.toNat_false]
    omega
  | submitted =>
    simp only [Pool.total, PoolThread.entry, Pool.countJob, Pool.move, length_append,
      length_singleton]
    omega
  | job k =>
    have hcount := count_concat p.counted j k
    simp only [Pool.total, PoolThread.entry, PoolThread.uncounted, Pool.countJob, Pool.move, hcount,
      none_beq_some, Bool.toNat_false]
    omega
  | begun k =>
    have hcount := count_concat p.counted j k
    simp only [Pool.total, PoolThread.entry, PoolThread.unstarted, Pool.countJob, Pool.move, hcount,
      none_beq_some, Bool.toNat_false]
    omega
  | _ => rfl

theorem run (h : Books c p) (hi : p.members[i]? = some ⟨kind, .woken j⟩) :
    Books c (p.run i kind j) := by
  apply h.move_only hi rfl
  intro a
  cases a with
  | permits =>
    simp only [Pool.total, PoolThread.entry, PoolThread.taken, Pool.run, Sections.given_none]
    omega
  | begun k =>
    have hcount := count_concat p.ran j k
    simp only [Pool.total, PoolThread.entry, PoolThread.unstarted, Pool.run, hcount, none_beq_some,
      Bool.toNat_false]
    omega
  | _ => rfl

theorem sleep (h : Books c p) (hi : p.members[i]? = some ⟨kind, .counting j⟩) :
    Books c ((p.countJob j).move i ⟨kind, .sleeping j⟩) := by
  have hlt := (List.getElem?_eq_some_iff.mp hi).1
  have hwoken := (h.countJob hi).stay (i := i) (x := ⟨kind, .woken j⟩) (y := ⟨kind, .sleeping j⟩)
    (by simp [Pool.move, Pool.countJob, hlt]) (fun a => by cases a <;> rfl) p.rx
  rwa [Pool.move, Pool.move, set_set] at hwoken

theorem runCounted (h : Books c p) (hi : p.members[i]? = some ⟨kind, .counting j⟩) :
    Books c ((p.countJob j).run i kind j) := by
  have hlt := (List.getElem?_eq_some_iff.mp hi).1
  have hmem : ((p.countJob j).move i ⟨kind, .woken j⟩).members[i]? = some ⟨kind, .woken j⟩ := by
    simp [Pool.move, Pool.countJob, hlt]
  have hrun := (h.countJob hi).run hmem
  rwa [Pool.run, Pool.move, set_set] at hrun

theorem act (h : Books c p) {job : PoolJob} {a : Act} {sections : Sections} {k : Hook}
    {st : PoolState} {grow back : Bool} (hi : p.members[i]? = some ⟨kind, .running job false⟩)
    (hact : job.sections.act a = some (sections, k)) (hst : p.state.hooked c k = (st, grow)) :
    Books c { p with
      state := st
      members := p.members.set i
        ⟨kind, .running { job with sections := sections, back := back } grow⟩ } := by
  obtain ⟨hgiven, hwait⟩ := Sections.act_spec hact
  obtain ⟨hpermits, hwaiting, hthreads, hstarting, hidle, hqueued, -⟩ := PoolState.hooked_spec hst
  have hpos := h.entry_le (a := .waiting) (by simp) hi
  simp only [Pool.total, PoolThread.entry, PoolThread.isWaiting] at hpos
  apply h.move_only hi rfl
  intro a
  cases a with
  | permits =>
    simp only [Pool.total, PoolThread.entry, PoolThread.taken, hpermits]
    omega
  | threads =>
    simp only [Pool.total, PoolThread.entry, PoolThread.alive, PoolThread.owes, hthreads]
    simp
    omega
  | starting =>
    simp only [Pool.total, PoolThread.entry, PoolThread.isStarting, PoolThread.owes, hstarting]
    simp
  | waiting =>
    simp only [Pool.total, PoolThread.entry, PoolThread.isWaiting]
    omega
  | idle => exact congrArg (fun n : Nat => (n : Int) + 0) hidle
  | queued => exact congrArg (fun n : Nat => (n : Int) - p.channel.length + 0) hqueued
  | submitted => exact congrArg (fun n : Nat ↦ (p.submitted : Int) - p.counted.length - n + 0) hqueued
  | _ => rfl

theorem giveBack (h : Books c p) {back : Bool} (hi : p.members[i]? = some ⟨kind, .returning back⟩) :
    Books c { p.move i ⟨kind, kind.again⟩ with
      state := { p.state with permits := p.state.permits + 1 } } := by
  apply h.move_only hi rfl
  intro a
  cases a with
  | permits =>
    cases kind <;> simp only [Pool.total, PoolThread.entry, PoolThread.taken,
      ThreadKind.again] <;> omega
  | _ => cases kind <;> rfl

theorem finish (h : Books c p) {job : PoolJob}
    (hi : p.members[i]? = some ⟨kind, .running job false⟩) (hguards : job.sections.guards = []) :
    Books c (p.move i ⟨kind, .returning job.back⟩) := by
  apply h.stay hi (r := p.rx)
  intro a
  cases a with
  | permits => simp [PoolThread.entry, PoolThread.taken, Sections.given_of_guards_nil hguards]
  | waiting => simp [PoolThread.entry, PoolThread.isWaiting, Sections.inWait_of_guards_nil hguards]
  | _ => rfl

theorem step (h : Books c p) {who : Option Nat} (hs : PoolStep c who p p') : Books c p' := by
  cases hs with
  | submit hst => exact h.submit hst
  | send i hi => exact h.send hi
  | created i hi =>
    apply h.created (y := ⟨.outside, .gone⟩) hi rfl rfl rfl rfl
    intro a hthreads hstarting
    cases a with
    | threads | starting => contradiction
    | _ => rfl
  | uncreated i hi =>
    apply h.uncreated (y := ⟨.outside, .gone⟩) hi rfl rfl rfl rfl
    intro a hthreads hstarting
    cases a with
    | threads | starting => contradiction
    | _ => rfl
  | grown i hi =>
    apply h.created (y := ⟨_, .running _ false⟩) hi rfl rfl rfl rfl
    intro a hthreads hstarting
    cases a with
    | threads | starting => contradiction
    | _ => rfl
  | ungrown i hi =>
    apply h.uncreated (y := ⟨_, .running _ false⟩) hi rfl rfl rfl rfl
    intro a hthreads hstarting
    cases a with
    | threads | starting => contradiction
    | _ => rfl
  | arrive i hi => exact h.arrive hi
  | lock i hi hrx | poll i hi hrx | pollLocked i hi hrx | takeNothing i hi hj | retry i hi hq
  | rouse i hi | sleepOn i hi hp | panic i hi => exact h.stay hi (fun a => by cases a <;> rfl) _
  | receive i hi hj | take i hi hj =>
    apply h.receive hi hj rfl rfl
    intro a hqueued hjob
    cases a with
    | queued => contradiction
    | job k => exact absurd rfl (hjob k)
    | _ => rfl
  | leave i hi => exact h.leave hi
  | start i hi => exact h.start hi
  | retire i hi hq => exact h.retire hi
  | sleep i hi hp => exact h.sleep hi
  | run i hi hp => exact h.runCounted hi
  | runWoken i hi hp => exact h.run hi
  | act i hi hpanic hact hst hrung => exact (h.act hi hact hst).rung hrung
  | finish i hi hguards => exact h.finish hi hguards
  | giveBack i hi hrung => exact (h.giveBack hi).notified hrung

end Books

end Synsema.Server
