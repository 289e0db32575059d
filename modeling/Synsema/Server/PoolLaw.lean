import Synsema.Server.PoolAccounts

/-!
# The law of the pool

What the books, the receiver and the threads that sleep come to: jobs are counted and run once, the
pool is not stuck while a job is queued (`moves_of_queued`), and the permits are what the jobs leave
of them (`pool_accounts`).
-/

namespace Synsema.Server

open Census List

variable {c : PoolConfig} {P : Pool → Prop} {p p' : Pool} {who : Option Nat}

/-! ## Jobs -/

theorem PoolThread.entry_nonneg {a : Account} (ha : a ≠ .permits) (t : PoolThread) :
    0 ≤ t.entry a := by
  cases a with
  | permits => contradiction
  | submitted => exact le_rfl
  | threads | starting => exact Int.natCast_nonneg (_ + _)
  | _ => exact Int.natCast_nonneg _

theorem Books.total_nonneg (h : Books c p) {a : Account} (ha : a ≠ .permits) : 0 ≤ p.total c a := by
  rw [← h a]
  apply sum_nonneg
  intro m hm
  obtain ⟨t, -, rfl⟩ := mem_map.mp hm
  exact t.entry_nonneg ha

namespace Books

theorem count_ran_le (h : Books c p) (j : Nat) : p.ran.count j ≤ p.counted.count j := by
  have hnonneg : (0 : Int) ≤ p.counted.count j - p.ran.count j :=
    h.total_nonneg (a := .begun j) (by simp)
  omega

theorem count_counted_le (h : Books c p) (j : Nat) :
    p.counted.count j ≤ if j < p.submitted then 1 else 0 := by
  have hnonneg := h.total_nonneg (a := .job j) (by simp)
  simp only [Pool.total] at hnonneg
  split at hnonneg <;> rename_i hj <;> simp only [hj, if_true, if_false] <;> omega

theorem nodup_counted (h : Books c p) : p.counted.Nodup :=
  nodup_iff_count_le_one.mpr fun j => (h.count_counted_le j).trans (by split <;> omega)

theorem lt_of_mem_counted (h : Books c p) {j : Nat} (hj : j ∈ p.counted) : j < p.submitted := by
  have hcount := h.count_counted_le j
  have hpos := count_pos_iff.mpr hj
  by_contra hlt
  rw [if_neg hlt] at hcount
  omega

theorem nodup_ran (h : Books c p) : p.ran.Nodup :=
  nodup_iff_count_le_one.mpr fun j =>
    (h.count_ran_le j).trans (nodup_iff_count_le_one.mp h.nodup_counted j)

theorem lt_of_mem_ran (h : Books c p) {j : Nat} (hj : j ∈ p.ran) : j < p.submitted := by
  apply h.lt_of_mem_counted
  exact count_pos_iff.mp ((count_pos_iff.mpr hj).trans_le (h.count_ran_le j))

theorem queued_eq (h : Books c p) :
    p.state.queued = ((List.range p.submitted).filter fun j => j ∉ p.counted).length := by
  have hsum : (0 : Int) = p.submitted - p.counted.length - p.state.queued := by
    refine Eq.trans ?_ (h .submitted)
    exact (tally_eq_zero fun _ _ => rfl).symm
  have hperm : ((List.range p.submitted).filter fun j => j ∈ p.counted).Perm p.counted := by
    rw [perm_ext_iff_of_nodup (nodup_range.filter _) h.nodup_counted]
    intro j
    rw [mem_filter, List.mem_range, decide_eq_true_eq]
    exact ⟨And.right, fun hj => ⟨h.lt_of_mem_counted hj, hj⟩⟩
  have hsplit := length_eq_length_filter_add (l := List.range p.submitted)
    (fun j => decide (j ∈ p.counted))
  rw [hperm.length_eq, length_range] at hsplit
  simp only [decide_not]
  omega

end Books

/-! ## Where threads can be -/

/-- Is a thread where a thread of its kind can be? -/
def PoolThread.legal (t : PoolThread) : Bool :=
  match t.phase with
  | .sending _ _ | .growing => t.kind = .outside
  | .arriving | .locking | .receiving | .leaving _ => t.kind = .fixed
  | .starting | .polling | .peeking | .checking => t.kind = .extra
  | .counting _ | .sleeping _ | .woken _ | .running _ _ | .returning _ => t.kind ≠ .outside
  | .gone => t.kind ≠ .fixed

/-- Every thread is where a thread of its kind can be. -/
def Pool.Legal (p : Pool) : Prop := ∀ t ∈ p.members, t.legal = true

variable {l l' : List PoolThread} {y t : PoolThread} {i : Nat}

theorem legal_set (h : ∀ t ∈ l, t.legal) (i : Nat) (hy : y.legal) :
    ∀ t ∈ l.set i y, t.legal = true := by
  intro t ht
  cases mem_or_eq_of_mem_set ht with
  | inl hmem => exact h t hmem
  | inr heq => exact heq ▸ hy

theorem legal_concat (h : ∀ t ∈ l, t.legal) (hy : y.legal) : ∀ t ∈ l ++ [y], t.legal = true := by
  intro t ht
  cases mem_append.mp ht with
  | inl hmem => exact h t hmem
  | inr heq => exact mem_singleton.mp heq ▸ hy

theorem Notified.legal (h : ∀ t ∈ l, t.legal) (hn : Notified l l') : ∀ t ∈ l', t.legal = true := by
  cases hn with
  | nobody => exact h
  | @one k kind j hk =>
    have hold : PoolThread.legal ⟨kind, .sleeping j⟩ := h _ (mem_of_getElem? hk)
    exact legal_set h k hold

theorem Rung.legal {b : Bool} (h : ∀ t ∈ l, t.legal) (hr : Rung b l l') :
    ∀ t ∈ l', t.legal = true := by
  cases hr with
  | quiet => exact h
  | rung hn => exact hn.legal h

theorem legal_again (kind : ThreadKind) : PoolThread.legal ⟨kind, kind.again⟩ = true := by
  cases kind <;> rfl

theorem PoolStep.legal (hs : PoolStep c who p p') (h : p.Legal) : p'.Legal := by
  have same {i : Nat} {x : PoolThread} (y : PoolThread) (hi : p.members[i]? = some x)
      (hxy : x.legal = y.legal) : ∀ t ∈ p.members.set i y, t.legal = true :=
    legal_set h i (hxy ▸ h x (mem_of_getElem? hi))
  cases hs with
  | submit hst => exact legal_concat h rfl
  | send i hi => exact legal_set h i (by split <;> rfl)
  | created i hi => exact legal_concat (legal_set h i rfl) rfl
  | grown i hi => exact legal_concat (same ⟨_, .running _ false⟩ hi rfl) rfl
  | act i hi hpanic hact hst hrung =>
    apply hrung.legal
    exact same _ hi rfl
  | giveBack i hi hrung => exact hrung.legal (legal_set h i (legal_again _))
  | uncreated i hi | ungrown i hi | arrive i hi | lock i hi hrx | receive i hi hj | leave i hi
  | start i hi | poll i hi hrx | pollLocked i hi hrx | take i hi hj | takeNothing i hi hj
  | retire i hi hq | retry i hi hq | sleep i hi hp | run i hi hp | rouse i hi | sleepOn i hi hp
  | runWoken i hi hp | panic i hi | finish i hi hguards => exact same _ hi rfl

theorem legal_of_reach (h : PoolReach c P p) : p.Legal := by
  induction h with
  | new =>
    intro t ht
    rw [(mem_replicate.mp ht).2]
    rfl
  | step hr hs hp ih => exact hs.legal ih

/-! ## Permits that were never taken back -/

theorem PoolThread.fresh_or_tookBack (h : t.holds) : t.fresh ∨ t.tookBack = true := by
  obtain ⟨kind, phase⟩ := t
  cases phase with
  | running job grow =>
    have hfresh : PoolThread.fresh ⟨kind, .running job grow⟩ = !job.back := by
      rw [PoolThread.fresh, h]
      rfl
    have htook : PoolThread.tookBack ⟨kind, .running job grow⟩ = job.back := by
      rw [PoolThread.tookBack, h]
      rfl
    rw [hfresh, htook]
    cases job.back <;> simp
  | returning back => cases back <;> simp [PoolThread.fresh, PoolThread.tookBack]
  | _ => cases h

theorem PoolThread.holds_of_fresh (h : t.fresh) : t.holds = true := by
  obtain ⟨kind, phase⟩ := t
  cases phase with
  | running job grow => exact (Bool.and_eq_true_iff.mp h).1
  | returning back => rfl
  | _ => cases h

theorem census_fresh_le (p : Pool) : census PoolThread.fresh p.members ≤ p.holders :=
  countP_mono_left fun _ _ => PoolThread.holds_of_fresh

theorem fresh_act {kind : ThreadKind} {job : PoolJob} {a : Act} {sections : Sections} {k : Hook}
    {grow : Bool} (hact : job.sections.act a = some (sections, k))
    (h : PoolThread.fresh ⟨kind, .running
      { job with sections := sections, back := job.back || k.takes } grow⟩) :
    PoolThread.fresh ⟨kind, .running job false⟩ = true := by
  have hgiven := (Sections.act_spec hact).1
  simp only [PoolThread.fresh, PoolThread.holds, Bool.and_eq_true, decide_eq_true_eq,
    Bool.not_eq_true', Bool.or_eq_false_iff] at h ⊢
  obtain ⟨hzero, hback, htakes⟩ := h
  refine ⟨?_, hback⟩
  cases k with
  | back | unlends => cases htakes
  | _ =>
    simp only [Hook.credit] at hgiven
    omega

theorem fresh_again (kind : ThreadKind) : PoolThread.fresh ⟨kind, kind.again⟩ = false := by
  cases kind <;> rfl

theorem census_set_le {q : PoolThread → Bool} {x : PoolThread} (hi : l[i]? = some x)
    (hxy : q y → q x) : census q (l.set i y) ≤ census q l := by
  have hmove := census_move q hi y
  have hle : (q y).toNat ≤ (q x).toNat := by
    cases hy : q y with
    | false => exact Nat.zero_le _
    | true => rw [hxy hy]
  omega

theorem Notified.fresh (hn : Notified l l') :
    census PoolThread.fresh l' ≤ census PoolThread.fresh l := by
  cases hn with
  | nobody => exact le_rfl
  | one k hk =>
    apply census_set_le hk
    exact id

theorem Rung.fresh {b : Bool} (hr : Rung b l l') :
    census PoolThread.fresh l' ≤ census PoolThread.fresh l := by
  cases hr with
  | quiet => exact le_rfl
  | rung hn => exact hn.fresh

theorem fresh_run (hb : Books c p) (hagain : p.again = 0) (hp : 0 < p.state.permits) {i : Nat}
    {x y : PoolThread} (hi : p.members[i]? = some x) :
    census PoolThread.fresh (p.members.set i y) ≤ c.workers := by
  have hmove := census_move PoolThread.fresh hi y
  have hle := census_fresh_le p
  have hpermits := hb.permits
  have hone : (y.fresh).toNat ≤ 1 := Bool.toNat_le _
  rw [hagain] at hpermits
  omega

theorem PoolStep.fresh (hs : PoolStep c who p p') (hb : Books c p) (hagain : p.again = 0)
    (h : census PoolThread.fresh p.members ≤ c.workers) :
    census PoolThread.fresh p'.members ≤ c.workers := by
  have same {i : Nat} {x : PoolThread} (y : PoolThread) (hi : p.members[i]? = some x)
      (hxy : y.fresh = true → x.fresh = true) :
      census PoolThread.fresh (p.members.set i y) ≤ c.workers :=
    (census_set_le hi hxy).trans h
  cases hs with
  | run i hi hp | runWoken i hi hp => exact fresh_run hb hagain hp hi
  | act i hi hpanic hact hst hrung => exact hrung.fresh.trans (same _ hi (fresh_act hact))
  | giveBack i hi hrung =>
    refine hrung.fresh.trans (same _ hi ?_)
    rw [fresh_again]
    exact fun hfalse => absurd hfalse (by decide)
  | submit hst =>
    rw [census_join]
    exact h
  | created i hi =>
    rw [census_join]
    exact same ⟨.outside, .gone⟩ hi id
  | grown i hi =>
    rw [census_join]
    exact same ⟨_, .running _ false⟩ hi id
  | send i hi =>
    apply same _ hi
    split <;> exact id
  | uncreated i hi | ungrown i hi | arrive i hi | lock i hi hrx | receive i hi hj | leave i hi
  | start i hi | poll i hi hrx | pollLocked i hi hrx | take i hi hj | takeNothing i hi hj
  | retire i hi hq | retry i hi hq | sleep i hi hp | rouse i hi | sleepOn i hi hp
  | panic i hi => exact same _ hi id
  | finish i hi hguards =>
    apply same _ hi
    intro hfresh
    simp only [PoolThread.fresh, PoolThread.holds, Sections.given_of_guards_nil hguards]
    exact hfresh

theorem PoolReach.invariant (h : PoolReach c P p) : P p := by
  cases h with
  | new h => exact h
  | step hr hs hp => exact hp

theorem fresh_of_reach (hP : ∀ q, P q → q.again = 0) (h : PoolReach c P p) :
    census PoolThread.fresh p.members ≤ c.workers := by
  induction h with
  | new =>
    have hzero : census PoolThread.fresh (Pool.new c).members = 0 := by
      apply census_eq_zero.mpr
      intro t ht
      rw [(mem_replicate.mp ht).2]
      rfl
    omega
  | step hr hs hp ih => exact hs.fresh (books_of_reach hr) (hP _ hr.invariant) ih

theorem tookBack_of_neg (hP : ∀ q, P q → q.again = 0) (h : PoolReach c P p)
    (hneg : p.state.permits < 0) : ∃ t ∈ p.members, t.tookBack = true := by
  have hfresh := fresh_of_reach hP h
  have hpermits := (books_of_reach h).permits
  rw [hP p h.invariant] at hpermits
  by_contra hnone
  have hall : p.holders ≤ census PoolThread.fresh p.members := by
    apply countP_mono_left
    intro t ht hholds
    apply (PoolThread.fresh_or_tookBack hholds).resolve_right
    exact fun htook => hnone ⟨t, ht, htook⟩
  omega

/-! ## The pool is not stuck -/

theorem exists_notified (l : List PoolThread) : ∃ l', Notified l l' := by
  cases hzero : census PoolThread.sleeps l with
  | zero => exact ⟨l, .nobody hzero⟩
  | succ n =>
    have hpos : 0 < census PoolThread.sleeps l := by omega
    obtain ⟨k, t, hk, ht⟩ := exists_of_census_pos hpos
    obtain ⟨kind, phase⟩ := t
    cases phase with
    | sleeping j => exact ⟨_, .one k hk⟩
    | _ => cases ht

/-- Can the thread move? -/
def Pool.Moves (c : PoolConfig) (p : Pool) (i : Nat) : Prop := ∃ p', PoolStep c (some i) p p'

theorem moves_of_uncounted (hl : p.Legal) (hi : p.members[i]? = some t)
    (ht : t.uncounted.isSome) : p.Moves c i := by
  have hlegal := hl t (mem_of_getElem? hi)
  obtain ⟨kind, phase⟩ := t
  cases phase with
  | sending j grow =>
    obtain rfl : kind = .outside := of_decide_eq_true hlegal
    exact ⟨_, .send i hi⟩
  | leaving j =>
    obtain rfl : kind = .fixed := of_decide_eq_true hlegal
    exact ⟨_, .leave i hi⟩
  | counting j =>
    cases Int.lt_or_le 0 p.state.permits with
    | inl hp => exact ⟨_, .run i hi hp⟩
    | inr hp => exact ⟨_, .sleep i hi hp⟩
  | _ => cases ht

theorem moves_of_locked (hl : p.Legal) (hr : Roster PoolThread.hasRx p.members p.rx.toList)
    {k j : Nat} {rest : List Nat} (hrx : p.rx = some k) (hj : p.channel = j :: rest) :
    p.Moves c k := by
  obtain ⟨t, hk, ht⟩ := (hr.mem_iff k).mp (by rw [hrx]; exact mem_singleton_self k)
  have hlegal := hl t (mem_of_getElem? hk)
  obtain ⟨kind, phase⟩ := t
  cases phase with
  | receiving =>
    obtain rfl : kind = .fixed := of_decide_eq_true hlegal
    exact ⟨_, .receive k hk hj⟩
  | peeking =>
    obtain rfl : kind = .extra := of_decide_eq_true hlegal
    exact ⟨_, .take k hk hj⟩
  | _ => cases ht

theorem moves_of_sleeps (hb : Books c p) (ha : p.Awake)
    (hended : ∀ t ∈ p.members, ∀ job grow, t.phase ≠ .running job grow)
    (hsleeps : 0 < census PoolThread.sleeps p.members) : ∃ i, p.Moves c i := by
  cases hholders : p.holders with
  | succ n =>
    have hpos : 0 < census PoolThread.holds p.members := by
      rw [Pool.holders] at hholders
      omega
    obtain ⟨i, t, hi, ht⟩ := exists_of_census_pos hpos
    have hnot := hended t (mem_of_getElem? hi)
    obtain ⟨kind, phase⟩ := t
    cases phase with
    | running job grow => exact absurd rfl (hnot job grow)
    | returning back =>
      obtain ⟨l', hl'⟩ := exists_notified (p.members.set i ⟨kind, kind.again⟩)
      exact ⟨i, _, .giveBack i hi hl'⟩
    | _ => cases ht
  | zero =>
    have hpermits := hb.permits
    have hpos := c.pos
    have hwoken := ha hsleeps
    rw [hholders] at hpermits
    obtain ⟨i, t, hi, ht⟩ :=
      exists_of_census_pos (p := PoolThread.wakes) (l := p.members) (by omega)
    obtain ⟨kind, phase⟩ := t
    cases phase with
    | woken j => exact ⟨i, _, .runWoken i hi (by omega)⟩
    | _ => cases ht

theorem moves_of_queued (hb : Books c p) (hl : p.Legal)
    (hr : Roster PoolThread.hasRx p.members p.rx.toList) (ha : p.Awake)
    (hended : ∀ t ∈ p.members, ∀ job grow, t.phase ≠ .running job grow)
    (hqueued : 0 < p.state.queued) : ∃ i, p.Moves c i := by
  cases hchannel : p.channel with
  | nil =>
    -- The job is with a thread that is to send it, or to count it.
    have hcensus : (census (fun t => t.uncounted.isSome) p.members : Int) =
        p.state.queued - p.channel.length := (census_eq_tally _ _).trans (hb .queued)
    rw [hchannel] at hcensus
    obtain ⟨i, t, hi, ht⟩ := exists_of_census_pos
      (p := fun t : PoolThread => t.uncounted.isSome) (l := p.members) (by
        simp only [length_nil] at hcensus
        omega)
    exact ⟨i, moves_of_uncounted hl hi ht⟩
  | cons j rest =>
    -- A fixed thread is on its way to the channel, or with a job.
    have hcensus : (census PoolThread.isFixed p.members : Int) = c.workers :=
      (census_eq_tally _ _).trans (hb .fixed)
    have hpos := c.pos
    obtain ⟨i, t, hi, ht⟩ :=
      exists_of_census_pos (p := PoolThread.isFixed) (l := p.members) (by omega)
    have hmem := mem_of_getElem? hi
    have hlegal := hl t hmem
    have hnot := hended t hmem
    obtain ⟨kind, phase⟩ := t
    obtain ⟨halive, hkind⟩ := Bool.and_eq_true_iff.mp ht
    obtain rfl : kind = .fixed := of_decide_eq_true hkind
    cases phase with
    | arriving => exact ⟨i, _, .arrive i hi⟩
    | locking =>
      cases hrx : p.rx with
      | none => exact ⟨i, _, .lock i hi hrx⟩
      | some k => exact ⟨k, moves_of_locked hl hr hrx hchannel⟩
    | receiving => exact ⟨i, _, .receive i hi hchannel⟩
    | leaving j => exact ⟨i, _, .leave i hi⟩
    | counting j => exact ⟨i, moves_of_uncounted hl hi rfl⟩
    | sleeping j => exact moves_of_sleeps hb ha hended (census_pos hi rfl)
    | woken j =>
      cases Int.lt_or_le 0 p.state.permits with
      | inl hp => exact ⟨i, _, .runWoken i hi hp⟩
      | inr hp => exact ⟨i, _, .sleepOn i hi hp⟩
    | running job grow => exact absurd rfl (hnot job grow)
    | returning back =>
      obtain ⟨l', hl'⟩ := exists_notified (p.members.set i ⟨.fixed, ThreadKind.fixed.again⟩)
      exact ⟨i, _, .giveBack i hi hl'⟩
    | gone => cases halive
    | _ => cases hlegal

/-! ## The law -/

/-- What a state of the pool keeps, but for the permits: its threads are within the limit, `queued`
is the number of jobs that were submitted and that no thread has counted, no job is run twice, no
thread sleeps at a free permit where none has been woken, and where a job is queued and no job runs,
a thread can move. -/
structure PoolKept (c : PoolConfig) (p : Pool) : Prop where
  threads : p.state.threads ≤ c.workers + c.maxWaiting
  queued : p.state.queued = ((List.range p.submitted).filter fun j => j ∉ p.counted).length
  once : p.ran.Nodup ∧ ∀ j ∈ p.ran, j < p.submitted
  awake : 0 < census PoolThread.sleeps p.members → 0 < p.state.permits →
    0 < census PoolThread.wakes p.members
  moves : (∀ t ∈ p.members, ∀ job grow, t.phase ≠ .running job grow) → 0 < p.state.queued →
    ∃ i, p.Moves c i

theorem kept_of_reach (h : PoolReach c P p) : PoolKept c p where
  threads := limit_of_reach h
  queued := (books_of_reach h).queued_eq
  once := ⟨(books_of_reach h).nodup_ran, fun _ => (books_of_reach h).lt_of_mem_ran⟩
  awake := fun hsleeps hpermits => by
    have hwakes := awake_of_reach h hsleeps
    omega
  moves := moves_of_queued (books_of_reach h) (legal_of_reach h) (roster_of_reach h)
    (awake_of_reach h)

/-- The pool keeps its accounts, whatever sections its jobs open: the permits and the jobs that hold
one are always the workers. -/
def PoolLaw : Prop :=
  ∀ (c : PoolConfig) (p : Pool), PoolReach c (fun _ => True) p →
    p.state.permits + p.holders = c.workers ∧ PoolKept c p

/-- A pool of one worker. -/
def oneWorker : PoolConfig := ⟨1, 0, by decide⟩

/-- Its job has opened a wait, and lent its permit in it. -/
def lentInWait : Pool :=
  { state := ⟨2, 1, 0, 0, 1, 0⟩
    rx := none
    channel := []
    members :=
      [⟨.fixed, .running ⟨0, Sections.none.waiting.1.lendPermit.1, false, false⟩ false⟩,
        ⟨.outside, .gone⟩]
    submitted := 1
    counted := [0]
    ran := [0] }

theorem reach_lentInWait : PoolReach oneWorker (fun _ => True) lentInWait := by
  have hsubmit := (PoolReach.new (c := oneWorker) (P := fun _ => True) trivial).step
    (.submit rfl) trivial
  have hsend := hsubmit.step (.send 1 rfl) trivial
  have harrive := hsend.step (.arrive 0 rfl) trivial
  have hlock := harrive.step (.lock 0 rfl rfl) trivial
  have hreceive := hlock.step (.receive 0 rfl rfl) trivial
  have hleave := hreceive.step (.leave 0 rfl) trivial
  have hrun := hleave.step (.run 0 rfl (by decide)) trivial
  have hwait := hrun.step
    (.act 0 (a := .waiting) rfl (fun _ => by contradiction) rfl rfl (.rung (.nobody rfl))) trivial
  exact hwait.step
    (.act 0 (a := .lendPermit) rfl (fun _ ↦ by contradiction) rfl rfl (.rung (.nobody rfl))) trivial

/-- A permit that is lent in a wait is there twice. -/
theorem not_poolLaw : ¬ PoolLaw := by
  intro h
  have hpermits := (h oneWorker lentInWait reach_lentInWait).1
  exact absurd hpermits (by decide)

/-- The pool keeps its accounts: the permits and the jobs that hold one are the workers, with what
is lent again while it is lent; and in a run where nothing is, they are in debt only to jobs that
took their permit back. -/
theorem pool_accounts (c : PoolConfig) (P : Pool → Prop) (p : Pool) (h : PoolReach c P p) :
    p.state.permits + p.holders = c.workers + p.again ∧ PoolKept c p ∧
      ((∀ q, P q → q.again = 0) → p.state.permits < 0 → ∃ t ∈ p.members, t.tookBack = true) :=
  ⟨(books_of_reach h).permits, kept_of_reach h, fun hP hneg => tookBack_of_neg hP h hneg⟩

theorem pool_accounts_lent :
    lentInWait.state.permits + lentInWait.holders = oneWorker.workers + lentInWait.again :=
  (pool_accounts oneWorker (fun _ => True) lentInWait reach_lentInWait).1

end Synsema.Server
