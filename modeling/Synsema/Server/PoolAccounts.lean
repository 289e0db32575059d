import Synsema.Server.PoolBooks

/-!
# What the pool keeps

The books are balanced in every state of every run (`books_of_reach`).  With them: the threads stay
under their limit, the receiver is locked by one thread at most, and where a permit is free a thread
that sleeps is not alone, as enough threads have been woken (`Pool.Awake`).

A permit that is lent again while it is lent is there twice.  Nothing else lets the permits and the
jobs that hold one differ from the workers (`pool_accounts`).
-/

namespace Synsema.Server

open Census List

/-- Is the receiver locked by the thread? -/
def PoolThread.hasRx (t : PoolThread) : Bool :=
  match t.phase with
  | .receiving | .peeking => true
  | _ => false

/-- Does its job hold a permit that it never took back? -/
def PoolThread.fresh (t : PoolThread) : Bool :=
  match t.phase with
  | .running job _ => t.holds && !job.back
  | .returning back => !back
  | _ => false

/-- Does its job hold a permit that it took back? -/
def PoolThread.tookBack (t : PoolThread) : Bool :=
  match t.phase with
  | .running job _ => t.holds && job.back
  | .returning back => back
  | _ => false

namespace Pool

/-- How often permits are lent again, while they are lent. -/
def again (p : Pool) : Nat := tally PoolThread.again p.members

/-- How many jobs hold a permit. -/
def holders (p : Pool) : Nat := census PoolThread.holds p.members

/-- Where a thread sleeps, a thread has been woken for each permit that is free. -/
def Awake (p : Pool) : Prop :=
  0 < census PoolThread.sleeps p.members → p.state.permits ≤ census PoolThread.wakes p.members

end Pool

variable {c : PoolConfig} {P : Pool → Prop} {p p' : Pool} {who : Option Nat}

/-! ## The books of a run -/

theorem books_of_reach (h : PoolReach c P p) : Books c p := by
  induction h with
  | new => exact Books.new c
  | step hr hs hp ih => exact ih.step hs

theorem Books.permits (h : Books c p) : p.state.permits + p.holders = c.workers + p.again := by
  have htaken : ∀ l : List PoolThread, tally PoolThread.taken l =
      (census PoolThread.holds l : Int) - (tally PoolThread.again l : Nat) := by
    intro l
    induction l with
    | nil => rfl
    | cons t l ih =>
      have hcons (M : Type) [AddCommMonoid M] (w : PoolThread → M) :
          tally w (t :: l) = w t + tally w l := rfl
      rw [hcons, hcons, ih, t.taken_eq, census_eq_tally, census_eq_tally, hcons]
      push_cast
      ring
  have hp : tally PoolThread.taken p.members = c.workers - p.state.permits := h .permits
  rw [htaken] at hp
  simp only [Pool.holders, Pool.again]
  omega

/-! ## The limit of the threads -/

theorem PoolStep.limit (hs : PoolStep c who p p') (h : p.state.threads ≤ c.maxThreads) :
    p'.state.threads ≤ c.maxThreads := by
  cases hs with
  | submit hst => exact (PoolState.reserveExtra_spec hst).2 h
  | act i hi hpanic hact hst hrung => exact (PoolState.hooked_spec hst).2.2.2.2.2.2 h
  | uncreated i hi | ungrown i hi | retire i hi hq => exact (Nat.sub_le _ _).trans h
  | _ => exact h

theorem limit_of_reach (h : PoolReach c P p) : p.state.threads ≤ c.maxThreads := by
  induction h with
  | new => exact Nat.le_add_right _ _
  | step hr hs hp ih => exact hs.limit ih

/-! ## The receiver -/

variable {l l' : List PoolThread}

variable {places : List Nat}

theorem Notified.roster (h : Roster PoolThread.hasRx l places) (hn : Notified l l') :
    Roster PoolThread.hasRx l' places := by
  cases hn with
  | nobody => exact h
  | one k hk => exact h.stay hk rfl

theorem Rung.roster {b : Bool} (h : Roster PoolThread.hasRx l places) (hr : Rung b l l') :
    Roster PoolThread.hasRx l' places := by
  cases hr with
  | quiet => exact h
  | rung hn => exact hn.roster h

theorem hasRx_again (kind : ThreadKind) : PoolThread.hasRx ⟨kind, kind.again⟩ = false := by
  cases kind <;> rfl

theorem PoolStep.roster (hs : PoolStep c who p p')
    (h : Roster PoolThread.hasRx p.members p.rx.toList) :
    Roster PoolThread.hasRx p'.members p'.rx.toList := by
  have unlock {i : Nat} {x : PoolThread} (y : PoolThread) (hi : p.members[i]? = some x)
      (hx : x.hasRx = true) (hy : y.hasRx = false) :
      Roster PoolThread.hasRx (p.members.set i y) [] := by
    have hmem : i ∈ p.rx.toList := (h.mem_iff i).mpr ⟨x, hi, hx⟩
    have hleave := h.leave hi hy
    rw [Option.mem_toList.mp hmem] at hleave
    simpa using hleave
  cases hs with
  | submit hst => exact h.join rfl
  | send i hi => exact h.stay hi (by split <;> rfl)
  | created i hi | grown i hi =>
    refine (h.stay hi ?_).join ?_
    · rfl
    · rfl
  | lock i hi hrx | poll i hi hrx =>
    rw [hrx] at h
    exact h.enter hi rfl rfl
  | receive i hi hj | take i hi hj | takeNothing i hi hj => exact unlock _ hi rfl rfl
  | act i hi hpanic hact hst hrung =>
    apply hrung.roster
    exact h.stay hi rfl
  | giveBack i hi hrung =>
    apply hrung.roster
    exact h.stay hi (hasRx_again _).symm
  | uncreated i hi | ungrown i hi | arrive i hi | leave i hi | start i hi | pollLocked i hi hrx
  | retire i hi hq | retry i hi hq | sleep i hi hp | run i hi hp | rouse i hi | sleepOn i hi hp
  | runWoken i hi hp | panic i hi | finish i hi hguards => exact h.stay hi rfl

theorem roster_of_reach (h : PoolReach c P p) : Roster PoolThread.hasRx p.members p.rx.toList := by
  induction h with
  | new =>
    refine ⟨nodup_nil, fun i => ?_⟩
    simp only [Pool.new, Option.toList_none, not_mem_nil, false_iff]
    rintro ⟨x, hx, hrx⟩
    rw [(mem_replicate.mp (mem_of_getElem? hx)).2] at hrx
    cases hrx
  | step hr hs hp ih => exact hs.roster ih

/-! ## Threads that sleep -/

theorem Notified.sleeps_or (hn : Notified l l') :
    census PoolThread.sleeps l' = 0 ∨ census PoolThread.wakes l' = census PoolThread.wakes l + 1 := by
  cases hn with
  | nobody h => exact Or.inl h
  | @one k kind j hk => exact Or.inr (census_move PoolThread.wakes hk ⟨kind, .woken j⟩)

theorem Notified.sleeps_le (hn : Notified l l') :
    census PoolThread.sleeps l' ≤ census PoolThread.sleeps l := by
  cases hn with
  | nobody => exact le_rfl
  | @one k kind j hk =>
    have hsleeps := census_move PoolThread.sleeps hk ⟨kind, .woken j⟩
    exact (Nat.le_add_right _ _).trans hsleeps.le

namespace Pool.Awake

variable {i : Nat}

variable {y : PoolThread} {j : Nat} {kind : ThreadKind}

theorem stay (h : p.Awake) {x : PoolThread} (hi : p.members[i]? = some x)
    (hm : p'.members = p.members.set i y) (hs : x.sleeps = y.sleeps) (hw : x.wakes = y.wakes)
    (hp : p'.state.permits ≤ p.state.permits) : p'.Awake := by
  have hsleeps := census_move PoolThread.sleeps hi y
  have hwakes := census_move PoolThread.wakes hi y
  rw [hs] at hsleeps
  rw [hw] at hwakes
  intro hpos
  rw [hm] at hpos ⊢
  have hold := h (by omega)
  omega

theorem join (h : p.Awake) (hm : p'.members = p.members ++ [y]) (hs : y.sleeps = false)
    (hw : y.wakes = false) (hp : p'.state.permits ≤ p.state.permits) : p'.Awake := by
  intro hpos
  rw [hm, census_join, hs] at hpos
  have hold := h hpos
  rw [hm, census_join, hw]
  exact (hp.trans hold).trans (by simp)

theorem notified (h : p.Awake) (hn : Notified p.members p'.members)
    (hp : p'.state.permits ≤ p.state.permits + 1) : p'.Awake := by
  intro hpos
  have hcensus := hn.sleeps_or
  have hbefore := hn.sleeps_le.trans_lt' hpos
  have hold := h hbefore
  omega

theorem of_nonpos (h : p.state.permits ≤ 0) : p.Awake :=
  fun _ => h.trans (Int.natCast_nonneg _)

theorem runWoken (h : p.Awake) (hi : p.members[i]? = some ⟨kind, .woken j⟩) :
    (p.run i kind j).Awake := by
  have hsleeps : _ + 0 = _ + 0 :=
    census_move PoolThread.sleeps hi ⟨kind, .running ⟨j, .none, false, false⟩ false⟩
  have hwakes : _ + 1 = _ + 0 :=
    census_move PoolThread.wakes hi ⟨kind, .running ⟨j, .none, false, false⟩ false⟩
  intro hpos
  simp only [Pool.run] at hpos ⊢
  have hold := h (by omega)
  omega

theorem rouse (h : p.Awake) (hi : p.members[i]? = some ⟨kind, .sleeping j⟩) :
    (p.move i ⟨kind, .woken j⟩).Awake := by
  have hwakes : _ + 0 = _ + 1 := census_move PoolThread.wakes hi ⟨kind, .woken j⟩
  intro _
  simp only [Pool.move] at hwakes ⊢
  have hold := h (census_pos hi rfl)
  omega

end Pool.Awake

theorem PoolStep.awake (hs : PoolStep c who p p') (h : p.Awake) : p'.Awake := by
  cases hs with
  | submit hst =>
    obtain ⟨rfl, -⟩ := PoolState.reserveExtra_spec hst
    exact h.join rfl rfl rfl le_rfl
  | send i hi => exact h.stay hi rfl (by split <;> rfl) (by split <;> rfl) le_rfl
  | created i hi =>
    have hset : (p.move i ⟨.outside, .gone⟩).Awake := h.stay hi rfl rfl rfl le_rfl
    exact hset.join rfl rfl rfl le_rfl
  | @grown _ i kind job hi =>
    have hset : (p.move i ⟨kind, .running job false⟩).Awake := h.stay hi rfl rfl rfl le_rfl
    exact hset.join rfl rfl rfl le_rfl
  | sleep i hi hp | sleepOn i hi hp => exact .of_nonpos hp
  | run i hi hp => exact h.stay hi rfl rfl rfl (Int.sub_le_self _ (by decide))
  | runWoken i hi hp => exact h.runWoken hi
  | rouse i hi => exact h.rouse hi
  | @act _ i kind job a sections k st grow members hi hpanic hact hst hrung =>
    have hpermits := (PoolState.hooked_spec hst).1
    have hset : (p.move i ⟨kind, .running
        { job with sections := sections, back := job.back || k.takes } grow⟩).Awake :=
      h.stay hi rfl rfl rfl le_rfl
    cases k with
    | waits | lends =>
      cases hrung with
      | rung hn => exact hset.notified hn hpermits.le
    | quiet | back | unlends =>
      cases hrung
      exact h.stay hi rfl rfl rfl (by simp only [hpermits, Hook.credit]; omega)
  | @giveBack _ i kind back members hi hrung =>
    have hset : (p.move i ⟨kind, kind.again⟩).Awake :=
      h.stay hi rfl (by cases kind <;> rfl) (by cases kind <;> rfl) le_rfl
    exact hset.notified hrung le_rfl
  | uncreated i hi | ungrown i hi | arrive i hi | lock i hi hrx | receive i hi hj | leave i hi
  | start i hi | poll i hi hrx | pollLocked i hi hrx | take i hi hj | takeNothing i hi hj
  | retire i hi hq | retry i hi hq | panic i hi
  | finish i hi hguards => exact h.stay hi rfl rfl rfl le_rfl

theorem awake_of_reach (h : PoolReach c P p) : p.Awake := by
  induction h with
  | new =>
    intro hpos
    have hzero : census PoolThread.sleeps (Pool.new c).members = 0 := by
      apply census_eq_zero.mpr
      intro t ht
      rw [(mem_replicate.mp ht).2]
      rfl
    omega
  | step hr hs hp ih => exact hs.awake ih

end Synsema.Server
