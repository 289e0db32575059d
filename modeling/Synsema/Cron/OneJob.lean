import Synsema.Cron.Model

/-!
# One live job under a name

As long as no registration finds a job under its name that goes on when it comes to insert its own,
every job that goes on is the one the table holds under its name (`one_live_job`).  Where two
registrations of one name have both cancelled before either inserts, the first that does is lost to
the table, and ticks on (`not_one_live_job`).
-/

namespace Synsema.Cron

open Text List

/-! ## What is said of a state -/

/-- The job has not ended: its task waits for `start`, or is on a thread. -/
def Job.Live (j : Job) : Prop := j.pending = true ∨ j.phase.ticks = true

/-- What is said of a state.  A task that waits for `start`, and a thread that goes on and is not
cancelled, is of the job the table holds under its name; `cancel` takes a job out of the table and
sets its flag, and of a job whose flag is set at most the tick still runs that has already passed its
last look at the flag; no job is started twice, and once jobs are, every job is that is not
cancelled; the counters of a job are its finished ticks, beside which there is at most one. -/
structure OneLiveJob (s : CronScheduler) : Prop where
  reached : ∀ (i : Nat) (j : Job), s.jobs[i]? = some j →
    (j.pending = true ∨ j.phase.ticks = true ∧ j.cancelled = false) → s.table.get? j.name = some i
  cancels : ∀ (name : Text) (i : Nat), s.table.get? name = some i →
    (s.cancel name).table.get? name = none ∧
      ∃ j, (s.cancel name).jobs[i]? = some j ∧ j.name = name ∧ j.cancelled = true
  stops : ∀ (i : Nat) (j : Job), s.jobs[i]? = some j → j.cancelled = true →
    ∀ s', Runs (fun _ _ => True) s s' → ∃ j', s'.jobs[i]? = some j' ∧ j'.cancelled = true ∧
      j'.begun ≤ j.begun + (decide (j.phase = .passed)).toNat
  once : ∀ (i : Nat) (j : Job), s.jobs[i]? = some j → j.spawned ≤ 1
  started : ∀ (i : Nat) (j : Job), s.jobs[i]? = some j → s.started = true → j.cancelled = false →
    j.spawned = 1
  counts : ∀ (i : Nat) (j : Job), s.jobs[i]? = some j →
    j.runCount + j.errors + j.phase.inTick.toNat = j.begun

/-- What is kept of a job. -/
structure Job.Kept (started : Bool) (j : Job) : Prop where
  once : j.spawned ≤ 1
  unborn : j.spawned = 0 ↔ j.phase = .unborn
  waits : j.pending = true → j.spawned = 0 ∧ j.cancelled = false ∧ started = false
  runs : j.cancelled = false → j.pending = false → j.spawned = 1
  counts : j.runCount + j.errors + j.phase.inTick.toNat = j.begun

/-- What is kept of the scheduler: the jobs of the table are not cancelled, and every job is there
that is not cancelled and has not ended. -/
structure Kept (s : CronScheduler) : Prop where
  named : ∀ (name : Text) (i : Nat), s.table.get? name = some i →
    ∃ j, s.jobs[i]? = some j ∧ j.name = name ∧ j.cancelled = false
  held : ∀ (i : Nat) (j : Job), s.jobs[i]? = some j → j.cancelled = false → j.Live →
    s.table.get? j.name = some i
  job : ∀ (i : Nat) (j : Job), s.jobs[i]? = some j → j.Kept s.started

/-- No job has the name that goes on. -/
def Replaceable (s : CronScheduler) (name : Text) : Prop :=
  ∀ (i : Nat) (j : Job), s.table.get? name = some i → s.jobs[i]? = some j → ¬ j.Live

/-- A registration inserts only where no job has its name that goes on. -/
def Fresh (s : CronScheduler) : Act → Prop
  | .insert c => ∀ name schedule, s.calls c = some (name, schedule) → Replaceable s name
  | _ => True

/-! ## Jobs -/

namespace Job

variable {started : Bool} {j : Job}

theorem Kept.cancel (h : j.Kept started) : j.cancel.Kept started where
  once := h.once
  unborn := h.unborn
  waits := nofun
  runs := nofun
  counts := h.counts

theorem kept_new (name : Text) (schedule : Schedule) : (new name schedule).Kept false where
  once := Nat.zero_le _
  unborn := iff_of_true rfl rfl
  waits _ := ⟨rfl, rfl, rfl⟩
  runs := nofun
  counts := rfl

theorem Kept.spawn (h : j.Kept started) (hs : j.spawned = 0) (started' : Bool) :
    j.spawn.Kept started' where
  once := by rw [Job.spawn, hs]
  unborn := iff_of_false (Nat.succ_ne_zero _) nofun
  waits := nofun
  runs _ _ := by rw [Job.spawn, hs]
  counts := by
    have := h.counts
    rw [h.unborn.mp hs] at this
    exact this

theorem live_of_start (h : j.start.Live) : j.Live := by
  by_cases hpending : j.pending = true
  · exact .inl hpending
  · rwa [Job.start, if_neg hpending] at h

theorem dropHandle_of_not_live (h : ¬ j.Live) : j.dropHandle = j := by
  have hpending : j.pending = false := Bool.eq_false_iff.mpr fun hp => h (.inl hp)
  rw [Job.dropHandle, ← hpending]

end Job

namespace Tick

variable {busy : Bool} {j j' : Job}

theorem same (h : Tick busy j j') : j'.name = j.name ∧ j'.cancelled = j.cancelled ∧
    j'.pending = j.pending ∧ j'.spawned = j.spawned := by
  cases h <;> exact ⟨rfl, rfl, rfl, rfl⟩

theorem ticks (h : Tick busy j j') : j.phase.ticks = true := by
  cases h with
  | stop h hc | wake h hc | due h hc | leave h | quit h hc | pass h hc | begin h | finish ok h hb
  | panic h hb | count h => rw [h]; rfl

theorem born (h : Tick busy j j') : j.phase ≠ .unborn ∧ j'.phase ≠ .unborn := by
  cases h with
  | count h =>
    refine ⟨by rw [h]; nofun, ?_⟩
    rw [Job.counted]
    dsimp only
    split_ifs <;> nofun
  | stop h hc | wake h hc | due h hc | leave h | quit h hc | pass h hc | begin h | finish ok h hb
  | panic h hb => exact ⟨by rw [h]; nofun, nofun⟩

theorem counts (h : Tick busy j j') (hj : j.runCount + j.errors + j.phase.inTick.toNat = j.begun) :
    j'.runCount + j'.errors + j'.phase.inTick.toNat = j'.begun := by
  cases h with
  | begin h =>
    rw [h] at hj
    exact congrArg (· + 1) hj
  | count h =>
    rename_i ok
    rw [h] at hj
    have hphase : (j.counted ok).phase.inTick = false := by
      rw [Job.counted]
      dsimp only
      split_ifs <;> rfl
    rw [hphase, Job.counted]
    cases ok with
    | true => exact (Nat.add_right_comm j.runCount 1 j.errors).trans hj
    | false => exact hj
  | stop h hc | wake h hc | due h hc | leave h | quit h hc | pass h hc | finish ok h hb
  | panic h hb =>
    rw [h] at hj
    exact hj

theorem kept {started : Bool} (h : Tick busy j j') (hj : j.Kept started) : j'.Kept started := by
  obtain ⟨-, hcancelled, hpending, hspawned⟩ := h.same
  have hborn : j.spawned ≠ 0 := mt hj.unborn.mp h.born.1
  refine ⟨?_, ?_, ?_, ?_, h.counts hj.counts⟩
  · rw [hspawned]
    exact hj.once
  · rw [hspawned]
    exact iff_of_false hborn h.born.2
  · rw [hpending, hspawned, hcancelled]
    exact hj.waits
  · rw [hcancelled, hpending, hspawned]
    exact hj.runs

end Tick

/-! ## Steps -/

namespace CronScheduler

theorem getElem?_onJobs (s : CronScheduler) (p : Nat → Bool) (f : Job → Job) (i : Nat) :
    (s.onJobs p f).jobs[i]? = s.jobs[i]?.map fun j => if p i then f j else j :=
  getElem?_mapIdx

theorem held_iff {s : CronScheduler} {i : Nat} : s.held i ↔ ∃ name, s.table.get? name = some i := by
  rw [held, contains_iff_mem, OrderedMap.values, mem_map]
  constructor
  · rintro ⟨⟨name, i⟩, h, rfl⟩
    exact ⟨name, OrderedMap.get?_eq_some.mpr h⟩
  · rintro ⟨name, h⟩
    exact ⟨(name, i), OrderedMap.get?_eq_some.mp h, rfl⟩

end CronScheduler

namespace Kept

variable {s : CronScheduler}

theorem new (started : Bool) : Kept (.new started) where
  named name i h := by cases h
  held i j h := by cases h
  job i j h := by cases h

theorem setCall (h : Kept s) (c : Caller) (call : Option (Text × Schedule)) :
    Kept (s.setCall c call) :=
  ⟨h.named, h.held, h.job⟩

theorem cancel (h : Kept s) (name : Text) : Kept (s.cancel name) := by
  rw [CronScheduler.cancel]
  cases hname : s.table.get? name with
  | none => exact h
  | some i =>
    obtain ⟨job, hjob, hjobname, -⟩ := h.named name i hname
    refine ⟨fun name' k hk => ?_, fun k j hk hj hlive => ?_, fun k j hk => ?_⟩
    · -- another name has another job
      have hne : name' ≠ name := by
        rintro rfl
        rw [OrderedMap.get?_shiftRemove_self] at hk
        cases hk
      rw [OrderedMap.get?_shiftRemove_of_ne _ hne] at hk
      obtain ⟨j, hj, hj'⟩ := h.named name' k hk
      have hki : k ≠ i := by
        rintro rfl
        obtain rfl := Option.some.inj (hjob.symm.trans hj)
        exact hne (hj'.1.symm.trans hjobname)
      refine ⟨j, ?_, hj'⟩
      change (s.onJobs _ _).jobs[k]? = _
      rw [CronScheduler.getElem?_onJobs, hj, beq_false_of_ne hki]
      rfl
    · change (s.onJobs _ _).jobs[k]? = _ at hk
      rw [CronScheduler.getElem?_onJobs] at hk
      obtain ⟨j', hj', rfl⟩ := Option.map_eq_some_iff.mp hk
      by_cases hki : k = i
      · rw [beq_iff_eq.mpr hki] at hj
        cases hj
      · rw [beq_false_of_ne hki] at hj hlive ⊢
        have hheld := h.held k j' hj' hj hlive
        have hne : j'.name ≠ name := by
          intro he
          rw [he, hname] at hheld
          exact hki (Option.some.inj hheld).symm
        exact (OrderedMap.get?_shiftRemove_of_ne _ hne).trans hheld
    · change (s.onJobs _ _).jobs[k]? = _ at hk
      rw [CronScheduler.getElem?_onJobs] at hk
      obtain ⟨j', hj', rfl⟩ := Option.map_eq_some_iff.mp hk
      by_cases hki : (k == i) = true
      · rw [if_pos hki]
        exact (h.job k j' hj').cancel
      · rw [if_neg hki]
        exact h.job k j' hj'

theorem cancelAll (h : Kept s) : Kept s.cancelAll := by
  refine ⟨fun name k hk => ?_, fun k j hk hj hlive => ?_, fun k j hk => ?_⟩
  · cases hk
  · change (s.onJobs _ _).jobs[k]? = _ at hk
    rw [CronScheduler.getElem?_onJobs] at hk
    obtain ⟨j', hj', rfl⟩ := Option.map_eq_some_iff.mp hk
    by_cases hheld : s.held k = true
    · rw [if_pos hheld] at hj
      cases hj
    · rw [if_neg hheld] at hj
      rw [if_neg hheld] at hlive
      exact absurd (CronScheduler.held_iff.mpr ⟨_, h.held k j' hj' hj hlive⟩) hheld
  · change (s.onJobs _ _).jobs[k]? = _ at hk
    rw [CronScheduler.getElem?_onJobs] at hk
    obtain ⟨j', hj', rfl⟩ := Option.map_eq_some_iff.mp hk
    by_cases hheld : s.held k = true
    · rw [if_pos hheld]
      exact (h.job k j' hj').cancel
    · rw [if_neg hheld]
      exact h.job k j' hj'

theorem start (h : Kept s) : Kept s.start := by
  have hsame : ∀ j : Job, j.start.name = j.name ∧ j.start.cancelled = j.cancelled := by
    intro j
    rw [Job.start]
    split_ifs <;> exact ⟨rfl, rfl⟩
  refine ⟨fun name k hk => ?_, fun k j hk hj hlive => ?_, fun k j hk => ?_⟩
  · obtain ⟨j, hj, hname, hcancelled⟩ := h.named name k hk
    have hheld : s.held k := CronScheduler.held_iff.mpr ⟨name, hk⟩
    refine ⟨j.start, ?_, (hsame j).1.trans hname, (hsame j).2.trans hcancelled⟩
    change (s.onJobs _ _).jobs[k]? = _
    rw [CronScheduler.getElem?_onJobs, hj, Option.map_some, if_pos hheld]
  · change (s.onJobs _ _).jobs[k]? = _ at hk
    rw [CronScheduler.getElem?_onJobs] at hk
    obtain ⟨j', hj', rfl⟩ := Option.map_eq_some_iff.mp hk
    by_cases hheld : s.held k = true
    · rw [if_pos hheld] at hj hlive ⊢
      rw [(hsame j').1]
      exact h.held k j' hj' ((hsame j').2.symm.trans hj) (Job.live_of_start hlive)
    · rw [if_neg hheld] at hj hlive ⊢
      exact h.held k j' hj' hj hlive
  · change (s.onJobs _ _).jobs[k]? = _ at hk
    rw [CronScheduler.getElem?_onJobs] at hk
    obtain ⟨j', hj', rfl⟩ := Option.map_eq_some_iff.mp hk
    have hjob := h.job k j' hj'
    by_cases hpending : j'.pending = true
    · -- a job that waits is in the table
      have hheld := CronScheduler.held_iff.mpr ⟨_, h.held k j' hj' (hjob.waits hpending).2.1 (.inl hpending)⟩
      rw [if_pos hheld, Job.start, if_pos hpending]
      exact hjob.spawn (hjob.waits hpending).1 true
    · have hsame : (if s.held k = true then j'.start else j') = j' := by
        rw [Job.start, if_neg hpending, ite_self]
      rw [hsame]
      exact ⟨hjob.once, hjob.unborn, fun hp => absurd hp hpending, hjob.runs, hjob.counts⟩

theorem insert (h : Kept s) {name : Text} {schedule : Schedule}
    (hfresh : Replaceable s name) : Kept (s.insert name schedule) := by
  have hold : (s.onJobs (fun i => s.table.get? name == some i) Job.dropHandle).jobs = s.jobs := by
    refine ext_getElem? fun i => ?_
    rw [CronScheduler.getElem?_onJobs]
    cases hi : s.jobs[i]? with
    | none => rfl
    | some j =>
      rw [Option.map_some]
      by_cases hname : (s.table.get? name == some i) = true
      · -- the job that has the name has ended
        have hended := hfresh i j (beq_iff_eq.mp hname) hi
        rw [if_pos hname, Job.dropHandle_of_not_live hended]
      · rw [if_neg hname]
  have hnew : (if s.started then (Job.new name schedule).spawn else Job.new name schedule).Kept
      s.started := by
    cases s.started with
    | true => exact (Job.kept_new name schedule).spawn rfl true
    | false => exact Job.kept_new name schedule
  have hname : (if s.started then (Job.new name schedule).spawn else Job.new name schedule).name =
      name := by
    split_ifs <;> rfl
  have hcancelled : (if s.started then (Job.new name schedule).spawn else
      Job.new name schedule).cancelled = false := by
    split_ifs <;> rfl
  rw [CronScheduler.insert, hold]
  generalize (if s.started then (Job.new name schedule).spawn else Job.new name schedule) = job at *
  -- a job of the list is an old one or the new one
  have hcases : ∀ {k : Nat} {j : Job}, (s.jobs ++ [job])[k]? = some j →
      s.jobs[k]? = some j ∨ k = s.jobs.length ∧ j = job := by
    intro k j hk
    rcases lt_trichotomy k s.jobs.length with hlt | rfl | hgt
    · rw [getElem?_append_left hlt] at hk
      exact .inl hk
    · rw [getElem?_concat_length] at hk
      exact .inr ⟨rfl, (Option.some.inj hk).symm⟩
    · rw [getElem?_eq_none (by rw [length_append, length_singleton]; omega)] at hk
      cases hk
  refine ⟨fun name' k hk => ?_, fun k j hk hj hlive => ?_, fun k j hk => ?_⟩
  · change (s.table.insert _ _).get? _ = _ at hk
    rw [OrderedMap.get?_insert] at hk
    by_cases he : name' = name
    · rw [if_pos he] at hk
      obtain rfl := Option.some.inj hk
      exact ⟨job, getElem?_concat_length, hname.trans he.symm, hcancelled⟩
    · rw [if_neg he] at hk
      obtain ⟨j, hj, hj'⟩ := h.named name' k hk
      exact ⟨j, getElem?_append_left (List.getElem?_eq_some_iff.mp hj).1 ▸ hj, hj'⟩
  · change (s.table.insert _ _).get? _ = _
    rw [OrderedMap.get?_insert]
    rcases hcases hk with hk | ⟨rfl, rfl⟩
    · have hheld := h.held k j hk hj hlive
      have hne : j.name ≠ name := by
        intro he
        exact hfresh k j (he ▸ hheld) hk hlive
      rw [if_neg hne, hheld]
    · rw [if_pos hname]
  · rcases hcases hk with hk | ⟨rfl, rfl⟩
    · exact h.job k j hk
    · exact hnew

theorem tick (h : Kept s) {i : Nat} {busy : Bool} {j j' : Job} (hi : s.jobs[i]? = some j)
    (htick : Tick busy j j') : Kept { s with jobs := s.jobs.set i j' } := by
  obtain ⟨hname, hcancelled, -, -⟩ := htick.same
  have hlt := (List.getElem?_eq_some_iff.mp hi).1
  refine ⟨fun name k hk => ?_, fun k job hk hjob hlive => ?_, fun k job hk => ?_⟩
  · obtain ⟨job, hjob, hn, hc⟩ := h.named name k hk
    by_cases hki : i = k
    · subst hki
      obtain rfl := Option.some.inj (hi.symm.trans hjob)
      exact ⟨j', getElem?_set_self hlt, hname.trans hn, hcancelled.trans hc⟩
    · exact ⟨job, (getElem?_set_ne hki).trans hjob, hn, hc⟩
  · by_cases hki : i = k
    · subst hki
      obtain rfl := Option.some.inj ((getElem?_set_self hlt).symm.trans hk)
      rw [hname]
      exact h.held i j hi (hcancelled.symm.trans hjob) (.inr htick.ticks)
    · exact h.held k job ((getElem?_set_ne hki).symm.trans hk) hjob hlive
  · by_cases hki : i = k
    · subst hki
      obtain rfl := Option.some.inj ((getElem?_set_self hlt).symm.trans hk)
      exact htick.kept (h.job i j hi)
    · exact h.job k job ((getElem?_set_ne hki).symm.trans hk)

variable {s' : CronScheduler}

theorem step (h : Kept s) {a : Act} (hstep : Step a s s') (hfresh : Fresh s a) : Kept s' := by
  cases hstep with
  | register hfree name schedule => exact (h.cancel name).setCall _ _
  | insert hcall => exact (h.insert (hfresh _ _ hcall)).setCall _ _
  | cancel hfree name => exact h.cancel name
  | cancelAll hfree => exact h.cancelAll
  | start hfree => exact h.start
  | tick hi htick => exact h.tick hi htick

theorem runs (h : Kept s) (hruns : Runs Fresh s s') : Kept s' := by
  induction hruns with
  | refl => exact h
  | snoc _ hfresh hstep ih => exact ih.step hstep hfresh

end Kept

/-! ## After the flag is set -/

namespace Job

/-- The ticks that have begun, with the one that is to begin whatever the flag is. -/
def due (j : Job) : Nat := j.begun + (decide (j.phase = .passed)).toNat

/-- What becomes of a job whose flag is set: the flag stays set, and no tick is due that was not. -/
def Stopping (j j' : Job) : Prop := j.cancelled = true → j'.cancelled = true ∧ j'.due ≤ j.due

theorem Stopping.refl (j : Job) : j.Stopping j := fun h => ⟨h, le_rfl⟩

theorem Stopping.trans {j j' j'' : Job} (h : j.Stopping j') (h' : j'.Stopping j'') :
    j.Stopping j'' := by
  intro hj
  obtain ⟨hj', hle⟩ := h hj
  obtain ⟨hj'', hle'⟩ := h' hj'
  exact ⟨hj'', hle'.trans hle⟩

theorem stopping_cancel (j : Job) : j.Stopping j.cancel := fun _ => ⟨rfl, le_rfl⟩

theorem stopping_dropHandle (j : Job) : j.Stopping j.dropHandle := fun h => ⟨h, le_rfl⟩

theorem stopping_start (j : Job) : j.Stopping j.start := by
  intro h
  rw [start]
  split_ifs with hpending
  · exact ⟨h, Nat.le_add_right _ _⟩
  · exact ⟨h, le_rfl⟩

end Job

theorem Tick.stopping {busy : Bool} {j j' : Job} (h : Tick busy j j') : j.Stopping j' := by
  intro hj
  refine ⟨h.same.2.1.trans hj, ?_⟩
  cases h with
  | wake h hc | pass h hc => exact absurd (hj.symm.trans hc) nofun
  | begin h =>
    rw [Job.due, Job.due, h]
    exact le_rfl
  | count h =>
    rw [Job.due, Job.counted]
    dsimp only
    split_ifs <;> exact Nat.le_add_right _ _
  | stop h hc | due h hc | leave h | quit h hc | finish ok h hb | panic h hb =>
    exact Nat.le_add_right _ _

namespace CronScheduler

/-- The jobs stay, each as it may. -/
def Stopping (s s' : CronScheduler) : Prop :=
  ∀ (i : Nat) (j : Job), s.jobs[i]? = some j → ∃ j', s'.jobs[i]? = some j' ∧ j.Stopping j'

theorem Stopping.refl (s : CronScheduler) : s.Stopping s := fun _ j h => ⟨j, h, .refl j⟩

theorem Stopping.trans {s s' s'' : CronScheduler} (h : s.Stopping s') (h' : s'.Stopping s'') :
    s.Stopping s'' := by
  intro i j hi
  obtain ⟨j', hi', hj⟩ := h i j hi
  obtain ⟨j'', hi'', hj'⟩ := h' i j' hi'
  exact ⟨j'', hi'', hj.trans hj'⟩

theorem stopping_onJobs (s : CronScheduler) (p : Nat → Bool) {f : Job → Job}
    (hf : ∀ j : Job, j.Stopping (f j)) : s.Stopping (s.onJobs p f) := by
  intro i j hi
  refine ⟨_, (getElem?_onJobs s p f i).trans (congrArg _ hi), ?_⟩
  dsimp only
  split_ifs
  · exact hf j
  · exact .refl j

theorem stopping_cancel (s : CronScheduler) (name : Text) : s.Stopping (s.cancel name) := by
  rw [cancel]
  cases s.table.get? name with
  | none => exact .refl s
  | some i => exact stopping_onJobs s _ Job.stopping_cancel

theorem stopping_insert (s : CronScheduler) (name : Text) (schedule : Schedule) :
    s.Stopping (s.insert name schedule) := by
  intro i j hi
  obtain ⟨j', hi', hj⟩ := stopping_onJobs s _ Job.stopping_dropHandle i j hi
  exact ⟨j', (getElem?_append_left (List.getElem?_eq_some_iff.mp hi').1).trans hi', hj⟩

end CronScheduler

variable {s' : CronScheduler} {P : CronScheduler → Act → Prop} {i : Nat}

theorem Step.stopping {a : Act} {s : CronScheduler} (h : Step a s s') : s.Stopping s' := by
  cases h with
  | register hfree name schedule | cancel hfree name => exact s.stopping_cancel name
  | insert hcall => exact s.stopping_insert _ _
  | cancelAll hfree => exact s.stopping_onJobs _ Job.stopping_cancel
  | start hfree => exact s.stopping_onJobs _ Job.stopping_start
  | tick hi htick =>
    rename_i i j j'
    intro k job hk
    by_cases hki : i = k
    · subst hki
      obtain rfl := Option.some.inj (hi.symm.trans hk)
      exact ⟨j', getElem?_set_self (List.getElem?_eq_some_iff.mp hi).1, htick.stopping⟩
    · exact ⟨job, (getElem?_set_ne hki).trans hk, .refl job⟩

theorem Runs.stopping {s : CronScheduler} (h : Runs P s s') : s.Stopping s' := by
  induction h with
  | refl => exact .refl _
  | snoc _ _ hstep ih => exact ih.trans hstep.stopping

theorem Runs.begun_le {s : CronScheduler} (h : Runs P s s') {j : Job} (hi : s.jobs[i]? = some j)
    (hj : j.cancelled) :
    ∃ j', s'.jobs[i]? = some j' ∧ j'.cancelled ∧
      j'.begun ≤ j.begun + (decide (j.phase = .passed)).toNat := by
  obtain ⟨j', hi', hstop⟩ := h.stopping i j hi
  obtain ⟨hj', hle⟩ := hstop hj
  exact ⟨j', hi', hj', (Nat.le_add_right _ _).trans hle⟩

/-! ## The whole run -/

theorem Kept.cancels {s : CronScheduler} (h : Kept s) {name : Text}
    (hname : s.table.get? name = some i) : (s.cancel name).table.get? name = none ∧
      ∃ j, (s.cancel name).jobs[i]? = some j ∧ j.name = name ∧ j.cancelled = true := by
  obtain ⟨j, hj, hjname, -⟩ := h.named name i hname
  rw [CronScheduler.cancel, hname]
  refine ⟨OrderedMap.get?_shiftRemove_self _ _, j.cancel, ?_, hjname, rfl⟩
  change (s.onJobs _ _).jobs[i]? = _
  rw [CronScheduler.getElem?_onJobs, hj, beq_self_eq_true]
  rfl

theorem Kept.oneLiveJob {s : CronScheduler} (h : Kept s) : OneLiveJob s where
  reached i j hi hj := by
    rcases hj with hj | ⟨hj, hcancelled⟩
    · exact h.held i j hi ((h.job i j hi).waits hj).2.1 (.inl hj)
    · exact h.held i j hi hcancelled (.inr hj)
  cancels name i hname := h.cancels hname
  stops i j hi hj s' hruns := hruns.begun_le hi hj
  once i j hi := (h.job i j hi).once
  started i j hi hs hj := by
    refine (h.job i j hi).runs hj (Bool.eq_false_iff.mpr fun hp => ?_)
    exact Bool.eq_false_iff.mp ((h.job i j hi).waits hp).2.2 hs
  counts i j hi := (h.job i j hi).counts

/-- Where no registration finds a job under its name that goes on when it comes to insert its own,
there is at most one live job under a name, in every state of the run. -/
theorem one_live_job {started : Bool} {s : CronScheduler} (h : Runs Fresh (.new started) s) :
    OneLiveJob s :=
  ((Kept.new started).runs h).oneLiveJob

/-! ## The interleavings -/

section Interleavings

variable (s : CronScheduler) (c : Caller) (name : Text)

/-- The first section of `every`. -/
def begins : CronScheduler := (s.cancel name).setCall c (some (name, .every))

/-- The second section of `every`. -/
def ends : CronScheduler := (s.insert name .every).setCall c none

end Interleavings

/-- A registration, and then one that replaces it. -/
def replaced : CronScheduler :=
  ends (begins (ends (begins (.new true) (.outside 0) ['x']) (.outside 0) ['x']) (.outside 1) ['x'])
    (.outside 1) ['x']

/-- Two registrations, of which each has cancelled before the other inserts. -/
def crossed : CronScheduler :=
  ends (ends (begins (begins (.new true) (.outside 0) ['x']) (.outside 1) ['x']) (.outside 0) ['x'])
    (.outside 1) ['x']

theorem free_outside {s : CronScheduler} {n : Nat} (h : s.calls (.outside n) = none) :
    s.Free (.outside n) :=
  ⟨h, fun _ hjob => by cases hjob⟩

namespace Runs

variable {s t : CronScheduler} {c : Caller}

theorem begins (h : Runs Fresh s t) (hfree : t.Free c) (name : Text) :
    Runs Fresh s (begins t c name) :=
  .snoc (a := .register c name .every) h trivial (.register hfree name .every)

theorem ends (h : Runs Fresh s t) (c : Caller) (name : Text) (hcall : t.calls c = some (name, .every))
    (hname : t.table.get? name = none) : Runs Fresh s (ends t c name) := by
  refine .snoc (a := .insert c) h (fun name' schedule h' i j hi => ?_) (.insert hcall)
  obtain ⟨rfl, -⟩ := Prod.mk.inj (Option.some.inj (hcall.symm.trans h'))
  rw [hname] at hi
  cases hi

end Runs

theorem one_live_job_replaced : OneLiveJob replaced := by
  have hfirst := (Runs.refl (P := Fresh) (.new true)).begins (free_outside (n := 0) rfl) ['x']
  have hended := hfirst.ends (.outside 0) ['x'] rfl rfl
  have hsecond := hended.begins (free_outside (n := 1) rfl) ['x']
  exact one_live_job (hsecond.ends (.outside 1) ['x'] rfl rfl)

/-- The job that was inserted first ticks on, and the table holds the other. -/
theorem not_one_live_job :
    ¬ ∀ s : CronScheduler, Runs (fun _ _ => True) (.new true) s → OneLiveJob s := by
  intro h
  have hruns : Runs (fun _ _ => True) (.new true) crossed :=
    .snoc (.snoc (.snoc (.snoc (.refl _) trivial (.register (free_outside rfl) _ _)) trivial
      (.register (free_outside rfl) _ _)) trivial (.insert rfl)) trivial (.insert rfl)
  have hreached := (h _ hruns).reached 0 _ rfl (.inr ⟨rfl, rfl⟩)
  have hheld : crossed.table.get? ['x'] = some 1 := rfl
  exact absurd (hheld.symm.trans hreached) (by decide)

end Synsema.Cron
