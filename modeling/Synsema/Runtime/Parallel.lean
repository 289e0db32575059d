import Synsema.Lib.Tickets
import Mathlib.Algebra.BigOperators.Fin

/-!
# `parallel_map`

`run_parallel` (`synsema-runtime/src/parallel.rs`) applies a task to the items of a list
on several threads.  The threads share a counter of the next index, a flag that stops
them, the cell of the error with the smallest index and one slot for each item.

A thread takes its next atomic step when a schedule names it: it takes the next index,
reads the flag, runs the item, stores its slot and, when the item failed, records the
error and raises the flag.  What an item does is a parameter, a function of the item.
-/

namespace Synsema.Parallel

open List

/-- What a worker stores of an item: its value, the state of its generators and its
lineage. -/
structure WorkerOut (V G L : Type*) where
  value : V
  states : List G
  lineage : L
deriving DecidableEq

/-- What a task does with an item: its result, or its error and what it had read and
written before. -/
inductive Outcome (V G L E : Type*) where
  | ok (out : WorkerOut V G L)
  | error (e : E) (lineage : L)
deriving DecidableEq

/-- A call of `run_parallel`. -/
structure Job (ι V G L E : Type*) where
  items : List ι
  task : ι → Outcome V G L E
  limit : Nat

variable {ι V G L E : Type*}

/-- How many threads run the items. -/
def Job.threads (job : Job ι V G L E) : Nat := min (max job.limit 1) job.items.length

/-- The outcome of the item at an index. -/
def Job.outcomeAt (job : Job ι V G L E) (i : Nat) : Option (Outcome V G L E) :=
  job.items[i]?.map job.task

/-- What a worker is about to do. -/
inductive Worker (V G L E : Type*) where
  /-- Take the next index. -/
  | idle
  /-- Read the flag. -/
  | took (i : Nat)
  /-- Run the item. -/
  | running (i : Nat)
  /-- Store its slot. -/
  | ran (i : Nat) (o : Outcome V G L E)
  /-- Record its error. -/
  | stored (i : Nat) (e : E)
  /-- Raise the flag. -/
  | recorded (i : Nat)
  /-- Nothing: the index it took last was past the end, or the flag was up. -/
  | stopped (i : Nat)

/-- The state the threads share, and where each of them is.  `log` is the history of the
runs: it is no part of the program. -/
structure State (V G L E : Type*) (T : Nat) where
  next : Nat
  aborted : Bool
  error : Option (Nat × E)
  /-- Is the cell of the error locked?  It is from the record of an error to the flag. -/
  locked : Bool
  slots : Nat → Option (WorkerOut V G L)
  workers : Fin T → Worker V G L E
  log : List Nat

/-- Before any step. -/
def State.initial (T : Nat) : State V G L E T :=
  { next := 0, aborted := false, error := none, locked := false, slots := fun _ => none,
    workers := fun _ => .idle, log := [] }

/-- The slot of an item: a failed one keeps its lineage. -/
def slotOf [Inhabited V] : Outcome V G L E → WorkerOut V G L
  | .ok out => out
  | .error _ l => { value := default, states := [], lineage := l }

/-- The cell of the error after one more: the smallest index stays. -/
def recordError (cell : Option (Nat × E)) (i : Nat) (e : E) : Option (Nat × E) :=
  match cell with
  | none => some (i, e)
  | some (idx, e') => if i < idx then some (i, e) else some (idx, e')

section Step

variable [Inhabited V]

/-- The next atomic step of a worker; `none` when it has none, or waits for the lock. -/
def step (job : Job ι V G L E) {T : Nat} (σ : State V G L E T) (w : Fin T) :
    Option (State V G L E T) :=
  let goto := fun s => Function.update σ.workers w s
  match σ.workers w with
  | .idle => some { σ with next := σ.next + 1, workers := goto (.took σ.next) }
  | .took i =>
    if job.items.length ≤ i ∨ σ.aborted = true then some { σ with workers := goto (.stopped i) }
    else some { σ with workers := goto (.running i) }
  | .running i =>
    (job.outcomeAt i).map fun o =>
      { σ with workers := goto (.ran i o), log := σ.log ++ [i] }
  | .ran i o =>
    let slots := Function.update σ.slots i (some (slotOf o))
    match o with
    | .ok _ => some { σ with slots, workers := goto .idle }
    | .error e _ => some { σ with slots, workers := goto (.stored i e) }
  | .stored i e =>
    if σ.locked then none
    else some { σ with
      error := recordError σ.error i e, locked := true, workers := goto (.recorded i) }
  | .recorded _ => some { σ with aborted := true, locked := false, workers := goto .idle }
  | .stopped _ => none

/-- One step of some worker. -/
def Step (job : Job ι V G L E) {T : Nat} (σ σ' : State V G L E T) : Prop :=
  ∃ w, step job σ w = some σ'

/-- The states of a schedule from the start. -/
def Reachable (job : Job ι V G L E) {T : Nat} (σ : State V G L E T) : Prop :=
  Relation.ReflTransGen (Step job) (State.initial T) σ

/-- Every worker has stopped. -/
def Final {T : Nat} (σ : State V G L E T) : Prop := ∀ w, ∃ i, σ.workers w = .stopped i

/-- What `run_parallel` returns when every worker has stopped: the slots in order, or the
recorded error and the lineage of the slots that are filled. -/
def result [Inhabited L] (job : Job ι V G L E) {T : Nat} (σ : State V G L E T) :
    Except (E × List L) (List (WorkerOut V G L)) :=
  let indices := List.range job.items.length
  match σ.error with
  | some (_, e) => .error (e, (indices.filterMap σ.slots).map WorkerOut.lineage)
  | none => .ok (indices.map fun i =>
      (σ.slots i).getD { value := default, states := [], lineage := default })

end Step

/-! ## The steps, one by one -/

/-- What a step can do, with its guard. -/
inductive StepTo [Inhabited V] (job : Job ι V G L E) {T : Nat} (σ : State V G L E T) (w : Fin T) :
    State V G L E T → Prop
  | take (h : σ.workers w = .idle) :
      StepTo job σ w { σ with
        next := σ.next + 1, workers := Function.update σ.workers w (.took σ.next) }
  | stop (i : Nat) (h : σ.workers w = .took i)
      (hstop : job.items.length ≤ i ∨ σ.aborted = true) :
      StepTo job σ w { σ with workers := Function.update σ.workers w (.stopped i) }
  | start (i : Nat) (h : σ.workers w = .took i) (hlt : i < job.items.length)
      (hflag : σ.aborted = false) :
      StepTo job σ w { σ with workers := Function.update σ.workers w (.running i) }
  | run (i : Nat) (o : Outcome V G L E) (h : σ.workers w = .running i)
      (ho : job.outcomeAt i = some o) :
      StepTo job σ w { σ with
        workers := Function.update σ.workers w (.ran i o), log := σ.log ++ [i] }
  | storeOk (i : Nat) (out : WorkerOut V G L) (h : σ.workers w = .ran i (.ok out)) :
      StepTo job σ w { σ with
        slots := Function.update σ.slots i (some out)
        workers := Function.update σ.workers w .idle }
  | storeError (i : Nat) (e : E) (l : L) (h : σ.workers w = .ran i (.error e l)) :
      StepTo job σ w { σ with
        slots := Function.update σ.slots i (some { value := default, states := [], lineage := l })
        workers := Function.update σ.workers w (.stored i e) }
  | record (i : Nat) (e : E) (h : σ.workers w = .stored i e) (hlock : σ.locked = false) :
      StepTo job σ w { σ with
        error := recordError σ.error i e, locked := true
        workers := Function.update σ.workers w (.recorded i) }
  | abort (i : Nat) (h : σ.workers w = .recorded i) :
      StepTo job σ w { σ with
        aborted := true, locked := false, workers := Function.update σ.workers w .idle }

section Run

variable [Inhabited V] {job : Job ι V G L E} {T : Nat} {σ σ' : State V G L E T} {w : Fin T}

theorem step_iff : step job σ w = some σ' ↔ StepTo job σ w σ' := by
  constructor
  · intro h
    unfold step at h
    split at h
    · cases h
      exact .take ‹_›
    · split at h
      · cases h
        exact .stop _ ‹_› ‹_›
      · rename_i hstop
        cases h
        exact .start _ ‹_› (by omega) (by simpa using fun hf => hstop (.inr hf))
    · obtain ⟨o, ho, rfl⟩ := Option.map_eq_some_iff.mp h
      exact .run _ o ‹_› ho
    · dsimp only at h
      split at h
      · cases h
        exact .storeOk _ _ ‹_›
      · cases h
        exact .storeError _ _ _ ‹_›
    · split at h
      · cases h
      · rename_i hlock
        cases h
        exact .record _ _ ‹_› (by simpa using hlock)
    · cases h
      exact .abort _ ‹_›
    · cases h
  · intro h
    cases h with
    | take h | abort i h => simp [step, h]
    | stop i h hstop => simp [step, h, hstop]
    | start i h hlt hflag => simp [step, h, hflag, Nat.not_le.mpr hlt]
    | run i o h ho => simp [step, h, ho]
    | storeOk i out h | storeError i e l h => simp [step, h, slotOf]
    | record i e h hlock => simp [step, h, hlock]

end Run

/-! ## Indices are tickets -/

/-- The index a worker holds, and whether it has run it. -/
def Worker.ticket : Worker V G L E → Option (Nat × Bool)
  | idle => none
  | took i | running i | stopped i => some (i, false)
  | ran i _ | stored i _ | recorded i => some (i, true)

/-- The counter as a desk of tickets: a ticket is spent when its item is run. -/
def State.desk {T : Nat} (σ : State V G L E T) : Tickets.Desk (Fin T) :=
  { next := σ.next, held := fun w => (σ.workers w).ticket, spent := σ.log }

theorem State.desk_update {T : Nat} {σ σ' : State V G L E T} {w : Fin T} (s : Worker V G L E)
    (h : σ'.workers = Function.update σ.workers w s) :
    σ'.desk = { next := σ'.next, held := Function.update σ.desk.held w s.ticket,
                spent := σ'.log } := by
  have hheld : (fun w' => (σ'.workers w').ticket) = Function.update σ.desk.held w s.ticket := by
    funext w'
    rw [h]
    by_cases hw : w' = w
    · subst hw
      simp
    · simp [hw, State.desk]
  rw [← hheld]
  rfl

theorem StepTo.move [Inhabited V] {job : Job ι V G L E} {T : Nat} {σ σ' : State V G L E T}
    {w : Fin T} (h : StepTo job σ w σ') : Tickets.Move σ.desk σ'.desk := by
  have held : ∀ {x}, σ.workers w = x → σ.desk.held w = x.ticket := by
    intro x hx
    rw [← hx]
    rfl
  have stay : ∀ {x s : Worker V G L E}, σ.workers w = x → x.ticket = s.ticket →
      Tickets.Move σ.desk { next := σ.next, held := Function.update σ.desk.held w s.ticket,
                            spent := σ.log } := by
    intro x s hx hs
    rw [← hs, ← held hx, Function.update_eq_self]
    exact .stay
  have desk : ∀ s, σ'.workers = Function.update σ.workers w s → σ'.desk = _ :=
    fun s hs => State.desk_update s hs
  cases h with
  | take h =>
    rw [desk (.took σ.next) rfl]
    exact .draw w (held h)
  | stop i h _ =>
    rw [desk (.stopped i) rfl]
    exact stay h rfl
  | start i h _ _ =>
    rw [desk (.running i) rfl]
    exact stay h rfl
  | run i o h _ =>
    rw [desk (.ran i o) rfl]
    exact .spend w i (held h)
  | storeOk i out h | abort i h =>
    rw [desk .idle rfl]
    exact .release w i (held h)
  | storeError i e l h =>
    rw [desk (.stored i e) rfl]
    exact stay h rfl
  | record i e h _ =>
    rw [desk (.recorded i) rfl]
    exact stay h rfl

/-! ## The cell of the error -/

theorem recordError_isSome (cell : Option (Nat × E)) (i : Nat) (e : E) :
    (recordError cell i e).isSome = true := by
  unfold recordError
  split
  · rfl
  · split <;> rfl

theorem recordError_le (cell : Option (Nat × E)) (i : Nat) (e : E) :
    ∃ j e', recordError cell i e = some (j, e') ∧ j ≤ i ∧
      ∀ k e'', cell = some (k, e'') → j ≤ k := by
  unfold recordError
  split
  · exact ⟨i, e, rfl, le_rfl, by simp⟩
  · rename_i idx e'
    split
    · rename_i hlt
      refine ⟨i, e, rfl, le_rfl, ?_⟩
      intro k e'' hk
      cases hk
      exact hlt.le
    · rename_i hge
      refine ⟨idx, e', rfl, Nat.not_lt.mp hge, ?_⟩
      intro k e'' hk
      cases hk
      exact le_rfl

theorem recordError_cases {cell : Option (Nat × E)} {i j : Nat} {e e' : E}
    (h : recordError cell i e = some (j, e')) : (j = i ∧ e' = e) ∨ cell = some (j, e') := by
  unfold recordError at h
  split at h
  · cases h
    exact .inl ⟨rfl, rfl⟩
  · split at h
    · cases h
      exact .inl ⟨rfl, rfl⟩
    · exact .inr h

/-! ## The invariant -/

section Invariant

variable {job : Job ι V G L E} {T : Nat} {σ σ' : State V G L E T} {w : Fin T}

variable {i : Nat} {o : Outcome V G L E} {s x : Worker V G L E}

theorem outcomeAt_lt (h : job.outcomeAt i = some o) : i < job.items.length := by
  obtain ⟨x, hx, -⟩ := Option.map_eq_some_iff.mp h
  exact (List.getElem?_eq_some_iff.mp hx).1

theorem outcomeAt_eq (h : i < job.items.length) :
    job.outcomeAt i = some (job.task job.items[i]) := by
  simp [Job.outcomeAt, getElem?_eq_getElem h]

/-- What the place of a worker says of the item it is at. -/
def Local (job : Job ι V G L E) (σ : State V G L E T) : Worker V G L E → Prop
  | .idle | .took _ => True
  | .running i => i < job.items.length
  | .ran i o => job.outcomeAt i = some o
  | .stored i e => ∃ l, job.outcomeAt i = some (.error e l)
  | .recorded _ => σ.error.isSome = true
  | .stopped i => job.items.length ≤ i ∨ σ.aborted = true

theorem local_update (hw : σ'.workers = Function.update σ.workers w s)
    (hp : ∀ w, Local job σ (σ.workers w)) (hs : Local job σ' s)
    (herr : σ.error.isSome → σ'.error.isSome)
    (hab : σ.aborted → σ'.aborted) : ∀ w', Local job σ' (σ'.workers w') := by
  intro w'
  rw [hw]
  by_cases hne : w' = w
  · subst hne
    rwa [Function.update_self]
  · rw [Function.update_of_ne hne]
    have hp' := hp w'
    generalize σ.workers w' = x at hp'
    cases x with
    | recorded i => exact herr hp'
    | stopped i => exact hp'.imp_right hab
    | _ => exact hp'

theorem exists_update {P : Worker V G L E → Prop} {f : Fin T → Worker V G L E} (h : ∃ w', P (f w'))
    (hw : f w = x) (hx : ¬ P x) : ∃ w', P (Function.update f w s w') := by
  obtain ⟨w', hw'⟩ := h
  have hne : w' ≠ w := by
    rintro rfl
    exact hx (hw ▸ hw')
  exact ⟨w', by rwa [Function.update_of_ne hne]⟩

/-- Is the worker about to store the item? -/
def Storing (i : Nat) (x : Worker V G L E) : Prop := ∃ o, x = .ran i o

/-- Has the worker run the item and not yet recorded its error? -/
def Failing (i : Nat) (x : Worker V G L E) : Prop :=
  (∃ o, x = .ran i o) ∨ ∃ e, x = .stored i e

/-- Does the cell hold an error of an index of at most `i`? -/
def Bounds (cell : Option (Nat × E)) (i : Nat) : Prop := ∃ j e, cell = some (j, e) ∧ j ≤ i

theorem Bounds.record {cell : Option (Nat × E)} (h : Bounds cell i) (k : Nat) (e : E) :
    Bounds (recordError cell k e) i := by
  obtain ⟨j, e', hcell, hj⟩ := h
  obtain ⟨j', e'', hrec, -, hmin⟩ := recordError_le cell k e
  exact ⟨j', e'', hrec, (hmin j e' hcell).trans hj⟩

theorem failing_update (hx : σ.workers w = x) (hnot : ¬ Failing i x)
    (h : (∃ w, Failing i (σ.workers w)) ∨ Bounds σ.error i) :
    (∃ w', Failing i (Function.update σ.workers w s w')) ∨ Bounds σ.error i :=
  h.imp_left fun hf => exists_update hf hx hnot

variable [Inhabited V]

/-- What holds in every state of a schedule. -/
structure Inv (job : Job ι V G L E) (σ : State V G L E T) : Prop where
  desk : Tickets.Inv σ.desk
  place : ∀ w, Local job σ (σ.workers w)
  log_outcome : ∀ i ∈ σ.log, ∃ o, job.outcomeAt i = some o
  slot_log : ∀ i out, σ.slots i = some out →
    i ∈ σ.log ∧ (job.outcomeAt i).map slotOf = some out
  /-- The slot of an item that was run is filled, or about to be. -/
  log_slot : ∀ i ∈ σ.log, (∃ w, Storing i (σ.workers w)) ∨ ∃ out, σ.slots i = some out
  error_log : ∀ i e, σ.error = some (i, e) →
    i ∈ σ.log ∧ ∃ l, job.outcomeAt i = some (.error e l)
  /-- The error of an item that was run bounds the cell, or is on its way to it. -/
  log_error : ∀ i ∈ σ.log, ∀ e l, job.outcomeAt i = some (.error e l) →
    (∃ w, Failing i (σ.workers w)) ∨ Bounds σ.error i
  aborted_error : σ.aborted = true → σ.error.isSome = true
  locked_worker : σ.locked = true → ∃ w i, σ.workers w = .recorded i

theorem inv_initial (job : Job ι V G L E) : Inv job (State.initial T : State V G L E T) := by
  refine ⟨Tickets.inv_initial, fun _ => trivial, ?_, ?_, ?_, ?_, ?_, ?_, ?_⟩ <;>
    simp [State.initial]

theorem Inv.of_same_log (hi : Inv job σ) (hstep : StepTo job σ w σ')
    (hx : σ.workers w = x) (hw : σ'.workers = Function.update σ.workers w s)
    (hlog : σ'.log = σ.log) (hslots : σ'.slots = σ.slots) (hnot : ∀ i, ¬ Storing i x)
    (hplace : Local job σ' s) (herr : σ.error.isSome → σ'.error.isSome)
    (hab : σ.aborted → σ'.aborted)
    (herror : ∀ i e, σ'.error = some (i, e) →
      i ∈ σ.log ∧ ∃ l, job.outcomeAt i = some (.error e l))
    (hfail : ∀ i, (∃ w, Failing i (σ.workers w)) ∨ Bounds σ.error i →
      (∃ w, Failing i (σ'.workers w)) ∨ Bounds σ'.error i)
    (habort : σ'.aborted → σ'.error.isSome)
    (hlock : σ'.locked → ∃ w i, σ'.workers w = .recorded i) : Inv job σ' := by
  refine ⟨hi.desk.move hstep.move, local_update hw hi.place hplace herr hab, ?_, ?_, ?_, ?_, ?_,
    habort, hlock⟩
  · rw [hlog]
    exact hi.log_outcome
  · rw [hlog, hslots]
    exact hi.slot_log
  · rw [hlog, hslots, hw]
    intro i hm
    exact (hi.log_slot i hm).imp_left fun h => exists_update h hx (hnot i)
  · rw [hlog]
    exact herror
  · rw [hlog]
    intro i hm e l ho
    exact hfail i (hi.log_error i hm e l ho)

theorem locked_update (hi : Inv job σ) (hx : σ.workers w = x) (hnot : ∀ i, x ≠ .recorded i)
    (hl : σ.locked) : ∃ w' i, Function.update σ.workers w s w' = .recorded i :=
  exists_update (P := fun y => ∃ i, y = .recorded i) (hi.locked_worker hl) hx
    fun ⟨i, hi⟩ => hnot i hi

theorem Inv.mem_log (hi : Inv job σ) (hx : σ.workers w = x) (hticket : x.ticket = some (i, true)) :
    i ∈ σ.log := by
  refine (hi.desk.held_spent w i true ?_).mp rfl
  show (σ.workers w).ticket = _
  rw [hx, hticket]

theorem Inv.of_store (hi : Inv job σ) (hstep : StepTo job σ w σ') (h : σ.workers w = .ran i o)
    (hw : σ'.workers = Function.update σ.workers w s) (hlog : σ'.log = σ.log)
    (hslots : σ'.slots = Function.update σ.slots i (some (slotOf o))) (herror : σ'.error = σ.error)
    (hab : σ'.aborted = σ.aborted) (hlock : σ'.locked = σ.locked) (hplace : Local job σ' s)
    (hfail : ∀ e l, o = .error e l → Failing i s) : Inv job σ' := by
  have ho : job.outcomeAt i = some o := by
    have hp := hi.place w
    rwa [h] at hp
  have hm : i ∈ σ.log := hi.mem_log h rfl
  refine ⟨hi.desk.move hstep.move, local_update hw hi.place hplace (by rw [herror]; exact id)
    (by rw [hab]; exact id), ?_, ?_, ?_, ?_, ?_, ?_, ?_⟩
  · rw [hlog]
    exact hi.log_outcome
  · rw [hlog, hslots]
    intro k out hk
    by_cases hki : k = i
    · subst hki
      rw [Function.update_self] at hk
      exact ⟨hm, by rw [ho]; exact hk⟩
    · rw [Function.update_of_ne hki] at hk
      exact hi.slot_log k out hk
  · rw [hlog, hslots, hw]
    intro k hk
    by_cases hki : k = i
    · subst hki
      exact .inr ⟨_, Function.update_self ..⟩
    · rw [Function.update_of_ne hki]
      refine (hi.log_slot k hk).imp_left fun hs => exists_update hs h ?_
      simp [Storing, Ne.symm hki]
  · rw [hlog, herror]
    exact hi.error_log
  · rw [hlog, herror, hw]
    intro k hk e l hout
    by_cases hki : k = i
    · subst hki
      rw [ho, Option.some.injEq] at hout
      refine .inl ⟨w, ?_⟩
      rw [Function.update_self]
      exact hfail e l hout
    · exact failing_update h (by simp [Failing, Ne.symm hki]) (hi.log_error k hk e l hout)
  · rw [hab, herror]
    exact hi.aborted_error
  · rw [hlock, hw]
    exact locked_update hi h (by simp)

theorem Inv.step (hi : Inv job σ) (h : StepTo job σ w σ') : Inv job σ' := by
  have hstep := h
  cases h with
  | take h =>
    exact hi.of_same_log hstep h rfl rfl rfl (by simp [Storing]) trivial id id hi.error_log
      (fun i => failing_update h (by simp [Failing])) hi.aborted_error
      (locked_update hi h (by simp))
  | stop i h hstop =>
    exact hi.of_same_log hstep h rfl rfl rfl (by simp [Storing]) hstop id id hi.error_log
      (fun i => failing_update h (by simp [Failing])) hi.aborted_error
      (locked_update hi h (by simp))
  | start i h hlt hflag =>
    exact hi.of_same_log hstep h rfl rfl rfl (by simp [Storing]) hlt id id hi.error_log
      (fun i => failing_update h (by simp [Failing])) hi.aborted_error
      (locked_update hi h (by simp))
  | run i o h ho =>
    refine ⟨hi.desk.move hstep.move, local_update rfl hi.place ho id id, ?_, ?_, ?_, ?_, ?_,
      hi.aborted_error, locked_update hi h (by simp)⟩
    · intro k hk
      rcases mem_append.mp hk with hk | hk
      · exact hi.log_outcome k hk
      · exact ⟨o, mem_singleton.mp hk ▸ ho⟩
    · intro k out hk
      obtain ⟨hm, hout⟩ := hi.slot_log k out hk
      exact ⟨mem_append_left _ hm, hout⟩
    · intro k hk
      rcases mem_append.mp hk with hk | hk
      · exact (hi.log_slot k hk).imp_left fun hs => exists_update hs h (by simp [Storing])
      · rw [mem_singleton.mp hk]
        exact .inl ⟨w, o, Function.update_self ..⟩
    · intro k e hk
      obtain ⟨hm, hout⟩ := hi.error_log k e hk
      exact ⟨mem_append_left _ hm, hout⟩
    · intro k hk e l hout
      rcases mem_append.mp hk with hk | hk
      · exact failing_update h (by simp [Failing]) (hi.log_error k hk e l hout)
      · rw [mem_singleton.mp hk]
        exact .inl ⟨w, .inl ⟨o, Function.update_self ..⟩⟩
  | storeOk i out h =>
    exact hi.of_store hstep h rfl rfl rfl rfl rfl rfl trivial (by simp)
  | storeError i e l h =>
    have ho : job.outcomeAt i = some (.error e l) := by
      have hp := hi.place w
      rwa [h] at hp
    refine hi.of_store hstep h rfl rfl rfl rfl rfl rfl ⟨l, ho⟩ ?_
    intro e' l' heq
    cases heq
    exact .inr ⟨e, rfl⟩
  | record i e h hlock =>
    have ho : ∃ l, job.outcomeAt i = some (.error e l) := by
      have hp := hi.place w
      rwa [h] at hp
    have hsome := recordError_isSome σ.error i e
    refine hi.of_same_log hstep h rfl rfl rfl (by simp [Storing]) hsome (fun _ => hsome) id ?_ ?_
      (fun _ => hsome) fun _ => ⟨w, i, Function.update_self ..⟩
    · intro j e' hj
      rcases recordError_cases hj with ⟨rfl, rfl⟩ | hj
      · exact ⟨hi.mem_log h rfl, ho⟩
      · exact hi.error_log j e' hj
    · intro k hf
      by_cases hki : k = i
      · obtain ⟨j, e', hj, hle, -⟩ := recordError_le σ.error i e
        exact .inr ⟨j, e', hj, hki ▸ hle⟩
      · rcases hf with hf | hf
        · exact .inl (exists_update hf h (by simp [Failing, Ne.symm hki]))
        · exact .inr (hf.record i e)
  | abort i h =>
    have herr : σ.error.isSome := by
      have hp := hi.place w
      rwa [h] at hp
    exact hi.of_same_log hstep h rfl rfl rfl (by simp [Storing]) trivial id (fun _ => rfl)
      hi.error_log (fun i => failing_update h (by simp [Failing])) (fun _ => herr)
      (fun hl => by cases hl)

theorem inv_of_reachable (h : Reachable job σ) : Inv job σ := by
  induction h with
  | refl => exact inv_initial job
  | tail _ hs ih =>
    obtain ⟨w, hw⟩ := hs
    exact ih.step (step_iff.mp hw)

/-! ## Every schedule ends -/

/-- How many steps a worker may still take before it draws the next index. -/
def Worker.weight (n : Nat) : Worker V G L E → Nat
  | idle => 2
  | took i => if i < n then 7 else 1
  | running _ => 6
  | ran _ _ => 5
  | stored _ _ => 4
  | recorded _ => 3
  | stopped _ => 0

/-- A bound on the steps that are left. -/
def stepsLeft (job : Job ι V G L E) (σ : State V G L E T) : Nat :=
  6 * (job.items.length - σ.next) + ∑ w, (σ.workers w).weight job.items.length

omit [Inhabited V] in
theorem sum_weight_update (n : Nat) (f : Fin T → Worker V G L E) (w : Fin T) (s : Worker V G L E) :
    ∑ w', (Function.update f w s w').weight n + (f w).weight n =
      ∑ w', (f w').weight n + s.weight n := by
  have h₁ := Finset.add_sum_erase Finset.univ (fun w' => (Function.update f w s w').weight n)
    (Finset.mem_univ w)
  have h₂ := Finset.add_sum_erase Finset.univ (fun w' => (f w').weight n) (Finset.mem_univ w)
  have hrest : ∑ w' ∈ Finset.univ.erase w, (Function.update f w s w').weight n =
      ∑ w' ∈ Finset.univ.erase w, (f w').weight n := by
    refine Finset.sum_congr rfl fun w' hw' => ?_
    rw [Function.update_of_ne (Finset.ne_of_mem_erase hw')]
  simp only [Function.update_self] at h₁
  omega

theorem stepsLeft_lt (h : StepTo job σ w σ') : stepsLeft job σ' < stepsLeft job σ := by
  -- away from the counter a worker gets closer to its next index
  have drop : ∀ {x s : Worker V G L E}, σ.workers w = x →
      s.weight job.items.length < x.weight job.items.length →
      6 * (job.items.length - σ.next) +
          ∑ w', (Function.update σ.workers w s w').weight job.items.length <
        stepsLeft job σ := by
    intro x s hx hlt
    have hsum := sum_weight_update job.items.length σ.workers w s
    rw [hx] at hsum
    unfold stepsLeft
    omega
  cases h with
  | take h =>
    have hsum := sum_weight_update job.items.length σ.workers w (.took σ.next)
    have hidle : (σ.workers w).weight job.items.length = 2 := by
      rw [h]
      rfl
    have htook : (Worker.took σ.next : Worker V G L E).weight job.items.length =
        if σ.next < job.items.length then 7 else 1 := rfl
    unfold stepsLeft
    dsimp only
    split at htook <;> omega
  | stop i h _ =>
    refine drop h ?_
    show 0 < if i < job.items.length then 7 else 1
    split <;> omega
  | start i h hlt _ =>
    refine drop h ?_
    show 6 < if i < job.items.length then 7 else 1
    rw [if_pos hlt]
    omega
  | run i o h _ => exact drop h (Nat.lt_succ_self 5)
  | storeOk i out h => exact drop h (show 2 < 5 by omega)
  | storeError i e l h => exact drop h (Nat.lt_succ_self 4)
  | record i e h _ => exact drop h (Nat.lt_succ_self 3)
  | abort i h => exact drop h (Nat.lt_succ_self 2)

theorem step_wellFounded (job : Job ι V G L E) :
    WellFounded fun σ' σ : State V G L E T => Step job σ σ' := by
  refine Subrelation.wf (r := InvImage (· < ·) (stepsLeft job)) ?_
    (InvImage.wf _ Nat.lt_wfRel.wf)
  rintro σ' σ ⟨w, hw⟩
  exact stepsLeft_lt (step_iff.mp hw)

theorem Inv.progress (hi : Inv job σ) : Final σ ∨ ∃ σ', Step job σ σ' := by
  by_cases hf : Final σ
  · exact .inl hf
  · right
    obtain ⟨w, hw⟩ := not_forall.mp hf
    have can : ∀ {w σ'}, StepTo job σ w σ' → ∃ σ', Step job σ σ' :=
      fun h => ⟨_, _, step_iff.mpr h⟩
    have hp := hi.place w
    cases hx : σ.workers w with
    | idle => exact can (.take hx)
    | took i =>
      by_cases hstop : job.items.length ≤ i ∨ σ.aborted = true
      · exact can (.stop i hx hstop)
      · rw [not_or] at hstop
        exact can (.start i hx (Nat.not_le.mp hstop.1) (by simpa using hstop.2))
    | running i =>
      rw [hx] at hp
      exact can (.run i _ hx (outcomeAt_eq hp))
    | ran i o =>
      cases o with
      | ok out => exact can (.storeOk i out hx)
      | error e l => exact can (.storeError i e l hx)
    | stored i e =>
      cases hl : σ.locked with
      | false => exact can (.record i e hx hl)
      | true =>
        obtain ⟨w', k, hk⟩ := hi.locked_worker hl
        exact can (.abort k hk)
    | recorded i => exact can (.abort i hx)
    | stopped i => exact absurd ⟨i, hx⟩ hw

theorem exists_final (h : Reachable job σ) :
    ∃ σ', Relation.ReflTransGen (Step job) σ σ' ∧ Final σ' := by
  induction σ using (step_wellFounded job).induction with
  | _ σ ih =>
    rcases (inv_of_reachable h).progress with hf | ⟨σ', hs⟩
    · exact ⟨σ, .refl, hf⟩
    · obtain ⟨σ'', hr, hf⟩ := ih σ' hs (h.tail hs)
      exact ⟨σ'', .head hs hr, hf⟩

/-! ## What `run_parallel` returns -/

/-- Does the item at the index fail? -/
def Job.fails (job : Job ι V G L E) (i : Nat) : Bool :=
  match job.outcomeAt i with
  | some (.error _ _) => true
  | _ => false

/-- How many items fail before the index. -/
def Job.rank (job : Job ι V G L E) (i : Nat) : Nat :=
  ((Finset.range i).filter fun j => job.fails j = true).card

/-- The lineage of an item that was run. -/
def Outcome.lineage : Outcome V G L E → L
  | ok out => out.lineage
  | error _ l => l

omit [Inhabited V] in
theorem fails_iff :
    job.fails i ↔ ∃ e l, job.outcomeAt i = some (.error e l) := by
  unfold Job.fails
  split
  · rename_i e l h
    simp [h]
  · rename_i h
    simp only [Bool.false_eq_true, false_iff]
    rintro ⟨e, l, ho⟩
    exact h e l ho

/-- The result is right, with `Q` of the index whose error it is.  No item is run twice.
The call succeeds only when every item does; it has then run each of them once and
returns their results in order.  Otherwise it returns the error of an item that fails,
and the lineage of each item that was run, in order. -/
def Returns [Inhabited L] (job : Job ι V G L E) (Q : Nat → Prop) (σ : State V G L E T) : Prop :=
  σ.log.Nodup ∧
    match result job σ with
    | .ok outs => outs.map Outcome.ok = job.items.map job.task ∧
        σ.log.Perm (List.range job.items.length)
    | .error (e, lineages) => (∃ i l, job.outcomeAt i = some (.error e l) ∧ Q i) ∧
        lineages = ((List.range job.items.length).filter fun i => i ∈ σ.log).filterMap
          fun i => (job.outcomeAt i).map Outcome.lineage

/-- The result is what applying the task item after item returns: an error is the one of
the item that fails first. -/
def Correct [Inhabited L] (job : Job ι V G L E) (σ : State V G L E T) : Prop :=
  Returns job (fun i => ∀ j < i, job.fails j = false) σ

section Final

theorem Inv.log_nodup (hi : Inv job σ) : σ.log.Nodup := hi.desk.spent_nodup

omit [Inhabited V] in
theorem Final.ticket (hf : Final σ) (w : Fin T) : ∃ k, σ.desk.held w = some (k, false) := by
  obtain ⟨k, hk⟩ := hf w
  refine ⟨k, ?_⟩
  show (σ.workers w).ticket = _
  rw [hk]
  rfl

theorem Inv.slots_final (hi : Inv job σ) (hf : Final σ) (i : Nat) :
    σ.slots i = if i ∈ σ.log then (job.outcomeAt i).map slotOf else none := by
  by_cases hm : i ∈ σ.log
  · rw [if_pos hm]
    rcases hi.log_slot i hm with ⟨w, o, ho⟩ | ⟨out, hout⟩
    · obtain ⟨k, hk⟩ := hf w
      rw [hk] at ho
      cases ho
    · rw [hout, (hi.slot_log i out hout).2]
  · rw [if_neg hm]
    cases hs : σ.slots i with
    | none => rfl
    | some out => exact absurd (hi.slot_log i out hs).1 hm

variable {i : Nat}

theorem Inv.bounds_final (hi : Inv job σ) (hf : Final σ) (hm : i ∈ σ.log)
    (hfail : job.fails i) : Bounds σ.error i := by
  obtain ⟨e, l, ho⟩ := fails_iff.mp hfail
  rcases hi.log_error i hm e l ho with ⟨w, hw⟩ | hb
  · obtain ⟨k, hk⟩ := hf w
    rw [hk] at hw
    rcases hw with ⟨o, ho⟩ | ⟨e', he⟩
    · cases ho
    · cases he
  · exact hb

theorem Inv.mem_log_final (hi : Inv job σ) (hf : Final σ) (hT : T ≠ 0) (herr : σ.error = none)
    (hlt : i < job.items.length) : i ∈ σ.log := by
  have hflag : σ.aborted = false := by
    cases hab : σ.aborted with
    | false => rfl
    | true =>
      have := hi.aborted_error hab
      rw [herr] at this
      cases this
  -- a worker stopped past the end, so that the counter went past `i`
  have past : ∀ w k, σ.workers w = .stopped k → job.items.length ≤ k := by
    intro w k hk
    have hp := hi.place w
    rw [hk] at hp
    exact hp.resolve_right (by simp [hflag])
  obtain ⟨k, hk⟩ := hf ⟨0, Nat.pos_of_ne_zero hT⟩
  have hnext : k < σ.next := hi.desk.held_lt ⟨0, _⟩ k false (by
    show (σ.workers _).ticket = _
    rw [hk]
    rfl)
  rcases hi.desk.cover i (show i < σ.next from (hlt.trans_le (past _ k hk)).trans hnext) with
    ⟨w, b, hw⟩ | hm
  · obtain ⟨j, hj⟩ := hf w
    have hji : j = i := by
      have hw' : (σ.workers w).ticket = some (i, b) := hw
      rw [hj] at hw'
      cases hw'
      rfl
    exact absurd (past w j hj) (by omega)
  · exact hm

theorem Inv.rank_final (hi : Inv job σ) (hf : Final σ) {e : E} (herr : σ.error = some (i, e)) :
    job.rank i < T := by
  obtain ⟨hm, -⟩ := hi.error_log i e herr
  have hcard := hi.desk.card_unspent_lt hf.ticket hm
    ((Finset.range i).filter fun j => job.fails j = true) ?_
  · simpa [Job.rank] using hcard
  · intro j hj
    rw [Finset.mem_filter, Finset.mem_range] at hj
    refine ⟨hj.1, fun hjm => ?_⟩
    obtain ⟨k, e', hk, hle⟩ := hi.bounds_final hf hjm hj.2
    rw [herr] at hk
    cases hk
    omega

theorem range_filter_lineage (hi : Inv job σ) (hf : Final σ) :
    ((List.range job.items.length).filterMap σ.slots).map WorkerOut.lineage =
      ((List.range job.items.length).filter fun i => i ∈ σ.log).filterMap
        fun i => (job.outcomeAt i).map Outcome.lineage := by
  rw [map_filterMap, filterMap_filter]
  refine filterMap_congr fun i _ => ?_
  rw [hi.slots_final hf i]
  by_cases hm : i ∈ σ.log
  · simp only [hm, if_true, decide_true, Option.map_map]
    congr 1
    funext o
    cases o <;> rfl
  · simp [hm]

theorem Inv.returns [Inhabited L] (hi : Inv job σ) (hf : Final σ)
    (hT : T = 0 → job.items.length = 0) : Returns job (fun i => job.rank i < T) σ := by
  refine ⟨hi.log_nodup, ?_⟩
  unfold result
  cases herr : σ.error with
  | some ie =>
    obtain ⟨i, e⟩ := ie
    obtain ⟨-, l, ho⟩ := hi.error_log i e herr
    exact ⟨⟨i, l, ho, hi.rank_final hf herr⟩, range_filter_lineage hi hf⟩
  | none =>
    have hall : ∀ i < job.items.length, i ∈ σ.log := by
      intro i hlt
      refine hi.mem_log_final hf (fun h => ?_) herr hlt
      have := hT h
      omega
    have hok : ∀ i < job.items.length, ∃ out, job.outcomeAt i = some (.ok out) := by
      intro i hlt
      cases ho : job.task job.items[i] with
      | ok out => exact ⟨out, by rw [outcomeAt_eq hlt, ho]⟩
      | error e l =>
        have hfail : job.fails i := fails_iff.mpr ⟨e, l, by rw [outcomeAt_eq hlt, ho]⟩
        obtain ⟨j, e', hj, -⟩ := hi.bounds_final hf (hall i hlt) hfail
        rw [herr] at hj
        cases hj
    refine ⟨?_, ?_⟩
    · refine ext_getElem (by simp) fun i h₁ h₂ => ?_
      have hlt : i < job.items.length := by simpa using h₂
      obtain ⟨out, hout⟩ := hok i hlt
      have htask : job.task job.items[i] = .ok out := by
        rw [outcomeAt_eq hlt] at hout
        exact Option.some.inj hout
      simp [hi.slots_final hf i, hall i hlt, hout, slotOf, htask]
    · refine (perm_ext_iff_of_nodup hi.log_nodup nodup_range).mpr fun i => ?_
      rw [List.mem_range]
      refine ⟨fun hm => ?_, hall i⟩
      obtain ⟨o, ho⟩ := hi.log_outcome i hm
      exact outcomeAt_lt ho

end Final

/-! ## The error that is returned -/

/-- Among the first failing items, as many as there are threads, all fail with the error
of the first. -/
def FirstErrorsAgree (job : Job ι V G L E) : Prop :=
  ∀ i e l, job.outcomeAt i = some (.error e l) → job.rank i < job.threads →
    ∀ j e' l', job.outcomeAt j = some (.error e' l') → job.rank j = 0 → e = e'

omit [Inhabited V] in
theorem rank_eq_zero_iff : job.rank i = 0 ↔ ∀ j < i, job.fails j = false := by
  rw [Job.rank, Finset.card_eq_zero, Finset.filter_eq_empty_iff]
  simp

omit [Inhabited V] in
theorem rank_succ (i : Nat) :
    job.rank (i + 1) = job.rank i + if job.fails i = true then 1 else 0 := by
  unfold Job.rank
  rw [Finset.range_add_one, Finset.filter_insert]
  split
  · rw [Finset.card_insert_of_notMem (by simp)]
  · rw [Nat.add_zero]

omit [Inhabited V] in
theorem rank_mono {j : Nat} (h : i ≤ j) : job.rank i ≤ job.rank j :=
  Finset.card_le_card (Finset.filter_subset_filter _ (Finset.range_mono h))

omit [Inhabited V] in
theorem exists_rank_eq_zero (h : job.fails i) : ∃ j ≤ i, job.fails j ∧ job.rank j = 0 := by
  have hex : ∃ j, job.fails j := ⟨i, h⟩
  refine ⟨Nat.find hex, Nat.find_min' hex h, Nat.find_spec hex, ?_⟩
  rw [rank_eq_zero_iff]
  intro j hj
  simpa using Nat.find_min hex hj

omit [Inhabited V] in
theorem threads_eq_zero_iff : job.threads = 0 ↔ job.items.length = 0 := by
  unfold Job.threads
  omega

/-- Before an index no error is known: the first worker has run every item below it that
succeeds, and each item below it that fails is in the hands of a worker of its own,
which has not read the flag yet. -/
structure Poised (job : Job ι V G L E) (p : Nat) (σ : State V G L E T) : Prop where
  reachable : Reachable job σ
  next : σ.next = p
  aborted : σ.aborted = false
  error : σ.error = none
  locked : σ.locked = false
  idle : ∀ w : Fin T, w.val = 0 ∨ job.rank p < w.val → σ.workers w = .idle
  waiting : ∀ w, σ.workers w = .idle ∨ ∃ k, σ.workers w = .took k

theorem step_take (h : σ.workers w = .idle) :
    Step job σ { σ with
      next := σ.next + 1, workers := Function.update σ.workers w (.took σ.next) } :=
  ⟨w, step_iff.mpr (.take h)⟩

theorem run_next (h : σ.workers w = .idle) (hflag : σ.aborted = false)
    (ho : job.outcomeAt σ.next = some o) :
    Relation.ReflTransGen (Step job) σ { σ with
      next := σ.next + 1, log := σ.log ++ [σ.next]
      workers := Function.update σ.workers w (.ran σ.next o) } := by
  refine .head (step_take h) (.head ⟨w, step_iff.mpr (.start σ.next ?_ (outcomeAt_lt ho) hflag)⟩
    (.head ⟨w, step_iff.mpr (.run σ.next o ?_ ho)⟩ ?_))
  · exact Function.update_self ..
  · exact Function.update_self ..
  · simp only [Function.update_idem]
    exact .refl

theorem Poised.succ {p : Nat} (hp : Poised job p σ) (hlt : p < job.items.length)
    (hrank : job.rank (p + 1) < T) : ∃ σ' : State V G L E T, Poised job (p + 1) σ' := by
  have hT : 0 < T := Nat.zero_lt_of_lt hrank
  have hrank' : job.rank (p + 1) = _ := rank_succ p
  cases hfail : job.fails p with
  | true =>
    -- a worker of its own takes the item
    rw [hfail, if_pos rfl] at hrank'
    let w : Fin T := ⟨job.rank p + 1, hrank' ▸ hrank⟩
    have hw : σ.workers w = .idle := hp.idle w (.inr (Nat.lt_succ_self _))
    refine ⟨_, hp.reachable.tail (step_take hw), by rw [hp.next], hp.aborted, hp.error, hp.locked,
      ?_, ?_⟩
    · intro w' hw'
      have hne : w' ≠ w := by
        rintro rfl
        rw [hrank'] at hw'
        exact hw'.elim (Nat.succ_ne_zero _) (Nat.lt_irrefl _)
      dsimp only
      rw [Function.update_of_ne hne]
      exact hp.idle w' (hw'.imp_right fun h => by omega)
    · intro w'
      by_cases hne : w' = w
      · exact .inr ⟨_, by rw [hne]; exact Function.update_self ..⟩
      · dsimp only
        rw [Function.update_of_ne hne]
        exact hp.waiting w'
  | false =>
    -- the first worker runs the item
    rw [hfail, if_neg Bool.false_ne_true, Nat.add_zero] at hrank'
    let w : Fin T := ⟨0, hT⟩
    have hw : σ.workers w = .idle := hp.idle w (.inl rfl)
    obtain ⟨out, hout⟩ : ∃ out, job.outcomeAt p = some (.ok out) := by
      cases ho : job.task job.items[p] with
      | ok out => exact ⟨out, by rw [outcomeAt_eq hlt, ho]⟩
      | error e l =>
        rw [fails_iff.mpr ⟨e, l, by rw [outcomeAt_eq hlt, ho]⟩] at hfail
        cases hfail
    have hrun := run_next hw hp.aborted (hp.next.symm ▸ hout)
    have hstore := Relation.ReflTransGen.tail hrun
      ⟨w, step_iff.mpr (.storeOk σ.next out (by simp))⟩
    have hworkers : Function.update (Function.update σ.workers w (.ran σ.next (.ok out))) w .idle
        = σ.workers := by
      rw [Function.update_idem, ← hw, Function.update_eq_self]
    refine ⟨_, hp.reachable.trans hstore, by rw [hp.next], hp.aborted, hp.error, hp.locked, ?_, ?_⟩
    · dsimp only
      rw [hworkers, hrank']
      exact hp.idle
    · dsimp only
      rw [hworkers]
      exact hp.waiting

theorem exists_poised (hlt : i < job.items.length) (hrank : job.rank i < T) {p : Nat} (hpi : p ≤ i)
    : ∃ σ : State V G L E T, Poised job p σ := by
  induction p with
  | zero => exact ⟨State.initial T, .refl, rfl, rfl, rfl, rfl, fun _ _ => rfl, fun _ => .inl rfl⟩
  | succ p ih =>
    obtain ⟨σ, hσ⟩ := ih (by omega)
    exact hσ.succ (by omega) ((rank_mono hpi).trans_lt hrank)

/-- The flag is up, and no worker is past the flag. -/
structure Quiet (x : Nat × E) (σ : State V G L E T) : Prop where
  aborted : σ.aborted = true
  error : σ.error = some x
  waiting : ∀ w, σ.workers w = .idle ∨ (∃ k, σ.workers w = .took k) ∨ ∃ k, σ.workers w = .stopped k

omit [Inhabited V] in
theorem quiet_update {x : Nat × E} (hq : Quiet x σ)
    (hs : s = .idle ∨ (∃ k, s = .took k) ∨ ∃ k, s = .stopped k)
    (hw : σ'.workers = Function.update σ.workers w s) (hab : σ'.aborted = σ.aborted)
    (herr : σ'.error = σ.error) : Quiet x σ' := by
  refine ⟨hab.trans hq.aborted, herr.trans hq.error, ?_⟩
  intro w'
  rw [hw]
  by_cases hne : w' = w
  · subst hne
    rwa [Function.update_self]
  · rw [Function.update_of_ne hne]
    exact hq.waiting w'

theorem Quiet.step {x : Nat × E} (hq : Quiet x σ) (h : StepTo job σ w σ') : Quiet x σ' := by
  have hwait := hq.waiting w
  cases h with
  | take h => exact quiet_update hq (.inr (.inl ⟨_, rfl⟩)) rfl rfl rfl
  | stop i h _ => exact quiet_update hq (.inr (.inr ⟨i, rfl⟩)) rfl rfl rfl
  | start i h _ hflag =>
    rw [hq.aborted] at hflag
    cases hflag
  | run i o h _ | storeOk i out h | storeError i e l h | record i e h _
  | abort i h => simp [h] at hwait

theorem Quiet.of_run {x : Nat × E} (hq : Quiet x σ)
    (h : Relation.ReflTransGen (Step job) σ σ') : Quiet x σ' := by
  induction h with
  | refl => exact hq
  | tail _ hs ih =>
    obtain ⟨w, hw⟩ := hs
    exact ih.step (step_iff.mp hw)

/-- **A failing item before which fewer items fail than there are threads may be the one
whose error is returned**: the items that fail before it are taken by workers that read
the flag too late to run them. -/
theorem exists_final_error {e : E} {l : L} (ho : job.outcomeAt i = some (.error e l))
    (hrank : job.rank i < T) :
    ∃ σ : State V G L E T, Reachable job σ ∧ Final σ ∧ σ.error = some (i, e) := by
  obtain ⟨σ, hσ⟩ := exists_poised (outcomeAt_lt ho) hrank (le_refl i)
  let w : Fin T := ⟨0, Nat.zero_lt_of_lt hrank⟩
  have hw : σ.workers w = .idle := hσ.idle w (.inl rfl)
  have hnext : job.outcomeAt σ.next = some (.error e l) := hσ.next.symm ▸ ho
  have hrun := run_next hw hσ.aborted hnext
  have hstore := Relation.ReflTransGen.tail hrun
    ⟨w, step_iff.mpr (.storeError σ.next e l (by simp))⟩
  have hrecord := Relation.ReflTransGen.tail hstore
    ⟨w, step_iff.mpr (.record σ.next e (by simp) hσ.locked)⟩
  have habort := Relation.ReflTransGen.tail hrecord
    ⟨w, step_iff.mpr (.abort σ.next (by simp))⟩
  have hreach := hσ.reachable.trans habort
  obtain ⟨σ', hrest, hfinal⟩ := exists_final hreach
  have hquiet : Quiet (i, e) σ' := by
    refine Quiet.of_run ?_ hrest
    refine ⟨rfl, ?_, ?_⟩
    · simp [hσ.error, recordError, hσ.next]
    · intro w'
      by_cases hne : w' = w
      · exact .inl (by simp [hne])
      · simp only [Function.update_of_ne hne]
        exact (hσ.waiting w').imp_right .inl
  exact ⟨σ', hreach.trans hrest, hfinal, hquiet.error⟩

variable [Inhabited L]

theorem Returns.mono {P Q : Nat → Prop} (h : Returns job P σ)
    (hPQ : ∀ i e l, job.outcomeAt i = some (.error e l) → P i →
      ∃ j l', job.outcomeAt j = some (.error e l') ∧ Q j) : Returns job Q σ := by
  refine ⟨h.1, ?_⟩
  have h₂ := h.2
  generalize result job σ = r at h₂ ⊢
  match r, h₂ with
  | .ok _, h₂ => exact h₂
  | .error (e, ls), ⟨⟨i, l, ho, hP⟩, hls⟩ => exact ⟨hPQ i e l ho hP, hls⟩

/-- **When `run_parallel` returns what applying the task item after item returns.**  Every
schedule ends.  Whatever the schedule, no item is run twice, success means that each item
was run once and gives their results in order, and a failure gives the error of an item
that fails and the lineage of the items that were run.  That error is the one of the item
that fails first, on every schedule, exactly when the first failing items, as many as
there are threads, agree on it. -/
theorem runParallel_correct_iff (job : Job ι V G L E) :
    (∀ σ : State V G L E job.threads, Reachable job σ → Final σ ∨ ∃ σ', Step job σ σ') ∧
      (WellFounded fun σ' σ : State V G L E job.threads => Step job σ σ') ∧
      (∀ σ : State V G L E job.threads, Reachable job σ → Final σ →
        Returns job (fun i => job.rank i < job.threads) σ) ∧
      ((∀ σ : State V G L E job.threads, Reachable job σ → Final σ → Correct job σ) ↔
        FirstErrorsAgree job) := by
  have hsound : ∀ σ : State V G L E job.threads, Reachable job σ → Final σ →
      Returns job (fun i => job.rank i < job.threads) σ :=
    fun σ hr hf => (inv_of_reachable hr).returns hf threads_eq_zero_iff.mp
  refine ⟨fun σ hr => (inv_of_reachable hr).progress, step_wellFounded job, hsound, ?_, ?_⟩
  · intro h i e l ho hrank j e' l' hj hzero
    obtain ⟨σ, hr, hf, herr⟩ := exists_final_error ho hrank
    have hcorrect := (h σ hr hf).2
    simp only [result, herr] at hcorrect
    obtain ⟨⟨k, l'', hk, hfirst⟩, -⟩ := hcorrect
    -- two items that fail with none before them are one
    have hfk : job.fails k := fails_iff.mpr ⟨e, l'', hk⟩
    have hfj : job.fails j := fails_iff.mpr ⟨e', l', hj⟩
    have hkj : k = j := by
      rcases lt_trichotomy k j with hlt | heq | hlt
      · rw [rank_eq_zero_iff.mp hzero k hlt] at hfk
        cases hfk
      · exact heq
      · rw [hfirst j hlt] at hfj
        cases hfj
    rw [hkj, hj] at hk
    cases hk
    rfl
  · intro hagree σ hr hf
    refine (hsound σ hr hf).mono ?_
    intro i e l ho hrank
    obtain ⟨j, -, hj, hzero⟩ := exists_rank_eq_zero (fails_iff.mpr ⟨e, l, ho⟩)
    obtain ⟨e', l', hj'⟩ := fails_iff.mp hj
    have he : e = e' := hagree i e l ho hrank j e' l' hj' hzero
    exact ⟨j, l', he ▸ hj', rank_eq_zero_iff.mp hzero⟩

end Invariant

/-! Two items that fail with different errors, on two threads. -/

/-- The items fail with their own number. -/
def twoFailures : Job Nat Unit Unit Unit Nat :=
  { items := [0, 1], task := fun x => .error x (), limit := 2 }

/-- The state after a schedule: the workers in the order in which they take a step. -/
def runSchedule [Inhabited V] (job : Job ι V G L E) {T : Nat} (σ : State V G L E T) :
    List (Fin T) → Option (State V G L E T)
  | [] => some σ
  | w :: ws => (step job σ w).bind fun σ' => runSchedule job σ' ws

theorem reachable_of_runSchedule [Inhabited V] {job : Job ι V G L E} {T : Nat}
    {σ σ' : State V G L E T} {ws : List (Fin T)} (hr : Reachable job σ)
    (h : runSchedule job σ ws = some σ') : Reachable job σ' := by
  induction ws generalizing σ with
  | nil =>
    cases h
    exact hr
  | cons w ws ih =>
    obtain ⟨σ₁, hs, h'⟩ := Option.bind_eq_some_iff.mp h
    exact ih (hr.tail ⟨w, hs⟩) h'

/-- The first worker takes the first item; the second takes the other, runs it, records
its error and raises the flag; the first worker reads the flag and stops. -/
theorem not_runParallel_correct :
    ¬ ∀ (job : Job Nat Unit Unit Unit Nat) (σ : State Unit Unit Unit Nat job.threads),
        Reachable job σ → Final σ → Correct job σ := by
  intro h
  obtain ⟨σ, hσ⟩ : ∃ σ, runSchedule twoFailures (State.initial 2)
      [0, 1, 1, 1, 1, 1, 1, 0, 1, 1] = some σ := ⟨_, rfl⟩
  have herr : some (some (1, 1)) = some σ.error := congrArg (Option.map State.error) hσ
  have hw₀ : some (.stopped 0) = some (σ.workers 0) := congrArg (Option.map (State.workers · 0)) hσ
  have hw₁ : some (.stopped 2) = some (σ.workers 1) := congrArg (Option.map (State.workers · 1)) hσ
  have hf : Final σ := Fin.forall_fin_two.mpr
    ⟨⟨0, (Option.some.inj hw₀).symm⟩, ⟨2, (Option.some.inj hw₁).symm⟩⟩
  have hcorrect := (h twoFailures σ (reachable_of_runSchedule .refl hσ) hf).2
  simp only [result, ← Option.some.inj herr] at hcorrect
  obtain ⟨⟨i, l, ho, hfirst⟩, -⟩ := hcorrect
  have hi : 0 < i := by
    rcases Nat.eq_zero_or_pos i with rfl | hpos
    · cases ho
    · exact hpos
  exact absurd (hfirst 0 hi) (by decide)

/-- Two items that succeed, on two threads: every schedule returns their results. -/
theorem runParallel_correct_iff_squares :
    ∀ σ, Reachable { items := [2, 3], task := fun x => .ok ⟨x * x, [], ()⟩, limit := 2 } σ →
      Final σ → Correct (V := Nat) (G := Unit) (L := Unit) (E := Nat) (T := 2)
        { items := [2, 3], task := fun x => .ok ⟨x * x, [], ()⟩, limit := 2 } σ := by
  refine (runParallel_correct_iff (V := Nat) (G := Unit) (L := Unit) (E := Nat)
    { items := [2, 3], task := fun x => .ok ⟨x * x, [], ()⟩, limit := 2 }).2.2.2.mpr ?_
  intro i e l ho
  obtain ⟨x, -, hx⟩ := Option.map_eq_some_iff.mp ho
  cases hx

end Synsema.Parallel
