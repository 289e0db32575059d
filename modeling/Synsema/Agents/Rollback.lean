import Synsema.Agents.Blackboard
import Mathlib.Tactic.FinCases

/-!
# Cutting a run

A run that is cut leaves the blackboard as if it had never written: once every run has
finished, each key holds what the writes and deletes of the surviving runs, replayed in
their order, leave there.

A chain answers more than the live value: for every set of open runs, what the key would
hold without them.  That answer, `viewCell`, is what every step is followed on.
-/

namespace Synsema.Blackboard

open OrderedMap List

variable {V T : Type}

/-! ## The events that survive -/

namespace Event

/-- The run an event is about. -/
def run : Event V T → Option RunId
  | .write scope .. | .delete scope .. => scope
  | .agentStarted run | .agentDone run _ | .closeRun run _ => some run

/-- What an event writes: for which scope, under which key, and the value it leaves. -/
def effect : Event V T → Option (Scope × Text × Option V)
  | .write scope key value _ _ => some (scope, key, some value)
  | .delete scope key _ => some (scope, key, none)
  | _ => none

/-- Whether an event cuts a run. -/
def cuts (run : RunId) : Event V T → Bool
  | .agentDone run' cut | .closeRun run' cut => cut && run' = run
  | _ => false

/-- Whether an event starts an agent of a run. -/
def starts (run : RunId) : Event V T → Bool
  | .agentStarted run' => run' = run
  | _ => false

/-- Whether an event ends an agent of a run. -/
def ends (run : RunId) : Event V T → Bool
  | .agentDone run' _ => run' = run
  | _ => false

/-- Whether an event closes a run. -/
def closes (run : RunId) : Event V T → Bool
  | .closeRun run' _ => run' = run
  | _ => false

end Event

/-- A plain store after an event. -/
def applyEvent (store : Text → Option V) (e : Event V T) : Text → Option V :=
  match e.effect with
  | none => store
  | some (_, key, v) => Function.update store key v

/-- A plain store after some events. -/
def replay (es : List (Event V T)) : Text → Option V := es.foldl applyEvent fun _ => none

/-- Whether a scope is among some runs. -/
def dropped (D : RunId → Bool) (scope : Scope) : Bool := scope.any D

/-- Whether an event writes, for a scope that is not dropped. -/
def survives (D : RunId → Bool) (e : Event V T) : Bool :=
  e.effect.any fun w => !dropped D w.1

/-- What is left when the writes of some runs are taken out. -/
def surviving (D : RunId → Bool) (es : List (Event V T)) : Text → Option V :=
  replay (es.filter (survives D))

/-- Whether some part of a run was cut. -/
def cutIn (es : List (Event V T)) (run : RunId) : Bool := es.any (Event.cuts run)

/-- The agents of a run that started and did not end. -/
def liveIn (es : List (Event V T)) (run : RunId) : Nat :=
  es.countP (Event.starts run) - es.countP (Event.ends run)

/-- Whether a run was closed by its owner. -/
def closedIn (es : List (Event V T)) (run : RunId) : Bool := es.any (Event.closes run)

/-- A run has finished: its owner closed it and no agent of it is alive. -/
def Finished (es : List (Event V T)) (run : RunId) : Prop :=
  closedIn es run = true ∧ liveIn es run = 0

/-- What may come next: nothing of a run that has finished, one end for each agent that
started, one close for each run. -/
structure Allowed (es : List (Event V T)) (e : Event V T) : Prop where
  unfinished : ∀ run, e.run = some run → ¬ Finished es run
  ends_live : ∀ run, e.ends run = true → 0 < liveIn es run
  closes_once : ∀ run, e.closes run = true → closedIn es run = false

variable {e : Event V T} {p : RunId → Prop} {c : Chain V T} {D : RunId → Bool} {scope : Scope}
  {key : Text} {es : List (Event V T)} {s : Inner V T}

theorem Event.run_of_ends {run : RunId} (h : e.ends run) : e.run = some run := by
  cases e with
  | agentDone run' cut => exact congrArg some (of_decide_eq_true h)
  | _ => cases h

theorem Event.run_of_closes {e : Event V T} {run : RunId} (h : e.closes run) :
    e.run = some run := by
  cases e with
  | closeRun run' cut => exact congrArg some (of_decide_eq_true h)
  | _ => cases h

instance (es : List (Event V T)) (run : RunId) : Decidable (Finished es run) :=
  inferInstanceAs (Decidable (_ ∧ _))

instance (es : List (Event V T)) (e : Event V T) : Decidable (Allowed es e) :=
  decidable_of_iff ((∀ run ∈ e.run, ¬ Finished es run) ∧
      (∀ run ∈ e.run, e.ends run = true → 0 < liveIn es run) ∧
      ∀ run ∈ e.run, e.closes run = true → closedIn es run = false)
    ⟨fun h => ⟨h.1, fun run he => h.2.1 run (Event.run_of_ends he) he,
        fun run hc => h.2.2 run (Event.run_of_closes hc) hc⟩,
      fun h => ⟨h.1, fun run _ => h.2 run, fun run _ => h.3 run⟩⟩

/-- The sequences of events of a program. -/
inductive WellFormed : List (Event V T) → Prop
  | nil : WellFormed []
  | snoc {es : List (Event V T)} {e : Event V T} :
      WellFormed es → Allowed es e → WellFormed (es ++ [e])

/-- Every run there was has finished. -/
def AllFinished (es : List (Event V T)) : Prop :=
  ∀ e ∈ es, ∀ run, e.run = some run → Finished es run

/-! ### One more event -/

theorem surviving_snoc (D : RunId → Bool) (es : List (Event V T)) (e : Event V T) :
    surviving D (es ++ [e]) =
      if survives D e then applyEvent (surviving D es) e else surviving D es := by
  rw [surviving, filter_append, replay, foldl_append]
  by_cases h : survives D e <;> simp [h, surviving, replay]

theorem cutIn_snoc (es : List (Event V T)) (e : Event V T) (run : RunId) :
    cutIn (es ++ [e]) run = (cutIn es run || e.cuts run) := by
  simp [cutIn]

theorem closedIn_snoc (es : List (Event V T)) (e : Event V T) (run : RunId) :
    closedIn (es ++ [e]) run = (closedIn es run || e.closes run) := by
  simp [closedIn]

theorem run_snoc (es : List (Event V T)) (e : Event V T) :
    Blackboard.run (es ++ [e]) = (Blackboard.run es).step e := by
  rw [Blackboard.run, Blackboard.run, foldl_append]
  rfl

/-! ## What a chain answers -/

/-- The value of a version, when the live value is `x`. -/
def Version.value (x : Option V) (v : Version V T) : Option V :=
  match v.entry with
  | none => x
  | some e => e.map BlackboardEntry.value

/-- The last version of no dropped run. -/
def topmost (D : RunId → Bool) (vs : List (Version V T)) : Option (Version V T) :=
  vs.find? fun v => !dropped D v.scope

/-- What a key would hold without some runs, by its versions. -/
def viewVersions (D : RunId → Bool) (x : Option V) (base : Option (BlackboardEntry V T))
    (vs : List (Version V T)) : Option V :=
  match topmost D vs with
  | some v => v.value x
  | none => base.map BlackboardEntry.value

/-- What a key would hold without some runs, by its chain and its live value. -/
def viewCell (D : RunId → Bool) (c : Option (Chain V T)) (x : Option V) : Option V :=
  match c with
  | none => x
  | some c => viewVersions D x c.base c.versions

/-- Of some versions only the last one is live: the others have been copied. -/
def Layered : List (Version V T) → Prop
  | [] => True
  | top :: rest => top.entry = none ∧ ∀ v ∈ rest, v.entry.isSome

/-- A chain of open versions: there is one, of each run at most one, and of runs that are
open. -/
structure Chain.Open (isOpen : RunId → Prop) (c : Chain V T) : Prop where
  ne_nil : c.versions ≠ []
  layered : Layered c.versions
  nodup : (c.versions.map Version.scope).Nodup
  scope_open : ∀ v ∈ c.versions, ∃ run, v.scope = some run ∧ isOpen run

/-- The chain of a key, if it has one, is open. -/
def CellOpen (isOpen : RunId → Prop) (c : Option (Chain V T)) : Prop :=
  ∀ c' ∈ c, c'.Open isOpen

theorem CellOpen.exists_top (h : CellOpen p (some c)) :
    ∃ base top rest, c = ⟨base, top :: rest⟩ ∧ c.Open p := by
  have hopen := h c rfl
  obtain ⟨base, versions⟩ := c
  cases versions with
  | nil => exact absurd rfl hopen.ne_nil
  | cons top rest => exact ⟨base, top, rest, rfl, hopen⟩

variable {v : Version V T} {vs kept : List (Version V T)} {y : Option V} {agent : Text}
  {cut : Bool}

theorem Chain.Open.isOpen (h : c.Open p) (hv : v ∈ c.versions) {run : RunId}
    (hs : v.scope = some run) : p run := by
  obtain ⟨run', hs', hp⟩ := h.scope_open v hv
  rw [hs, Option.some.injEq] at hs'
  exact hs' ▸ hp

theorem Chain.Open.mono {q : RunId → Prop} (h : c.Open p)
    (hpq : ∀ v ∈ c.versions, ∀ run, v.scope = some run → p run → q run) : c.Open q where
  ne_nil := h.ne_nil
  layered := h.layered
  nodup := h.nodup
  scope_open := by
    intro v hv
    obtain ⟨run, hs, hp⟩ := h.scope_open v hv
    exact ⟨run, hs, hpq v hv run hs hp⟩

theorem Version.value_of_isSome (h : v.entry.isSome) (x y : Option V) : v.value x = v.value y := by
  obtain ⟨e, he⟩ := Option.isSome_iff_exists.mp h
  simp [Version.value, he]

theorem viewVersions_cons (D : RunId → Bool) (x : Option V) (base : Option (BlackboardEntry V T))
    (v : Version V T) (vs : List (Version V T)) :
    viewVersions D x base (v :: vs) =
      if dropped D v.scope then viewVersions D x base vs else v.value x := by
  by_cases h : dropped D v.scope <;> simp [viewVersions, topmost, h]

theorem viewVersions_of_isSome (h : ∀ v ∈ vs, v.entry.isSome) (D : RunId → Bool) (x y : Option V)
    (base : Option (BlackboardEntry V T)) :
    viewVersions D x base vs = viewVersions D y base vs := by
  induction vs with
  | nil => rfl
  | cons v vs ih =>
    rw [viewVersions_cons, viewVersions_cons,
      ih fun w hw => h w (mem_cons_of_mem v hw),
      Version.value_of_isSome (h v mem_cons_self) x y]

theorem viewVersions_append_of_kept (h : ∃ v ∈ kept, dropped D v.scope = false) (x : Option V)
    (base base' : Option (BlackboardEntry V T)) (vs vs' : List (Version V T)) :
    viewVersions D x base (kept ++ vs) = viewVersions D x base' (kept ++ vs') := by
  obtain ⟨w, hw⟩ : ∃ w, topmost D kept = some w := by
    rw [← Option.isSome_iff_exists, topmost, find?_isSome]
    obtain ⟨v, hv, hd⟩ := h
    exact ⟨v, hv, by simp [hd]⟩
  have happ : ∀ l, topmost D (kept ++ l) = some w := by
    intro l
    rw [topmost, find?_append]
    rw [topmost] at hw
    rw [hw, Option.some_or]
  simp only [viewVersions, happ]

theorem viewVersions_append_of_dropped (h : ∀ v ∈ kept, dropped D v.scope) (x : Option V)
    (base : Option (BlackboardEntry V T)) (vs : List (Version V T)) :
    viewVersions D x base (kept ++ vs) = viewVersions D x base vs := by
  induction kept with
  | nil => rfl
  | cons v kept ih =>
    rw [cons_append, viewVersions_cons, if_pos (h v mem_cons_self),
      ih fun w hw => h w (mem_cons_of_mem v hw)]

/-! ## Compacting -/

theorem dropped_all_or (D : RunId → Bool) (kept : List (Version V T)) :
    (∀ v ∈ kept, dropped D v.scope) ∨ ∃ v ∈ kept, dropped D v.scope = false := by
  by_cases h : ∀ v ∈ kept, dropped D v.scope = true
  · exact Or.inl h
  · push Not at h
    obtain ⟨v, hv, hd⟩ := h
    exact Or.inr ⟨v, hv, by simpa using hd⟩

theorem view_compactLoop (D : RunId → Bool) (x : Option V) (hvs : ∀ v ∈ vs, v.entry.isSome)
    (base : Option (BlackboardEntry V T)) (kept : List (Version V T)) :
    viewVersions D x (Chain.compactLoop base kept vs).1.base
        (Chain.compactLoop base kept vs).1.versions =
      viewVersions D x base (kept ++ vs) := by
  induction vs generalizing kept with
  | nil => rw [append_nil]; rfl
  | cons v vs ih =>
    have hvs' : ∀ w ∈ vs, w.entry.isSome := fun w hw => hvs w (mem_cons_of_mem v hw)
    obtain ⟨scope, entry⟩ := v
    obtain ⟨e, rfl⟩ : ∃ e, entry = some e := by
      simpa using Option.isSome_iff_exists.mp (hvs _ mem_cons_self)
    cases scope with
    | none =>
      -- a confirmed version is never dropped: nothing below it is looked at
      show viewVersions D x e kept = _
      rcases dropped_all_or D kept with hall | hsome
      · have hk := viewVersions_append_of_dropped hall x e []
        rw [append_nil] at hk
        rw [hk, viewVersions_append_of_dropped hall, viewVersions_cons,
          if_neg (by simp [dropped])]
        rfl
      · have hk := viewVersions_append_of_kept hsome x e base [] (⟨none, some e⟩ :: vs)
        rwa [append_nil] at hk
    | some r =>
      rw [Chain.compactLoop]
      split_ifs with hk
      · -- another version of the run stands above: this one never decides
        rw [ih hvs']
        rcases dropped_all_or D kept with hall | hsome
        · obtain ⟨w, hw, hws⟩ : ∃ w ∈ kept, w.scope = some r := by simpa using hk
          rw [viewVersions_append_of_dropped hall, viewVersions_append_of_dropped hall,
            viewVersions_cons, if_pos (by rw [← hws]; exact hall w hw)]
        · exact viewVersions_append_of_kept hsome x base base _ _
      · rw [ih hvs', append_assoc]
        rfl

theorem versions_compactLoop (base : Option (BlackboardEntry V T))
    (kept : List (Version V T)) (vs : List (Version V T)) (hvs : ∀ v ∈ vs, v.entry.isSome)
    (hne : kept ≠ []) (hnodup : (kept.map Version.scope).Nodup) :
    (Chain.compactLoop base kept vs).2 ∧
      ∃ l, (Chain.compactLoop base kept vs).1.versions = kept ++ l ∧ l.Sublist vs ∧
        (∀ v ∈ l, v.scope.isSome) ∧ ((kept ++ l).map Version.scope).Nodup := by
  induction vs generalizing kept with
  | nil => exact ⟨by simpa [Chain.compactLoop] using hne, [], by simp [Chain.compactLoop, hnodup]⟩
  | cons v vs ih =>
    have hvs' : ∀ w ∈ vs, w.entry.isSome := fun w hw => hvs w (mem_cons_of_mem v hw)
    obtain ⟨scope, entry⟩ := v
    obtain ⟨e, rfl⟩ : ∃ e, entry = some e := by
      simpa using Option.isSome_iff_exists.mp (hvs _ mem_cons_self)
    cases scope with
    | none => exact ⟨by simpa [Chain.compactLoop] using hne, [], by simp [Chain.compactLoop, hnodup]⟩
    | some r =>
      rw [Chain.compactLoop]
      split_ifs with hk
      · obtain ⟨h2, l, hl, hsub, hsome, hnd⟩ := ih _ hvs' hne hnodup
        exact ⟨h2, l, hl, hsub.cons _, hsome, hnd⟩
      · have hnew : some r ∉ kept.map Version.scope := by
          intro hmem
          obtain ⟨w, hw, hws⟩ := mem_map.mp hmem
          exact hk (any_eq_true.mpr ⟨w, hw, by simp [hws]⟩)
        let v : Version V T := ⟨some r, some e⟩
        have hnodup' : ((kept ++ [v]).map Version.scope).Nodup := by
          rw [map_append, nodup_append]
          refine ⟨hnodup, by simp, ?_⟩
          rintro a ha b hb rfl
          have hb' : a = some r := by simpa using hb
          exact hnew (hb' ▸ ha)
        obtain ⟨h2, l, hl, hsub, hsome, hnd⟩ := ih _ hvs' (by simp) hnodup'
        refine ⟨h2, v :: l, ?_, hsub.cons_cons _, ?_, ?_⟩
        · rw [hl, append_assoc]
          rfl
        · intro w hw
          rcases List.mem_cons.mp hw with rfl | hw
          · rfl
          · exact hsome w hw
        · simpa using hnd

theorem Chain.Open.compact {isOpen : RunId → Prop} (base : Option (BlackboardEntry V T))
    (top : Version V T) {rest : List (Version V T)} {run : RunId} (hs : top.scope = some run)
    (he : top.entry = none) (hrun : isOpen run) (hrest : ∀ v ∈ rest, v.entry.isSome)
    (hopen : ∀ v ∈ rest, ∀ r, v.scope = some r → isOpen r) :
    let c : Chain V T := { base, versions := top :: rest }
    c.compact.2 = true ∧ c.compact.1.Open isOpen ∧
      ∀ D x, viewVersions D x c.compact.1.base c.compact.1.versions = viewVersions D x base c.versions := by
  intro c
  have hc : c.compact = Chain.compactLoop base [top] rest := by
    obtain ⟨scope, entry⟩ := top
    cases hs
    cases he
    rfl
  obtain ⟨h2, l, hl, hsub, hsome, hnd⟩ := versions_compactLoop base [top] rest hrest
    (by simp) (by simp)
  rw [hc]
  refine ⟨h2, ⟨by simp [hl], ?_, by rwa [hl], ?_⟩, fun D x => view_compactLoop D x hrest base _⟩
  · rw [hl]
    exact ⟨he, fun v hv => hrest v (hsub.subset hv)⟩
  · rw [hl]
    intro v hv
    rcases List.mem_cons.mp hv with rfl | hv
    · exact ⟨run, hs, hrun⟩
    · obtain ⟨r, hr⟩ := Option.isSome_iff_exists.mp (hsome v hv)
      exact ⟨r, hr, hopen v (hsub.subset hv) r hr⟩

theorem Chain.compact_confirmed (base : Option (BlackboardEntry V T)) (top : Version V T)
    (rest : List (Version V T)) (hs : top.scope = none) (he : top.entry = none) :
    ({ base, versions := top :: rest } : Chain V T).compact.2 = false := by
  obtain ⟨scope, entry⟩ := top
  cases hs
  cases he
  rfl

/-! ## What each operation does at a key -/

namespace Inner

@[simp]
theorem runState_modifyRun (s : Inner V T) (run r : RunId) (f : RunState → RunState) :
    (s.modifyRun run f).runState r = if r = run then f (s.runState run) else s.runState r := by
  rw [runState, modifyRun, get?_insert]
  by_cases h : r = run <;> simp [h, runState]

theorem runState_addKey (s : Inner V T) (scope : Scope) (key : Text) (r : RunId) :
    (s.addKey scope key).runState r =
      if scope = some r then { s.runState r with keys := (s.runState r).keys.insert key () }
      else s.runState r := by
  cases scope with
  | none => simp [addKey]
  | some run =>
    rw [addKey, runState_modifyRun]
    by_cases h : r = run
    · subst h
      simp
    · rw [if_neg h, if_neg (by simpa using fun hr => h hr.symm)]

@[simp]
theorem chains_addKey (s : Inner V T) (scope : Scope) (key : Text) :
    (s.addKey scope key).chains = s.chains := by
  cases scope <;> rfl

@[simp]
theorem data_addKey (s : Inner V T) (scope : Scope) (key : Text) :
    (s.addKey scope key).data = s.data := by
  cases scope <;> rfl

@[simp]
theorem runs_putCompact (s : Inner V T) (key : Text) (c : Chain V T) :
    (s.putCompact key c).runs = s.runs := by
  rw [putCompact]
  split_ifs <;> rfl

@[simp]
theorem data_putCompact (s : Inner V T) (key : Text) (c : Chain V T) :
    (s.putCompact key c).data = s.data := by
  rw [putCompact]
  split_ifs <;> rfl

theorem get?_chains_putCompact (s : Inner V T) (key k : Text) (c : Chain V T) :
    (s.putCompact key c).chains.get? k =
      if k = key then (if c.compact.2 then some c.compact.1 else none) else s.chains.get? k := by
  rw [putCompact]
  by_cases hk : k = key <;> split_ifs <;> simp [get?_insert, get?_shiftRemove, hk]

@[simp]
theorem data_record (s : Inner V T) (scope : Scope) (key : Text)
    (prev : Option (BlackboardEntry V T)) : (s.record scope key prev).data = s.data := by
  unfold record
  split
  · split <;> simp
  · split
    · simp
    · split_ifs <;> simp

theorem runs_record (s : Inner V T) (scope : Scope) (key : Text)
    (prev : Option (BlackboardEntry V T)) :
    (s.record scope key prev).runs = (s.addKey scope key).runs ∨
      ((s.record scope key prev).runs = s.runs ∧
        ∃ c ∈ s.chains.get? key, ∃ v ∈ c.versions, v.scope = scope) := by
  unfold record
  cases hc : s.chains.get? key with
  | none =>
    left
    cases scope <;> rfl
  | some c =>
    obtain ⟨base, versions⟩ := c
    cases versions with
    | nil =>
      left
      cases scope <;> simp [addKey, modifyRun, runState]
    | cons top rest =>
      by_cases ht : top.scope = scope
      · right
        exact ⟨by simp [ht], _, rfl, top, mem_cons_self, ht⟩
      · left
        cases scope <;> simp [ht, addKey, modifyRun, runState]

variable {key k : Text} {s : Inner V T} {scope : Scope}

theorem get?_chains_record_of_ne (s : Inner V T) (scope : Scope)
    (prev : Option (BlackboardEntry V T)) (hk : k ≠ key) :
    (s.record scope key prev).chains.get? k = s.chains.get? k := by
  unfold record
  split
  · split
    · rfl
    · exact get?_insert_of_ne _ _ hk
  · split
    · rw [chains_addKey, get?_chains_putCompact, if_neg hk]
    · split_ifs
      · rfl
      · rw [chains_addKey, get?_chains_putCompact, if_neg hk]

theorem record_cell (prev : Option (BlackboardEntry V T)) (hc : CellOpen p (s.chains.get? key))
    (hs : ∀ run, scope = some run → p run) :
    CellOpen p ((s.record scope key prev).chains.get? key) ∧
      ∀ D y, viewCell D ((s.record scope key prev).chains.get? key) y =
        if dropped D scope then
          viewCell D (s.chains.get? key) (prev.map BlackboardEntry.value)
        else y := by
  unfold record
  cases hkey : s.chains.get? key with
  | none =>
    cases scope with
    | none =>
      refine ⟨?_, fun D y => ?_⟩
      · simp [CellOpen, hkey]
      · simp [viewCell, hkey, dropped]
    | some run =>
      have hget : (s.chains.insert key
          ({ base := prev, versions := [⟨some run, none⟩] } : Chain V T)).get? key = some _ :=
        get?_insert_self _ _ _
      refine ⟨?_, fun D y => ?_⟩
      · intro c' hc'
        obtain rfl : _ = c' := Option.some.inj (hget.symm.trans hc')
        exact ⟨by simp, by simp [Layered], by simp, by simpa using hs run rfl⟩
      · simp only [hget, viewCell, viewVersions_cons]
        split_ifs <;> rfl
  | some c =>
    rw [hkey] at hc
    obtain ⟨base, top, rest, rfl, hopen⟩ := hc.exists_top
    obtain ⟨htop, hrest⟩ := hopen.layered
    by_cases ht : top.scope = scope
    · -- the same scope changed the key last: the version stays
      simp only [if_pos ht, hkey]
      refine ⟨hc, fun D y => ?_⟩
      rw [viewCell, viewCell, viewVersions_cons, viewVersions_cons, ht]
      by_cases hd : dropped D scope
      · rw [if_pos hd, if_pos hd, if_pos hd]
        exact viewVersions_of_isSome hrest D _ _ base
      · rw [if_neg hd, if_neg hd, Version.value, htop]
    · simp only [if_neg ht, chains_addKey, get?_chains_putCompact, if_true]
      have hrest' : ∀ v ∈ { top with entry := some prev } :: rest, v.entry.isSome := by
        intro v hv
        rcases List.mem_cons.mp hv with rfl | hv
        · rfl
        · exact hrest v hv
      -- with the copy, the versions below answer for the old live value
      have hview : ∀ D y, viewVersions D y base ({ top with entry := some prev } :: rest) =
          viewVersions D (prev.map BlackboardEntry.value) base (top :: rest) := by
        intro D y
        rw [viewVersions_cons, viewVersions_cons, viewVersions_of_isSome hrest D y
          (prev.map BlackboardEntry.value), Version.value, Version.value, htop]
      cases scope with
      | none =>
        rw [Chain.compact_confirmed base _ _ rfl rfl]
        refine ⟨by simp [CellOpen], fun D y => ?_⟩
        simp [viewCell, dropped]
      | some run =>
        obtain ⟨h2, hopen', hv'⟩ := Chain.Open.compact base ⟨some run, none⟩ rfl rfl (hs run rfl) hrest' (by
            intro v hv r hr
            rcases List.mem_cons.mp hv with rfl | hv
            · exact hopen.isOpen (v := top) mem_cons_self hr
            · exact hopen.isOpen (mem_cons_of_mem _ hv) hr)
        rw [if_pos h2]
        refine ⟨?_, fun D y => ?_⟩
        · intro c' hc'
          cases hc'
          exact hopen'
        · show viewVersions D y _ _ = _
          rw [hv' D y, viewVersions_cons, hview]
          rfl

/-! ## Taking a run out, and confirming it -/

theorem get?_chains_settle_of_ne (s : Inner V T) (hk : k ≠ key) :
    (s.settle key).chains.get? k = s.chains.get? k := by
  rw [settle]
  split
  · rfl
  · rw [get?_chains_putCompact, if_neg hk]

@[simp]
theorem data_settle (s : Inner V T) (key : Text) : (s.settle key).data = s.data := by
  rw [settle]
  split
  · rfl
  · rw [data_putCompact]

@[simp]
theorem runs_settle (s : Inner V T) (key : Text) : (s.settle key).runs = s.runs := by
  rw [settle]
  split
  · rfl
  · rw [runs_putCompact]

theorem settle_of_get? (h : s.chains.get? key = some c) : s.settle key = s.putCompact key c := by
  rw [settle, h]

theorem get?_restore (data : OrderedMap Text (BlackboardEntry V T)) (key k : Text)
    (e : Option (BlackboardEntry V T)) :
    ((restore data key e).get? k).map BlackboardEntry.value =
      if k = key then e.map BlackboardEntry.value else (data.get? k).map BlackboardEntry.value := by
  cases e with
  | none =>
    rw [restore, get?_shiftRemove]
    split_ifs <;> rfl
  | some e =>
    rw [restore]
    split <;> rw [get?_insert] <;> split_ifs <;> rfl

theorem rollbackKey_frame (run : RunId) (s : Inner V T) (key : Text) :
    (rollbackKey run s key).runs = s.runs ∧
      ∀ k ≠ key, (rollbackKey run s key).chains.get? k = s.chains.get? k ∧
        (rollbackKey run s key).read k = s.read k := by
  unfold rollbackKey
  split
  · exact ⟨rfl, fun _ _ => ⟨rfl, rfl⟩⟩
  · dsimp only
    split_ifs
    · refine ⟨runs_settle _ _, fun k hk => ⟨?_, ?_⟩⟩
      · rw [get?_chains_settle_of_ne _ hk]
        exact get?_insert_of_ne _ _ hk
      · rw [read, data_settle, get?_restore, if_neg hk]
        rfl
    · exact ⟨rfl, fun k hk => ⟨get?_insert_of_ne _ _ hk, rfl⟩⟩

theorem commitKey_frame (run : RunId) (s : Inner V T) (key : Text) :
    (commitKey run s key).runs = s.runs ∧
      ∀ k ≠ key, (commitKey run s key).chains.get? k = s.chains.get? k ∧
        (commitKey run s key).read k = s.read k := by
  unfold commitKey
  split
  · exact ⟨rfl, fun _ _ => ⟨rfl, rfl⟩⟩
  · refine ⟨runs_settle _ _, fun k hk => ⟨?_, ?_⟩⟩
    · rw [get?_chains_settle_of_ne _ hk]
      exact get?_insert_of_ne _ _ hk
    · rw [read, data_settle]
      rfl

theorem viewVersions_filter {run : RunId} (hD : D run) (x : Option V)
    (base : Option (BlackboardEntry V T)) (vs : List (Version V T)) :
    viewVersions D x base (vs.filter fun v => v.scope ≠ some run) = viewVersions D x base vs := by
  induction vs with
  | nil => rfl
  | cons v vs ih =>
    rw [viewVersions_cons, ← ih]
    by_cases hv : v.scope = some run
    · rw [filter_cons_of_neg (by simp [hv]), if_pos (by simp [hv, dropped, hD])]
    · rw [filter_cons_of_pos (by simp [hv]), viewVersions_cons]

theorem viewVersions_confirmed {run : RunId} (hD : D run = false) (x : Option V)
    (base : Option (BlackboardEntry V T)) (vs : List (Version V T)) :
    viewVersions D x base
        (vs.map fun v => if v.scope = some run then { v with scope := none } else v) =
      viewVersions D x base vs := by
  induction vs with
  | nil => rfl
  | cons v vs ih =>
    rw [map_cons, viewVersions_cons, viewVersions_cons, ih]
    by_cases hv : v.scope = some run
    · simp [hv, dropped, hD, Version.value]
    · simp [hv]

theorem layered_filter {top : Version V T} {rest : List (Version V T)} {p : Version V T → Bool}
    (h : Layered (top :: rest)) (hp : p top) : Layered ((top :: rest).filter p) := by
  rw [filter_cons_of_pos hp]
  exact ⟨h.1, fun v hv => h.2 v (mem_of_mem_filter hv)⟩

variable {isOpen : RunId → Prop} {f : Inner V T → Text → Inner V T} {r : RunId}

theorem rollbackKey_cell (run : RunId) (hc : CellOpen isOpen (s.chains.get? key)) :
    CellOpen (fun r => isOpen r ∧ r ≠ run) ((rollbackKey run s key).chains.get? key) ∧
      ∀ D, D run = true →
        viewCell D ((rollbackKey run s key).chains.get? key) ((rollbackKey run s key).read key) =
          viewCell D (s.chains.get? key) (s.read key) := by
  unfold rollbackKey
  cases hkey : s.chains.get? key with
  | none =>
    dsimp only
    rw [hkey]
    exact ⟨by simp [CellOpen], fun _ _ => rfl⟩
  | some c =>
    rw [hkey] at hc
    obtain ⟨base, top, rest, rfl, hopen⟩ := hc.exists_top
    obtain ⟨htop, hrest⟩ := hopen.layered
    have hmem : ∀ v ∈ (top :: rest).filter (fun v => v.scope ≠ some run), ∀ r,
        v.scope = some r → isOpen r ∧ r ≠ run := by
      intro v hv r hr
      obtain ⟨hv, hne⟩ := mem_filter.mp hv
      refine ⟨hopen.isOpen hv hr, ?_⟩
      rintro rfl
      simp [hr] at hne
    have hview := fun (D : RunId → Bool) (hD : D run = true) (x : Option V) =>
      viewVersions_filter hD x base (top :: rest)
    by_cases ht : top.scope = some run
    · -- the run changed the key last: what comes back is the live entry of what is left
      simp only [head?_cons, Option.any_some, ht, decide_true, if_true]
      rw [settle_of_get? (get?_insert_self _ _ _), get?_chains_putCompact, if_pos rfl]
      simp only [read, data_putCompact, get?_restore, if_true]
      cases hvs : (top :: rest).filter (fun v => v.scope ≠ some run) with
      | nil =>
        refine ⟨by simp [CellOpen, Chain.moved, Chain.compact, Chain.compactLoop], fun D hD => ?_⟩
        have := hview D hD (s.read key)
        rw [hvs] at this
        exact this
      | cons top' rest' =>
        have hrest' : ∀ v ∈ top' :: rest', v.entry.isSome := by
          intro v hv
          have hv' := mem_filter.mp (hvs ▸ hv)
          rcases List.mem_cons.mp hv'.1 with rfl | hv''
          · simp [ht] at hv'
          · exact hrest v hv''
        rw [hvs] at hmem
        obtain ⟨r', hr'⟩ : ∃ r', top'.scope = some r' := by
          have hv' := mem_filter.mp (hvs ▸ mem_cons_self (a := top') (l := rest'))
          obtain ⟨r', hr', -⟩ := hopen.scope_open top' hv'.1
          exact ⟨r', hr'⟩
        obtain ⟨h2, hopen', hv'⟩ := Chain.Open.compact base { top' with entry := none } hr' rfl
          (hmem top' mem_cons_self r' hr')
          (fun v hv => hrest' v (mem_cons_of_mem _ hv))
          (fun v hv => hmem v (mem_cons_of_mem _ hv))
        rw [Chain.moved, if_pos h2]
        refine ⟨?_, fun D hD => ?_⟩
        · intro c' hc'
          cases hc'
          exact hopen'
        · show viewVersions D _ _ _ = viewVersions D (s.read key) base (top :: rest)
          rw [hv' D, ← hview D hD, hvs, viewVersions_cons, viewVersions_cons]
          split_ifs
          · exact viewVersions_of_isSome (fun v hv => hrest' v (mem_cons_of_mem _ hv)) _ _ _ _
          · obtain ⟨e, he⟩ := Option.isSome_iff_exists.mp (hrest' top' mem_cons_self)
            rw [Version.value, Version.value, he, Chain.restored, he]
            rfl
    · simp only [head?_cons, Option.any_some, ht, decide_false, Bool.false_eq_true, if_false,
        get?_insert_self]
      refine ⟨?_, fun D hD => hview D hD _⟩
      intro c' hc'
      cases hc'
      have hpos : decide (top.scope ≠ some run) := by simp [ht]
      refine ⟨?_, layered_filter (p := fun v => v.scope ≠ some run) hopen.layered hpos, ?_, ?_⟩
      · exact ne_nil_of_mem (mem_filter.mpr ⟨mem_cons_self, hpos⟩)
      · exact (filter_sublist.map _).nodup hopen.nodup
      · intro v hv
        obtain ⟨r, hr, -⟩ := hopen.scope_open v (mem_filter.mp hv).1
        exact ⟨r, hr, hmem v hv r hr⟩

theorem commitKey_cell (run : RunId) (hc : CellOpen isOpen (s.chains.get? key)) :
    CellOpen (fun r => isOpen r ∧ r ≠ run) ((commitKey run s key).chains.get? key) ∧
      ∀ D, D run = false →
        viewCell D ((commitKey run s key).chains.get? key) ((commitKey run s key).read key) =
          viewCell D (s.chains.get? key) (s.read key) := by
  unfold commitKey
  cases hkey : s.chains.get? key with
  | none =>
    dsimp only
    rw [hkey]
    exact ⟨by simp [CellOpen], fun _ _ => rfl⟩
  | some c =>
    rw [hkey] at hc
    obtain ⟨base, top, rest, rfl, hopen⟩ := hc.exists_top
    obtain ⟨htop, hrest⟩ := hopen.layered
    dsimp only
    rw [settle_of_get? (get?_insert_self _ _ _), get?_chains_putCompact, if_pos rfl]
    simp only [read, data_putCompact]
    have hview := fun (D : RunId → Bool) (hD : D run = false) (x : Option V) =>
      viewVersions_confirmed hD x base (top :: rest)
    by_cases ht : top.scope = some run
    · -- the run changed the key last: nothing is open above, and the live value stays
      rw [map_cons, if_pos ht, Chain.compact_confirmed base { top with scope := none } _ rfl htop]
      refine ⟨by simp [CellOpen], fun D hD => ?_⟩
      show s.read key = viewVersions D (s.read key) base (top :: rest)
      rw [viewVersions_cons, if_neg (by simp [dropped, ht, hD]), Version.value, htop]
    · obtain ⟨r', hr', ho⟩ := hopen.scope_open top mem_cons_self
      have hne : r' ≠ run := by
        rintro rfl
        exact ht hr'
      let rest' := rest.map fun v => if v.scope = some run then { v with scope := none } else v
      have hsome : ∀ v ∈ rest', v.entry.isSome := by
        intro v hv
        obtain ⟨w, hw, rfl⟩ := mem_map.mp hv
        have := hrest w hw
        split_ifs <;> exact this
      have hmem : ∀ v ∈ rest', ∀ r, v.scope = some r → isOpen r ∧ r ≠ run := by
        intro v hv r hr
        obtain ⟨w, hw, rfl⟩ := mem_map.mp hv
        by_cases hwr : w.scope = some run
        · simp [hwr] at hr
        · rw [if_neg hwr] at hr
          refine ⟨hopen.isOpen (mem_cons_of_mem _ hw) hr, ?_⟩
          rintro rfl
          exact hwr hr
      obtain ⟨h2, hopen', hv'⟩ := Chain.Open.compact base top hr' htop ⟨ho, hne⟩ hsome hmem
      rw [map_cons, if_neg ht, if_pos h2]
      refine ⟨?_, fun D hD => ?_⟩
      · intro c' hc'
        cases hc'
        exact hopen'
      · show viewVersions D _ _ _ = viewVersions D (s.read key) base (top :: rest)
        rw [hv' D, ← hview D hD, map_cons, if_neg ht]
        rfl

theorem foldl_runs (hf : ∀ s key, (f s key).runs = s.runs) (keys : List Text) (s : Inner V T) :
    (keys.foldl f s).runs = s.runs := by
  induction keys generalizing s with
  | nil => rfl
  | cons key keys ih => rw [foldl_cons, ih, hf]

theorem foldl_cells {run : RunId} {Q : (RunId → Bool) → Prop}
    (hframe : ∀ s key, ∀ k ≠ key,
      (f s key).chains.get? k = s.chains.get? k ∧ (f s key).read k = s.read k)
    (hcell : ∀ s key (isOpen : RunId → Prop), CellOpen isOpen (s.chains.get? key) →
      CellOpen (fun r => isOpen r ∧ r ≠ run) ((f s key).chains.get? key) ∧
        ∀ D, Q D → viewCell D ((f s key).chains.get? key) ((f s key).read key) =
          viewCell D (s.chains.get? key) (s.read key))
    (keys : List Text) (s : Inner V T) (p : Text → RunId → Prop)
    (hp : ∀ k, CellOpen (p k) (s.chains.get? k)) :
    ∀ k, CellOpen (fun r => p k r ∧ (k ∈ keys → r ≠ run)) ((keys.foldl f s).chains.get? k) ∧
      ∀ D, Q D → viewCell D ((keys.foldl f s).chains.get? k) ((keys.foldl f s).read k) =
          viewCell D (s.chains.get? k) (s.read k) := by
  induction keys generalizing s p with
  | nil =>
    refine fun k => ⟨?_, fun _ _ => rfl⟩
    intro c hc
    exact (hp k c hc).mono fun v _ r _ hr => ⟨hr, by simp⟩
  | cons key keys ih =>
    have hother := hframe s key
    obtain ⟨hopen, hview⟩ := hcell s key (p key) (hp key)
    have hp' : ∀ k, CellOpen (fun r => p k r ∧ (k = key → r ≠ run))
        ((f s key).chains.get? k) := by
      intro k c hc
      by_cases hk : k = key
      · subst hk
        exact (hopen c hc).mono fun v _ r _ hr => ⟨hr.1, fun _ => hr.2⟩
      · rw [(hother k hk).1] at hc
        exact (hp k c hc).mono fun v _ r _ hr => ⟨hr, fun h => absurd h hk⟩
    have hcells := ih (f s key) _ hp'
    refine fun k => ⟨?_, fun D hD => ?_⟩
    · intro c hc
      refine ((hcells k).1 c hc).mono fun v _ r _ hr => ⟨hr.1.1, fun hk => ?_⟩
      rcases List.mem_cons.mp hk with hk | hk
      · exact hr.1.2 hk
      · exact hr.2 hk
    · rw [foldl_cons, (hcells k).2 D hD]
      by_cases hk : k = key
      · subst hk
        exact hview D hD
      · rw [(hother k hk).1, (hother k hk).2]

theorem rollback_cells {run : RunId} {p : Text → RunId → Prop}
    (hp : ∀ k, CellOpen (p k) (s.chains.get? k))
    (hkeys : ∀ k, p k run → k ∈ (s.runState run).keys.keys) (k : Text) :
    CellOpen (fun r => p k r ∧ r ≠ run) ((s.rollback run).chains.get? k) ∧
      ∀ D, D run = true →
        viewCell D ((s.rollback run).chains.get? k) ((s.rollback run).read k) =
          viewCell D (s.chains.get? k) (s.read k) := by
  have hcells := foldl_cells (Q := fun D => D run = true)
    (fun s key => (rollbackKey_frame run s key).2)
    (fun s key _ hc => rollbackKey_cell run hc) (s.runState run).keys.keys
    (s.modifyRun run fun st => { st with keys := empty }) p hp
  refine ⟨?_, (hcells k).2⟩
  intro c hc
  refine ((hcells k).1 c hc).mono fun v _ r _ hr => ⟨hr.1, ?_⟩
  rintro rfl
  exact hr.2 (hkeys k hr.1) rfl

theorem commit_cells {run : RunId} {p : Text → RunId → Prop}
    (hp : ∀ k, CellOpen (p k) (s.chains.get? k))
    (hkeys : ∀ k, p k run → k ∈ (s.runState run).keys.keys) (k : Text) :
    CellOpen (fun r => p k r ∧ r ≠ run) ((s.commit run).chains.get? k) ∧
      ∀ D, D run = false →
        viewCell D ((s.commit run).chains.get? k) ((s.commit run).read k) =
          viewCell D (s.chains.get? k) (s.read k) := by
  have hcells := foldl_cells (Q := fun D => D run = false)
    (fun s key => (commitKey_frame run s key).2)
    (fun s key _ hc => commitKey_cell run hc) (s.runState run).keys.keys
    (s.modifyRun run fun st => { st with keys := empty }) p hp
  refine ⟨?_, (hcells k).2⟩
  intro c hc
  refine ((hcells k).1 c hc).mono fun v _ r _ hr => ⟨hr.1, ?_⟩
  rintro rfl
  exact hr.2 (hkeys k hr.1) rfl

theorem runs_rollback (s : Inner V T) (run : RunId) :
    (s.rollback run).runs = (s.modifyRun run fun st => { st with keys := empty }).runs :=
  foldl_runs (fun s key => (rollbackKey_frame run s key).1) _ _

theorem runs_commit (s : Inner V T) (run : RunId) :
    (s.commit run).runs = (s.modifyRun run fun st => { st with keys := empty }).runs :=
  foldl_runs (fun s key => (commitKey_frame run s key).1) _ _

theorem runState_congr {s' : Inner V T} (h : s.runs = s'.runs) (r : RunId) :
    s.runState r = s'.runState r := by
  rw [runState, runState, h]

theorem runState_rollback (s : Inner V T) (run r : RunId) :
    (s.rollback run).runState r =
      if r = run then { s.runState run with keys := empty } else s.runState r := by
  rw [runState_congr (runs_rollback s run), runState_modifyRun]

theorem live_runState_record (s : Inner V T) (scope : Scope) (key : Text)
    (prev : Option (BlackboardEntry V T)) (r : RunId) :
    let st := (s.record scope key prev).runState r
    st.live = (s.runState r).live ∧ st.closed = (s.runState r).closed ∧
      st.cut = (s.runState r).cut := by
  intro st
  have hst : st = ((s.addKey scope key).runState r) ∨ st = s.runState r := by
    rcases runs_record s scope key prev with h | ⟨h, -⟩
    · left
      simp only [st, runState, h]
    · right
      simp only [st, runState, h]
  rcases hst with h | h
  · rw [h, runState_addKey]
    split_ifs <;> exact ⟨rfl, rfl, rfl⟩
  · rw [h]
    exact ⟨rfl, rfl, rfl⟩

theorem mem_runs_record {prev : Option (BlackboardEntry V T)}
    (h : r ∈ (s.record scope key prev).runs.keys) : r ∈ s.runs.keys ∨ scope = some r := by
  rcases runs_record s scope key prev with hr | ⟨hr, -⟩
  · rw [hr] at h
    cases scope with
    | none => exact Or.inl h
    | some run =>
      rcases mem_keys_insert.mp h with rfl | h
      · exact Or.inr rfl
      · exact Or.inl h
  · exact Or.inl (hr ▸ h)

theorem mem_keys_record
    (prev : Option (BlackboardEntry V T))
    (hc : ∀ c ∈ s.chains.get? key, ∀ v ∈ c.versions, v.scope = some r →
      key ∈ (s.runState r).keys.keys)
    (hk : k ∈ (s.runState r).keys.keys ∨ (k = key ∧ scope = some r)) :
    k ∈ ((s.record scope key prev).runState r).keys.keys := by
  rcases runs_record s scope key prev with h | ⟨h, c, hcm, v, hv, hvs⟩
  · have : (s.record scope key prev).runState r = (s.addKey scope key).runState r := by
      simp only [runState, h]
    rw [this, runState_addKey]
    rcases hk with hk | ⟨rfl, hr⟩
    · split_ifs
      · exact mem_keys_insert.mpr (Or.inr hk)
      · exact hk
    · rw [if_pos hr]
      exact mem_keys_insert.mpr (Or.inl rfl)
  · have : (s.record scope key prev).runState r = s.runState r := by
      simp only [runState, h]
    rw [this]
    rcases hk with hk | ⟨rfl, hr⟩
    · exact hk
    · exact hc c hcm v hv (hvs.trans hr)

end Inner

/-! ## The invariant -/

/-- Sets of runs that may yet be taken out: those that were cut, and unfinished ones. -/
def Droppable (es : List (Event V T)) (D : RunId → Bool) : Prop :=
  ∀ r, (cutIn es r = true → D r = true) ∧ (D r = true → cutIn es r = true ∨ ¬ Finished es r)

/-- What holds of the blackboard after some events. -/
structure Inv (es : List (Event V T)) (s : Inner V T) : Prop where
  /-- No agent ends that did not start. -/
  balanced : ∀ r, es.countP (Event.ends r) ≤ es.countP (Event.starts r)
  run_state : ∀ r, ¬ Finished es r → (s.runState r).live = liveIn es r ∧
    (s.runState r).closed = closedIn es r ∧ (s.runState r).cut = cutIn es r
  finished : ∀ r, Finished es r → s.runs.get? r = none
  recorded : ∀ r ∈ s.runs.keys, ∃ e ∈ es, e.run = some r
  chain_open : ∀ k, CellOpen (fun r => ¬ Finished es r ∧ k ∈ (s.runState r).keys.keys)
    (s.chains.get? k)
  /-- Without any runs that may yet be taken out, a key holds what the others left. -/
  view : ∀ D, Droppable es D → ∀ k,
    viewCell D (s.chains.get? k) (s.read k) = surviving D es k

theorem inv_new : Inv [] (Inner.new : Inner V T) where
  balanced := by simp
  run_state := by
    intro r _
    exact ⟨rfl, rfl, rfl⟩
  finished := fun _ _ => rfl
  recorded := by
    intro r hr
    cases hr
  chain_open := by
    intro k c hc
    cases hc
  view := fun _ _ _ => rfl

/-! ### A write, a delete -/

theorem surviving_of_effect_none (D : RunId → Bool) (es : List (Event V T)) (he : e.effect = none) :
    surviving D (es ++ [e]) = surviving D es := by
  rw [surviving_snoc, if_neg (by simp [survives, he])]

theorem surviving_of_effect (D : RunId → Bool) (es : List (Event V T))
    (he : e.effect = some (scope, key, y)) (k : Text) :
    surviving D (es ++ [e]) k =
      if k = key ∧ dropped D scope = false then y else surviving D es k := by
  rw [surviving_snoc]
  by_cases hd : dropped D scope = true
  · rw [if_neg (by simp [survives, he, hd]), if_neg (by simp [hd])]
  · rw [if_pos (by simp [survives, he, hd]), applyEvent, he]
    by_cases hk : k = key <;> simp [hk, hd]

/-- An event that neither starts, ends, closes nor cuts leaves the runs as they are. -/
def Event.Quiet (e : Event V T) : Prop :=
  ∀ r, e.starts r = false ∧ e.ends r = false ∧ e.closes r = false ∧ e.cuts r = false

theorem Event.Quiet.finished_iff (hq : e.Quiet) (es : List (Event V T)) (r : RunId) :
    liveIn (es ++ [e]) r = liveIn es r ∧ closedIn (es ++ [e]) r = closedIn es r ∧
      cutIn (es ++ [e]) r = cutIn es r ∧ (Finished (es ++ [e]) r ↔ Finished es r) := by
  obtain ⟨hs, he, hc, hcut⟩ := hq r
  have hlive : liveIn (es ++ [e]) r = liveIn es r := by simp [liveIn, hs, he]
  have hclosed : closedIn (es ++ [e]) r = closedIn es r := by simp [closedIn_snoc, hc]
  exact ⟨hlive, hclosed, by simp [cutIn_snoc, hcut], by rw [Finished, Finished, hlive, hclosed]⟩

theorem Inv.writing {s' : Inner V T} (s₀ : Inner V T) (prev : Option (BlackboardEntry V T))
    (hi : Inv es s) (ha : Allowed es e) (hq : e.Quiet) (hrun : e.run = scope)
    (he : e.effect = some (scope, key, y)) (hprev : prev.map BlackboardEntry.value = s.read key)
    (hchains₀ : s₀.chains = s.chains) (hruns₀ : s₀.runs = s.runs)
    (hchains : s'.chains = (s₀.record scope key prev).chains)
    (hruns : s'.runs = (s₀.record scope key prev).runs)
    (hread : ∀ k, s'.read k = if k = key then y else s.read k) : Inv (es ++ [e]) s' := by
  have hst₀ : ∀ r, s₀.runState r = s.runState r := fun r => by simp only [Inner.runState, hruns₀]
  have hst : ∀ r, s'.runState r = (s₀.record scope key prev).runState r := fun r => by
    simp only [Inner.runState, hruns]
  have hopen₀ : ∀ k, CellOpen (fun r => ¬ Finished es r ∧ k ∈ (s₀.runState r).keys.keys)
      (s₀.chains.get? k) := by
    intro k
    simp only [hst₀, hchains₀]
    exact hi.chain_open k
  -- the chain of the key has a version of a run only where the key is one of the run's
  have hown : ∀ r, ∀ c ∈ s₀.chains.get? key, ∀ v ∈ c.versions, v.scope = some r →
      key ∈ (s₀.runState r).keys.keys := fun r c hc v hv hr => ((hopen₀ key c hc).isOpen hv hr).2
  have hkeys : ∀ r k, k ∈ (s₀.runState r).keys.keys ∨ (k = key ∧ scope = some r) →
      k ∈ (s'.runState r).keys.keys := fun r k hk => by
    rw [hst]
    exact Inner.mem_keys_record prev (hown r) hk
  have hcell := Inner.record_cell prev (s := s₀) (p := fun r ↦ ¬ Finished es r ∧ key ∈ (s'.runState r).keys.keys)
    (fun c hc => (hopen₀ key c hc).mono fun v _ r _ hr => ⟨hr.1, hkeys r key (Or.inl hr.2)⟩)
    (fun r hr => ⟨ha.unfinished r (hrun.trans hr), hkeys r key (Or.inr ⟨rfl, hr⟩)⟩)
  constructor
  · intro r
    have := hi.balanced r
    simpa [(hq r).1, (hq r).2.1] using this
  · intro r hr
    obtain ⟨h1, h2, h3, h4⟩ := hq.finished_iff es r
    obtain ⟨hl, hc, hcut⟩ := Inner.live_runState_record s₀ scope key prev r
    obtain ⟨hl', hc', hcut'⟩ := hi.run_state r (fun hf => hr (h4.mpr hf))
    rw [h1, h2, h3, hst, hl, hc, hcut, hst₀]
    exact ⟨hl', hc', hcut'⟩
  · intro r hr
    have hf := (hq.finished_iff es r).2.2.2.mp hr
    rw [get?_eq_none, hruns]
    intro hmem
    rcases Inner.mem_runs_record hmem with hmem | hs
    · rw [hruns₀] at hmem
      exact get?_eq_none.mp (hi.finished r hf) hmem
    · exact ha.unfinished r (hrun.trans hs) hf
  · intro r hr
    rw [hruns] at hr
    rcases Inner.mem_runs_record hr with hr | hs
    · obtain ⟨e', he', hr'⟩ := hi.recorded r (hruns₀ ▸ hr)
      exact ⟨e', mem_append_left _ he', hr'⟩
    · exact ⟨e, mem_append_right _ (mem_singleton_self e), hrun.trans hs⟩
  · intro k c hc
    rw [hchains] at hc
    by_cases hk : k = key
    · subst hk
      exact (hcell.1 c hc).mono fun v _ r _ hr =>
        ⟨fun hf => hr.1 ((hq.finished_iff es r).2.2.2.mp hf), hr.2⟩
    · rw [Inner.get?_chains_record_of_ne _ _ _ hk] at hc
      exact (hopen₀ k c hc).mono fun v _ r _ hr =>
        ⟨fun hf => hr.1 ((hq.finished_iff es r).2.2.2.mp hf), hkeys r k (Or.inl hr.2)⟩
  · intro D hD k
    have hD' : Droppable es D := by
      intro r
      obtain ⟨-, -, h3, h4⟩ := hq.finished_iff es r
      rw [← h3, ← h4]
      exact hD r
    rw [surviving_of_effect D es he k, hread k, hchains]
    by_cases hk : k = key
    · subst hk
      rw [hcell.2 D, if_pos rfl, hprev, hchains₀, hi.view D hD' k]
      by_cases hd : dropped D scope = true <;> simp [hd]
    · rw [Inner.get?_chains_record_of_ne _ _ _ hk, hchains₀, if_neg hk, if_neg (by simp [hk])]
      exact hi.view D hD' k

namespace Inner

theorem read_write (s : Inner V T) (scope : Scope) (key : Text) (value : V) (agent : Text)
    (now : T) (k : Text) :
    (s.write scope key value agent now).read k = if k = key then some value else s.read k := by
  unfold write read
  dsimp only
  rw [data_record]
  split <;> dsimp only <;> rw [get?_insert] <;> split_ifs <;> rfl

theorem read_delete (s : Inner V T) (scope : Scope) (key k : Text) :
    (s.delete scope key).read k = if k = key then none else s.read k := by
  rw [read, delete, data_record, get?_shiftRemove]
  split_ifs <;> rfl

end Inner

theorem Inv.write (hi : Inv es s) {value : V} {now : T}
    (ha : Allowed es (.write scope key value agent now)) :
    Inv (es ++ [.write scope key value agent now]) (s.write scope key value agent now) := by
  refine hi.writing s ((s.data.get? key).map BlackboardEntry.head) ha
    (fun _ ↦ ⟨rfl, rfl, rfl, rfl⟩) rfl rfl ?_ rfl rfl ?_ ?_ (s.read_write scope key value agent now)
  · rw [Option.map_map]
    rfl
  · unfold Inner.write
    dsimp only
    split <;> rfl
  · unfold Inner.write
    dsimp only
    split <;> rfl

theorem Inv.delete (hi : Inv es s) (ha : Allowed es (.delete scope key agent)) :
    Inv (es ++ [.delete scope key agent]) (s.delete scope key) :=
  hi.writing { s with data := s.data.shiftRemove key } (s.data.get? key) ha
    (fun _ => ⟨rfl, rfl, rfl, rfl⟩) rfl rfl rfl rfl rfl rfl rfl (s.read_delete scope key)

/-! ### The start of an agent -/

theorem Inv.agentStarted (hi : Inv es s) {run : RunId} (ha : Allowed es (.agentStarted run)) :
    Inv (es ++ [.agentStarted run]) (s.agentStarted run) := by
  have hlive : ∀ r, liveIn (es ++ [(.agentStarted run : Event V T)]) r =
      liveIn es r + if r = run then 1 else 0 := by
    intro r
    have := hi.balanced r
    by_cases hr : r = run
    · subst hr
      simp [liveIn, Event.starts, Event.ends]
      omega
    · simp [liveIn, Event.starts, Event.ends, hr, Ne.symm hr]
  have hclosed : ∀ r, closedIn (es ++ [(.agentStarted run : Event V T)]) r = closedIn es r := by
    simp [closedIn_snoc, Event.closes]
  have hcut : ∀ r, cutIn (es ++ [(.agentStarted run : Event V T)]) r = cutIn es r := by
    simp [cutIn_snoc, Event.cuts]
  have hfin : ∀ r, Finished (es ++ [(.agentStarted run : Event V T)]) r ↔ Finished es r := by
    intro r
    rw [Finished, Finished, hclosed, hlive]
    by_cases hr : r = run
    · subst hr
      have := ha.unfinished r rfl
      rw [Finished] at this
      simp only [if_true, Nat.add_eq_zero_iff, Nat.one_ne_zero, and_false, false_iff]
      exact this
    · rw [if_neg hr, Nat.add_zero]
  have hst := fun r => Inner.runState_modifyRun s run r fun st => { st with live := st.live + 1 }
  have hkeys : ∀ r, ((s.agentStarted run).runState r).keys = (s.runState r).keys := by
    intro r
    rw [Inner.agentStarted, hst]
    by_cases hr : r = run <;> simp [hr]
  constructor
  · intro r
    have := hi.balanced r
    by_cases hr : run = r
    · subst hr
      simp [Event.starts, Event.ends]
      omega
    · simpa [Event.starts, Event.ends, hr] using this
  · intro r hr
    obtain ⟨h1, h2, h3⟩ := hi.run_state r (fun hf => hr ((hfin r).mpr hf))
    rw [hlive, hclosed, hcut, Inner.agentStarted, hst, ← h1, ← h2, ← h3]
    by_cases hr' : r = run <;> simp [hr']
  · intro r hr
    have hf := (hfin r).mp hr
    have hne : r ≠ run := by
      rintro rfl
      exact ha.unfinished r rfl hf
    exact (get?_insert_of_ne _ _ hne).trans (hi.finished r hf)
  · intro r hr
    rcases mem_keys_insert.mp hr with rfl | hr
    · exact ⟨_, mem_append_right _ (mem_singleton_self _), rfl⟩
    · obtain ⟨e', he', hr'⟩ := hi.recorded r hr
      exact ⟨e', mem_append_left _ he', hr'⟩
  · intro k
    simp only [hfin, hkeys]
    exact hi.chain_open k
  · intro D hD k
    rw [surviving_of_effect_none D es rfl]
    refine hi.view D ?_ k
    intro r
    rw [← hcut, ← hfin]
    exact hD r

/-! ### The end of an agent, the close of a run -/

/-- An event that ends a part of a run, and says nothing of another one. -/
structure Event.Ending (e : Event V T) (run : RunId) : Prop where
  of_run : e.run = some run
  effect_none : e.effect = none
  starts_not : ∀ r, e.starts r = false
  other : ∀ r ≠ run, e.ends r = false ∧ e.closes r = false ∧ e.cuts r = false

namespace Inner

/-- What the end of a part of a run does, once its record says so. -/
def endPart (s : Inner V T) (run : RunId) (undo : Bool) : Inner V T :=
  (if undo then s.cutRun run else s).finishIfDone run

theorem cutRun_cells {run : RunId} (undo : Bool)
    (hp : ∀ k, CellOpen (fun r => p r ∧ k ∈ (s.runState r).keys.keys) (s.chains.get? k)) :
    let s' := if undo then s.cutRun run else s
    (∀ r ≠ run, s'.runs.get? r = s.runs.get? r) ∧
      ((s'.runState run).live = (s.runState run).live ∧
        (s'.runState run).closed = (s.runState run).closed ∧
        (s'.runState run).cut = (undo || (s.runState run).cut)) ∧
      ∀ k, CellOpen (fun r => p r ∧ (undo = true → r ≠ run) ∧ k ∈ (s'.runState r).keys.keys)
          (s'.chains.get? k) ∧
        ∀ D, (undo = true → D run = true) →
          viewCell D (s'.chains.get? k) (s'.read k) = viewCell D (s.chains.get? k) (s.read k) := by
  intro s'
  cases undo with
  | false =>
    refine ⟨fun _ _ => rfl, ⟨rfl, rfl, rfl⟩, fun k => ⟨?_, fun _ _ => rfl⟩⟩
    intro c hc
    exact (hp k c hc).mono fun v _ r _ hr => ⟨hr.1, by simp, hr.2⟩
  | true =>
    have hst := fun r => runState_modifyRun s run r fun st => { st with cut := true }
    have hst' : ∀ r, s'.runState r = if r = run
        then { s.runState run with cut := true, keys := empty } else s.runState r := by
      intro r
      rw [show s' = s.cutRun run from rfl, cutRun, runState_rollback, hst, hst]
      by_cases hr : r = run <;> simp [hr]
    have hcells := rollback_cells (s := s.modifyRun run fun st => { st with cut := true }) hp
      (fun k (hk : p run ∧ _) => by rw [hst, if_pos rfl]; exact hk.2)
    refine ⟨?_, ?_, fun k => ⟨?_, fun D hD => (hcells k).2 D (hD rfl)⟩⟩
    · intro r hr
      rw [show s'.runs = _ from runs_rollback _ run, modifyRun, get?_insert_of_ne _ _ hr, modifyRun,
        get?_insert_of_ne _ _ hr]
    · rw [hst', if_pos rfl]
      exact ⟨rfl, rfl, rfl⟩
    · intro c hc
      refine ((hcells k).1 c hc).mono fun v _ r _ hr => ⟨hr.1.1, fun _ => hr.2, ?_⟩
      rw [hst', if_neg hr.2]
      exact hr.1.2

theorem finishIfDone_cells (run : RunId)
    (hp : ∀ k, CellOpen (fun r => p r ∧ k ∈ (s.runState r).keys.keys) (s.chains.get? k))
    (hcut : (s.runState run).cut → ¬ p run) :
    let done : Prop := (s.runState run).live = 0 ∧ (s.runState run).closed = true
    let s' := s.finishIfDone run
    (∀ r ≠ run, s'.runs.get? r = s.runs.get? r) ∧
      (s'.runs.get? run = if done then none else s.runs.get? run) ∧
      ∀ k, CellOpen (fun r => p r ∧ (done → r ≠ run) ∧ k ∈ (s'.runState r).keys.keys)
          (s'.chains.get? k) ∧
        ∀ D, (done → (s.runState run).cut = false → D run = false) →
          viewCell D (s'.chains.get? k) (s'.read k) = viewCell D (s.chains.get? k) (s.read k) := by
  intro done s'
  have hs' : s' = if done then
      { (if (s.runState run).cut then s else s.commit run) with
        runs := (if (s.runState run).cut then s else s.commit run).runs.shiftRemove run }
      else s := rfl
  by_cases hdone : done
  · rw [if_pos hdone] at hs'
    have hother : ∀ r ≠ run, s'.runs.get? r = s.runs.get? r := by
      intro r hr
      rw [hs', get?_shiftRemove_of_ne _ hr]
      split_ifs
      · rfl
      · rw [runs_commit, modifyRun, get?_insert_of_ne _ _ hr]
    have hst : ∀ r ≠ run, s'.runState r = s.runState r := fun r hr => by
      rw [runState, runState, hother r hr]
    refine ⟨hother, by rw [if_pos hdone, hs', get?_shiftRemove_self], fun k => ?_⟩
    by_cases hc : (s.runState run).cut = true
    · rw [if_pos hc] at hs'
      refine ⟨?_, fun _ _ => by rw [hs']; rfl⟩
      intro c hmem
      rw [hs'] at hmem
      refine (hp k c hmem).mono fun v _ r _ hr => ?_
      have hne : r ≠ run := by
        rintro rfl
        exact hcut hc hr.1
      rw [hst r hne]
      exact ⟨hr.1, fun _ => hne, hr.2⟩
    · rw [if_neg hc] at hs'
      have hcells := commit_cells hp (fun k (hk : p run ∧ _) => hk.2) k
      refine ⟨?_, fun D hD => ?_⟩
      · intro c hmem
        rw [hs'] at hmem
        refine (hcells.1 c hmem).mono fun v _ r _ hr => ?_
        rw [hst r hr.2]
        exact ⟨hr.1.1, fun _ => hr.2, hr.1.2⟩
      · rw [hs']
        exact hcells.2 D (hD hdone (by simpa using hc))
  · rw [if_neg hdone] at hs'
    rw [hs', if_neg hdone]
    refine ⟨fun _ _ => rfl, rfl, fun k => ⟨?_, fun _ _ => rfl⟩⟩
    intro c hc
    exact (hp k c hc).mono fun v _ r _ hr => ⟨hr.1, fun h => absurd h hdone, hr.2⟩

end Inner

theorem Inv.ending {run : RunId} (f : RunState → RunState) (hi : Inv es s) (ha : Allowed es e)
    (he : e.Ending run)
    (hbalanced : ∀ r, (es ++ [e]).countP (Event.ends r) ≤ (es ++ [e]).countP (Event.starts r))
    (hlive : (f (s.runState run)).live = liveIn (es ++ [e]) run)
    (hclosed : (f (s.runState run)).closed = closedIn (es ++ [e]) run)
    (hcut : (f (s.runState run)).cut = (s.runState run).cut)
    (hkeys : (f (s.runState run)).keys = (s.runState run).keys) :
    Inv (es ++ [e]) ((s.modifyRun run f).endPart run (cutIn (es ++ [e]) run)) := by
  have hlive' : ∀ r ≠ run, liveIn (es ++ [e]) r = liveIn es r := by
    intro r hr
    simp [liveIn, he.starts_not r, (he.other r hr).1]
  have hclosed' : ∀ r ≠ run, closedIn (es ++ [e]) r = closedIn es r := by
    intro r hr
    simp [closedIn_snoc, (he.other r hr).2.1]
  have hcut' : ∀ r ≠ run, cutIn (es ++ [e]) r = cutIn es r := by
    intro r hr
    simp [cutIn_snoc, (he.other r hr).2.2]
  have hfin' : ∀ r ≠ run, (Finished (es ++ [e]) r ↔ Finished es r) := by
    intro r hr
    rw [Finished, Finished, hlive' r hr, hclosed' r hr]
  have hnot : ¬ Finished es run := ha.unfinished run he.of_run
  have hst := fun r => Inner.runState_modifyRun s run r f
  have hkeys' : ∀ r, ((s.modifyRun run f).runState r).keys = (s.runState r).keys := by
    intro r
    rw [hst]
    split_ifs with hr
    · rw [hkeys, hr]
    · rfl
  have hp : ∀ k, CellOpen (fun r => ¬ Finished es r ∧
      k ∈ ((s.modifyRun run f).runState r).keys.keys) ((s.modifyRun run f).chains.get? k) := by
    intro k
    simp only [hkeys']
    exact hi.chain_open k
  have hstart : (s.runState run).live = liveIn es run ∧ (s.runState run).closed = closedIn es run ∧
      (s.runState run).cut = cutIn es run := hi.run_state run hnot
  -- the run is taken out if it was cut, now or before
  obtain ⟨hother₂, ⟨hl₂, hc₂, hcut₂⟩, hcells₂⟩ :=
    Inner.cutRun_cells (cutIn (es ++ [e]) run) (s := s.modifyRun run f) hp
  rw [hst, if_pos rfl] at hl₂ hc₂ hcut₂
  rw [hlive] at hl₂
  rw [hclosed] at hc₂
  rw [hcut, hstart.2.2, cutIn_snoc, Bool.or_right_comm, Bool.or_self, ← cutIn_snoc] at hcut₂
  rw [Inner.endPart]
  generalize hs₂ : (if cutIn (es ++ [e]) run = true then (s.modifyRun run f).cutRun run
    else s.modifyRun run f) = s₂ at *
  -- and its record goes if it has finished
  obtain ⟨hother₃, hrun₃, hcells₃⟩ := Inner.finishIfDone_cells (s := s₂) run
    (p := fun r => ¬ Finished es r ∧ (cutIn (es ++ [e]) run = true → r ≠ run))
    (fun k c hc => ((hcells₂ k).1 c hc).mono fun v _ r _ hr => ⟨⟨hr.1, hr.2.1⟩, hr.2.2⟩)
    (fun h hr => hr.2 (hcut₂ ▸ h) rfl)
  have hdone : ((s₂.runState run).live = 0 ∧ (s₂.runState run).closed = true) ↔
      Finished (es ++ [e]) run := by
    rw [hl₂, hc₂, Finished, and_comm]
  have hother : ∀ r ≠ run, (s₂.finishIfDone run).runs.get? r = s.runs.get? r := by
    intro r hr
    rw [hother₃ r hr, hother₂ r hr, Inner.modifyRun, get?_insert_of_ne _ _ hr]
  constructor
  · exact hbalanced
  · intro r hr
    by_cases hr' : r = run
    · subst hr'
      have : (s₂.finishIfDone r).runState r = s₂.runState r := by
        rw [Inner.runState, hrun₃, if_neg (fun hd => hr (hdone.mp hd)), Inner.runState]
      rw [this]
      exact ⟨hl₂, hc₂, hcut₂⟩
    · have : (s₂.finishIfDone run).runState r = s.runState r := by
        rw [Inner.runState, hother r hr', Inner.runState]
      rw [this, hlive' r hr', hclosed' r hr', hcut' r hr']
      exact hi.run_state r fun hf => hr ((hfin' r hr').mpr hf)
  · intro r hr
    by_cases hr' : r = run
    · subst hr'
      rw [hrun₃, if_pos (hdone.mpr hr)]
    · rw [hother r hr']
      exact hi.finished r ((hfin' r hr').mp hr)
  · intro r hr
    by_cases hr' : r = run
    · exact ⟨e, mem_append_right _ (mem_singleton_self e), hr' ▸ he.of_run⟩
    · have hmem : r ∈ s.runs.keys := by
        by_contra hne
        rw [← get?_eq_none, ← hother r hr', get?_eq_none] at hne
        exact hne hr
      obtain ⟨e', he', hr'⟩ := hi.recorded r hmem
      exact ⟨e', mem_append_left _ he', hr'⟩
  · intro k c hc
    refine ((hcells₃ k).1 c hc).mono fun v _ r _ hr => ⟨fun hf => ?_, hr.2.2⟩
    by_cases hr' : r = run
    · subst hr'
      exact hr.2.1 (hdone.mpr hf) rfl
    · exact hr.1.1 ((hfin' r hr').mp hf)
  · intro D hD k
    have hD' : Droppable es D := by
      intro r
      by_cases hr : r = run
      · subst hr
        refine ⟨fun h => (hD r).1 ?_, fun _ => Or.inr hnot⟩
        rw [cutIn_snoc, h, Bool.true_or]
      · rw [← hcut' r hr, ← hfin' r hr]
        exact hD r
    rw [surviving_of_effect_none D es he.effect_none, ← hi.view D hD' k]
    rw [(hcells₃ k).2 D, (hcells₂ k).2 D]
    · rfl
    · exact (hD run).1
    · intro hd hc
      by_contra hne
      rcases (hD run).2 (by simpa using hne) with h | h
      · rw [← hcut₂, hc] at h
        exact Bool.false_ne_true h
      · exact h (hdone.mp hd)

theorem Inv.agentDone (hi : Inv es s) {run : RunId} (ha : Allowed es (.agentDone run cut)) :
    Inv (es ++ [.agentDone run cut]) (s.agentDone run cut) := by
  obtain ⟨hl, -, hcut⟩ := hi.run_state run (ha.unfinished run rfl)
  have hpos := ha.ends_live run (by simp [Event.ends])
  have hends : Event.Ending (.agentDone run cut : Event V T) run := by
    refine ⟨rfl, rfl, fun _ => rfl, fun r hr => ⟨?_, rfl, ?_⟩⟩
    · simp [Event.ends, Ne.symm hr]
    · simp [Event.cuts, Ne.symm hr]
  have hmain := hi.ending (fun st => { st with live := st.live - 1 }) ha hends
    (by
      intro r
      have := hi.balanced r
      rw [liveIn] at hpos
      by_cases hr : run = r
      · subst hr
        simp [Event.starts, Event.ends]
        omega
      · simpa [Event.starts, Event.ends, hr] using this)
    (by simp [hl, liveIn, Event.starts, Event.ends, Nat.sub_sub])
    (by
      have := (hi.run_state run (ha.unfinished run rfl)).2.1
      simp [this, closedIn_snoc, Event.closes])
    rfl rfl
  have hundo : (cut || ((s.modifyRun run fun st => { st with live := st.live - 1 }).runState
      run).cut) = cutIn (es ++ [.agentDone run cut]) run := by
    rw [Inner.runState_modifyRun, if_pos rfl, hcut, cutIn_snoc, Bool.or_comm]
    simp [Event.cuts]
  rw [← hundo] at hmain
  exact hmain

theorem Inv.closeRun (hi : Inv es s) {run : RunId} (ha : Allowed es (.closeRun run cut)) :
    Inv (es ++ [.closeRun run cut]) (s.closeRun run cut) := by
  obtain ⟨hl, -, hcut⟩ := hi.run_state run (ha.unfinished run rfl)
  have hends : Event.Ending (.closeRun run cut : Event V T) run := by
    refine ⟨rfl, rfl, fun _ => rfl, fun r hr => ⟨rfl, ?_, ?_⟩⟩
    · simp [Event.closes, Ne.symm hr]
    · simp [Event.cuts, Ne.symm hr]
  have hmain := hi.ending (fun st => { st with closed := true }) ha hends
    (by simpa [Event.starts, Event.ends] using hi.balanced)
    (by simp [hl, liveIn, Event.starts, Event.ends])
    (by simp [closedIn_snoc, Event.closes])
    rfl rfl
  have hundo : (cut || (s.runState run).cut) = cutIn (es ++ [.closeRun run cut]) run := by
    rw [hcut, cutIn_snoc, Bool.or_comm]
    simp [Event.cuts]
  rw [← hundo] at hmain
  exact hmain

/-! ## Every sequence of events -/

theorem Inv.step (hi : Inv es s) (ha : Allowed es e) : Inv (es ++ [e]) (s.step e) := by
  cases e with
  | write scope key value agent now => exact hi.write ha
  | delete scope key agent => exact hi.delete ha
  | agentStarted run => exact hi.agentStarted ha
  | agentDone run cut => exact hi.agentDone ha
  | closeRun run cut => exact hi.closeRun ha

theorem inv_run (h : WellFormed es) : Inv es (run es) := by
  induction h with
  | nil => exact inv_new
  | snoc _ ha ih =>
    rw [run_snoc]
    exact ih.step ha

theorem droppable_cutIn (es : List (Event V T)) : Droppable es (cutIn es) :=
  fun _ => ⟨id, Or.inl⟩

theorem Inv.chains_empty (hi : Inv es s) (hall : AllFinished es) : s.chains = empty := by
  apply eq_empty_of_get?
  intro k
  by_contra hne
  obtain ⟨c, hc⟩ := Option.ne_none_iff_exists'.mp hne
  have hopen := hi.chain_open k c hc
  obtain ⟨v, hv⟩ := exists_mem_of_ne_nil _ hopen.ne_nil
  obtain ⟨r, -, hr, hk⟩ := hopen.scope_open v hv
  -- the run has keys, so it has a record, so there was an event of it
  have hmem : r ∈ s.runs.keys := by
    by_contra hnot
    rw [Inner.runState, get?_eq_none.mpr hnot] at hk
    cases hk
  obtain ⟨e, he, hrun⟩ := hi.recorded r hmem
  exact hr (hall e he r hrun)

theorem Inv.runs_empty (hi : Inv es s) (hall : AllFinished es) : s.runs = empty := by
  apply eq_empty_of_get?
  intro r
  by_contra hne
  have hmem : r ∈ s.runs.keys := by
    by_contra hnot
    exact hne (get?_eq_none.mpr hnot)
  obtain ⟨e, he, hrun⟩ := hi.recorded r hmem
  exact hne (hi.finished r (hall e he r hrun))

theorem Inv.read_eq (hi : Inv es s) (hall : AllFinished es) (k : Text) :
    s.read k = surviving (cutIn es) es k := by
  have := hi.view _ (droppable_cutIn es) k
  rwa [hi.chains_empty hall] at this

/-- Whether an event writes or deletes. -/
def Event.writes (e : Event V T) : Bool := e.effect.isSome

theorem surviving_congr {es' : List (Event V T)} {D' : RunId → Bool}
    (hw : es.filter Event.writes = es'.filter Event.writes) (hD : D = D') :
    surviving D es = surviving D' es' := by
  subst hD
  have hfilter : ∀ l : List (Event V T),
      l.filter (survives D) = (l.filter Event.writes).filter (survives D) := by
    intro l
    rw [filter_filter]
    apply filter_congr
    intro e _
    cases he : e.effect <;> simp [survives, Event.writes, he]
  rw [surviving, surviving, hfilter es, hfilter es', hw]

/-- Cutting a run erases it, whatever the interleaving.  A chain holds at most one version of
each unfinished run, and no other.  Where every run has finished, each key holds what the
writes and deletes of no run and of the runs that were not cut leave there, no chain and no
record is left, and neither does it matter in which order the parts of the runs ended. -/
theorem run_erases_cut {es : List (Event V T)} (hwf : WellFormed es) :
    (∀ k c, (run es).chains.get? k = some c → (c.versions.map Version.scope).Nodup ∧
      ∀ v ∈ c.versions, ∃ r, v.scope = some r ∧ ¬ Finished es r) ∧
    (AllFinished es → (∀ k, (run es).read k = surviving (cutIn es) es k) ∧
      (run es).chains = empty ∧ (run es).runs = empty) ∧
    (AllFinished es → ∀ es', WellFormed es' → es.Perm es' →
      es.filter Event.writes = es'.filter Event.writes →
        ∀ k, (run es).read k = (run es').read k) := by
  have hi := inv_run hwf
  refine ⟨?_, fun hall => ⟨hi.read_eq hall, hi.chains_empty hall, hi.runs_empty hall⟩, ?_⟩
  · intro k c hc
    have hopen := hi.chain_open k c hc
    exact ⟨hopen.nodup, fun v hv => (hopen.scope_open v hv).imp fun r hr => ⟨hr.1, hr.2.1⟩⟩
  · intro hall es' hwf' hperm hw k
    have hcut : cutIn es = cutIn es' := by
      funext r
      exact hperm.any_eq
    have hall' : AllFinished es' := by
      intro e he r hr
      obtain ⟨hc, hl⟩ := hall e (hperm.mem_iff.mpr he) r hr
      rw [closedIn, hperm.any_eq] at hc
      rw [liveIn, hperm.countP_eq, hperm.countP_eq] at hl
      exact ⟨hc, hl⟩
    rw [hi.read_eq hall, (inv_run hwf').read_eq hall', surviving_congr hw hcut]

/-- A run writes over another one, is written over, and is cut. -/
def cutTrace : List (Event Nat Unit) :=
  [.write (some 0) "k" 1 [] (), .write (some 1) "k" 2 [] (),
    .write (some 0) "k" 3 [] (), .closeRun 1 false, .closeRun 0 true]

theorem wellFormed_cutTrace : WellFormed cutTrace :=
  .snoc (.snoc (.snoc (.snoc (.snoc .nil (by decide)) (by decide)) (by decide)) (by decide))
    (by decide)

theorem run_erases_cut_trace :
    (run cutTrace).read "k" = some 2 ∧ (run cutTrace).chains = empty := by
  have hall : AllFinished cutTrace := by
    intro e he run hr
    fin_cases he <;> cases hr <;> decide
  obtain ⟨hread, hchains, -⟩ := (run_erases_cut wellFormed_cutTrace).2.1 hall
  exact ⟨(hread _).trans (by decide), hchains⟩

end Synsema.Blackboard
