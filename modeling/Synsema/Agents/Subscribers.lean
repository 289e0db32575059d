import Mathlib.Algebra.GroupWithZero.Nat
import Synsema.Agents.Bus
import Mathlib.Data.List.Nodup

/-!
# Nothing is lost silently

What holds of every subscriber of a bus, whatever is published, received, subscribed and
unsubscribed in between: what it received and what it has yet to receive are events that were
published to it, in their order; its queue keeps its limits; what is dropped is counted, or told
by an error before anything later is received.
-/

namespace Synsema.EventBus

open Relation List Option
open scoped List

variable {A : Type}

/-! ## What a subscriber was told -/

/-- The events among what `try_recv` gave. -/
def given (log : List (Except Text (Event A))) : List (Event A) :=
  log.filterMap Except.toOption

/-- The log accounts for the events: those that are missing are followed by an error of an
overflow, and that comes before any event that was published after them. -/
inductive Told : List (Event A) → List (Except Text (Event A)) → Prop where
  | nil : Told [] []
  | event {events : List (Event A)} {log : List (Except Text (Event A))} (ev : Event A)
      (h : Told events log) : Told (events ++ [ev]) (log ++ [.ok ev])
  | lost {events : List (Event A)} {log : List (Except Text (Event A))} {gone : List (Event A)}
      (hgone : gone ≠ []) (n bytes : Nat) (h : Told events log) :
      Told (events ++ gone) (log ++ [.error (overflowMessage n bytes)])

/-- The log and what waits account for the events: what waits is the queue behind what was told,
or an error for all that was not, and no event. -/
def Loud (events : List (Event A)) (s : Subscriber A) (log : List (Except Text (Event A))) : Prop :=
  match s.queue.error with
  | none => ∃ told, events = told ++ s.queue.events ∧ Told told log
  | some e => ∃ told gone n bytes, events = told ++ gone ∧ gone ≠ [] ∧ Told told log ∧
      e = overflowMessage n bytes ∧ s.queue.events = []

variable {events : List (Event A)} {log : List (Except Text (Event A))} {r : Reader A}
  {w : World A}

theorem Told.given_sublist (h : Told events log) : given log <+ events := by
  induction h with
  | nil => exact List.Sublist.refl []
  | event ev _ ih =>
    rw [given, filterMap_append]
    exact ih.append (List.Sublist.refl [ev])
  | @lost events log gone _ n bytes _ ih =>
    rw [given, filterMap_append]
    exact ih.append (nil_sublist gone)

theorem Loud.sublist {s : Subscriber A} (h : Loud events s log) :
    given log ++ s.queue.events <+ events := by
  rw [Loud] at h
  split at h
  · obtain ⟨told, rfl, h⟩ := h
    exact h.given_sublist.append (List.Sublist.refl _)
  · obtain ⟨told, gone, n, bytes, rfl, -, h, -, hnil⟩ := h
    rw [hnil]
    exact h.given_sublist.append (nil_sublist gone)

/-! ## The invariant of a subscriber -/

/-- The bytes of the events of a queue. -/
def bytesOf (events : List (Event A)) : Nat := (events.map Event.size).sum

/-- What is so of a subscriber to which the events `flying` are yet to be pushed. -/
structure Kept (flying : List (Event A)) (r : Reader A) : Prop where
  /-- The limits are those of a `clamp`. -/
  limits : 1 ≤ r.sub.maxQueue ∧ r.sub.maxQueueBytes < 2 ^ 63
  bytes : r.sub.queue.queuedBytes = bytesOf r.sub.queue.events
  count : r.sub.queue.events.length ≤ r.sub.maxQueue
  room : 1 < r.sub.queue.events.length → r.sub.queue.queuedBytes ≤ r.sub.maxQueueBytes
  /-- What was pushed is accounted for, by the counters or in the log. -/
  settled : ∃ events, r.offered = events ++ flying ∧
    match r.sub.onFull with
    | .dropOldest => r.sub.queue.error = none ∧
        given r.log ++ r.sub.queue.events <+ events ∧
        ∃ d, r.sub.queue.dropped = UInt64.ofNat d ∧
          r.sub.queue.received = UInt64.ofNat events.length ∧
          events.length = (given r.log).length + d + r.sub.queue.events.length
    | .error => Loud events r.sub r.log

theorem Event.size_lt (e : Event A) : e.size < 2 ^ 63 := e.data.2

@[simp] theorem bytesOf_nil : bytesOf ([] : List (Event A)) = 0 := rfl

@[simp] theorem bytesOf_cons (e : Event A) (events : List (Event A)) :
    bytesOf (e :: events) = e.size + bytesOf events := rfl

@[simp] theorem bytesOf_append (events events' : List (Event A)) :
    bytesOf (events ++ events') = bytesOf events + bytesOf events' := by
  rw [bytesOf, map_append, sum_append]
  rfl

theorem Kept.bytes_lt {flying : List (Event A)} (h : Kept flying r) :
    r.sub.queue.queuedBytes < 2 ^ 63 := by
  have hroom := h.room
  have hlimit := h.limits.2
  have hbytes := h.bytes
  revert hroom hbytes
  cases r.sub.queue.events with
  | nil =>
    intro _ hbytes
    rw [hbytes, bytesOf_nil]
    exact Nat.two_pow_pos 63
  | cons e events =>
    cases events with
    | nil =>
      intro _ hbytes
      rw [hbytes, bytesOf_cons, bytesOf_nil]
      exact e.size_lt
    | cons e' events =>
      intro hroom _
      exact (hroom (Nat.succ_lt_succ (Nat.succ_pos _))).trans_lt hlimit

theorem usizeAdd_eq {a b : Nat} (ha : a < 2 ^ 63) (hb : b < 2 ^ 63) : usizeAdd a b = a + b :=
  Nat.mod_eq_of_lt (by omega)

theorem makeRoom_spec (s : Subscriber A) (size : Nat) {q : SubQueue A}
    (hq : q.queuedBytes = bytesOf events) :
    ∃ k, k ≤ events.length ∧ (s.makeRoom size q events).events = events.drop k ∧
      (s.makeRoom size q events).queuedBytes = bytesOf (events.drop k) ∧
      (s.makeRoom size q events).dropped = q.dropped + UInt64.ofNat k ∧
      (s.makeRoom size q events).received = q.received ∧
      (s.makeRoom size q events).error = q.error ∧
      (events.drop k = [] ∨ ¬ s.full size (s.makeRoom size q events)) := by
  induction events generalizing q with
  | nil => exact ⟨0, Nat.le_refl 0, rfl, hq, (UInt64.add_zero _).symm, rfl, rfl, .inl rfl⟩
  | cons old rest ih =>
    rw [Subscriber.makeRoom]
    by_cases h : s.full size { q with events := old :: rest }
    · rw [if_pos h]
      have hrest : q.queuedBytes - old.size = bytesOf rest := by
        rw [hq, bytesOf_cons, Nat.add_sub_cancel_left]
      obtain ⟨k, hk, hevents, hbytes, hdropped, hreceived, herror, hend⟩ :=
        ih (q := { q with
          queuedBytes := q.queuedBytes - old.size, dropped := q.dropped + 1 }) hrest
      refine ⟨k + 1, Nat.succ_le_succ hk, hevents, hbytes, ?_, hreceived, herror, hend⟩
      rw [hdropped, UInt64.add_assoc, UInt64.ofNat_add, UInt64.add_comm (UInt64.ofNat k)]
      rfl
    · rw [if_neg h]
      exact ⟨0, Nat.zero_le _, rfl, hq, (UInt64.add_zero _).symm, rfl, rfl, .inr h⟩

/-! ## A push -/

theorem kept_enqueue {s : Subscriber A} {q : SubQueue A} {ev : Event A}
    {offered : List (Event A)}
    (hlimits : 1 ≤ s.maxQueue ∧ s.maxQueueBytes < 2 ^ 63)
    (hbytes : q.queuedBytes = bytesOf q.events) (hlt : q.queuedBytes < 2 ^ 63)
    (herror : q.error = none) (hroom : q.events = [] ∨ ¬ s.full ev.size q)
    (hoffered : offered = events ++ [ev])
    (hsettled : match s.onFull with
      | .dropOldest => given log ++ q.events <+ events ∧
          ∃ d, q.dropped = UInt64.ofNat d ∧ q.received = UInt64.ofNat (events.length + 1) ∧
            events.length = (given log).length + d + q.events.length
      | .error => ∃ told, events = told ++ q.events ∧ Told told log) :
    Kept [] { sub := { s with queue := Subscriber.enqueue q ev }, offered, log } := by
  refine ⟨hlimits, ?_, ?_, ?_, events ++ [ev], ?_, ?_⟩
  · change usizeAdd q.queuedBytes ev.size = bytesOf (q.events ++ [ev])
    rw [usizeAdd_eq hlt ev.size_lt, hbytes, bytesOf_append, bytesOf_cons, bytesOf_nil, Nat.add_zero]
  · change (q.events ++ [ev]).length ≤ s.maxQueue
    rw [length_append]
    rcases hroom with hnil | hfull
    · rw [hnil]
      exact hlimits.1
    · rw [Subscriber.full, not_or] at hfull
      exact Nat.lt_of_not_le hfull.1
  · change 1 < (q.events ++ [ev]).length → usizeAdd q.queuedBytes ev.size ≤ s.maxQueueBytes
    rcases hroom with hnil | hfull
    · rw [hnil]
      exact fun h => absurd h (Nat.lt_irrefl 1)
    · rw [Subscriber.full, not_or] at hfull
      exact fun _ => Nat.le_of_not_lt hfull.2
  · rw [hoffered, append_nil]
  · change match s.onFull with
      | .dropOldest => q.error = none ∧ given log ++ (q.events ++ [ev]) <+ events ++ [ev] ∧
          ∃ d, q.dropped = UInt64.ofNat d ∧ q.received = UInt64.ofNat (events ++ [ev]).length ∧
            (events ++ [ev]).length = (given log).length + d + (q.events ++ [ev]).length
      | .error => Loud (events ++ [ev]) { s with queue := Subscriber.enqueue q ev } log
    cases hpolicy : s.onFull with
    | dropOldest =>
      rw [hpolicy] at hsettled
      obtain ⟨hsub, d, hdropped, hreceived, hlen⟩ := hsettled
      refine ⟨herror, ?_, d, hdropped, ?_, ?_⟩
      · rw [← append_assoc]
        exact hsub.append (List.Sublist.refl [ev])
      · rw [hreceived, length_append]
        rfl
      · rw [length_append, length_append, hlen]
        rfl
    | error =>
      rw [hpolicy] at hsettled
      obtain ⟨told, rfl, htold⟩ := hsettled
      have hnone : (Subscriber.enqueue q ev).error = none := herror
      dsimp only
      rw [Loud, hnone]
      exact ⟨told, append_assoc .., htold⟩

section Push

variable {s : Subscriber A} {ev : Event A}

theorem push_failed {e : Text} (herror : s.queue.error = some e) : s.push ev = s := by
  rw [Subscriber.push, herror, isSome_some, if_pos rfl]

/-- The queue with one event more received. -/
def counted (s : Subscriber A) : SubQueue A :=
  { s.queue with received := s.queue.received + 1 }

theorem push_room (herror : s.queue.error = none) (hfull : ¬ s.full ev.size (counted s)) :
    s.push ev = { s with queue := Subscriber.enqueue (counted s) ev } := by
  rw [Subscriber.push, herror, isSome_none, if_neg Bool.false_ne_true]
  exact if_neg hfull

theorem push_dropOldest (herror : s.queue.error = none) (hfull : s.full ev.size (counted s))
    (hpolicy : s.onFull = .dropOldest) :
    s.push ev = { s with
      queue := Subscriber.enqueue (s.makeRoom ev.size (counted s) s.queue.events) ev } := by
  rw [Subscriber.push, herror, isSome_none, if_neg Bool.false_ne_true]
  refine (if_pos hfull).trans ?_
  rw [hpolicy]
  rfl

theorem push_overflow (herror : s.queue.error = none) (hfull : s.full ev.size (counted s))
    (hpolicy : s.onFull = .error) :
    s.push ev = { s with queue := { counted s with
      error := some (overflowMessage s.queue.events.length s.queue.queuedBytes)
      events := [], queuedBytes := 0 } } := by
  rw [Subscriber.push, herror, isSome_none, if_neg Bool.false_ne_true]
  refine (if_pos hfull).trans ?_
  rw [hpolicy]
  rfl

theorem counted_received {n : Nat} (h : s.queue.received = UInt64.ofNat n) :
    (counted s).received = UInt64.ofNat (n + 1) := by
  rw [counted, h, UInt64.ofNat_add]
  rfl

end Push

theorem Kept.push {ev : Event A} (h : Kept [ev] r) : Kept [] { r with sub := r.sub.push ev } := by
  have hlt := h.bytes_lt
  obtain ⟨hlimits, hbytes, hcount, hroom, events, hoffered, hsettled⟩ := h
  obtain ⟨s, offered, log⟩ := r
  dsimp only at *
  have hall : offered = (events ++ [ev]) ++ [] := by rw [hoffered, append_nil]
  cases hpolicy : s.onFull with
  | dropOldest =>
    rw [hpolicy] at hsettled
    obtain ⟨herror, hsub, d, hdropped, hreceived, hlen⟩ := hsettled
    by_cases hfull : s.full ev.size (counted s)
    · rw [push_dropOldest herror hfull hpolicy]
      obtain ⟨k, hk, hkept, hkbytes, hkdropped, hkreceived, hkerror, hend⟩ :=
        makeRoom_spec s ev.size (q := counted s) hbytes
      rw [← hkept] at hend
      have hle : bytesOf (s.queue.events.drop k) ≤ bytesOf s.queue.events := by
        conv_rhs => rw [← take_append_drop k s.queue.events, bytesOf_append]
        exact Nat.le_add_left ..
      refine kept_enqueue hlimits (hkbytes.trans (by rw [hkept])) ?_ (hkerror.trans herror)
        hend hoffered ?_
      · rw [hkbytes]
        exact hle.trans_lt (hbytes ▸ hlt)
      · rw [hpolicy]
        refine ⟨?_, d + k, ?_, hkreceived.trans (counted_received hreceived), ?_⟩
        · rw [hkept]
          exact ((List.Sublist.refl _).append (drop_sublist ..)).trans hsub
        · rw [hkdropped, UInt64.ofNat_add, ← hdropped]
          rfl
        · rw [hkept, length_drop, hlen]
          omega
    · rw [push_room herror hfull]
      refine kept_enqueue hlimits hbytes hlt herror (.inr hfull) hoffered ?_
      rw [hpolicy]
      exact ⟨hsub, d, hdropped, counted_received hreceived, hlen⟩
  | error =>
    rw [hpolicy] at hsettled
    dsimp only at hsettled
    cases herror : s.queue.error with
    | some e =>
      rw [push_failed herror]
      refine ⟨hlimits, hbytes, hcount, hroom, events ++ [ev], hall, ?_⟩
      dsimp only
      rw [hpolicy]
      dsimp only
      rw [Loud, herror] at hsettled ⊢
      -- the error that waits stands for this event too
      obtain ⟨told, gone, n, bytes, rfl, hgone, htold, he, hnil⟩ := hsettled
      exact ⟨told, gone ++ [ev], n, bytes, append_assoc .., by simp, htold, he, hnil⟩
    | none =>
      rw [Loud, herror] at hsettled
      by_cases hfull : s.full ev.size (counted s)
      · rw [push_overflow herror hfull hpolicy]
        refine ⟨hlimits, rfl, Nat.zero_le _, nofun, events ++ [ev], hall, ?_⟩
        dsimp only
        rw [hpolicy]
        obtain ⟨told, rfl, htold⟩ := hsettled
        exact ⟨told, s.queue.events ++ [ev], _, _, append_assoc .., by simp, htold,
          rfl, rfl⟩
      · rw [push_room herror hfull]
        refine kept_enqueue hlimits hbytes hlt herror (.inr hfull) hoffered ?_
        rw [hpolicy]
        exact hsettled

/-! ## A reception -/

theorem Kept.tryRecv {flying : List (Event A)} (h : Kept flying r) :
    Kept flying { r with
      sub := r.sub.tryRecv.2, log := r.log ++ World.logged r.sub.tryRecv.1 } := by
  obtain ⟨hlimits, hbytes, hcount, hroom, events, hoffered, hsettled⟩ := h
  obtain ⟨s, offered, log⟩ := r
  dsimp only at *
  cases hevents : s.queue.events with
  | cons e rest =>
    have hrecv : s.tryRecv = (.ok (some e), { s with
        queue := { s.queue with events := rest, queuedBytes := s.queue.queuedBytes - e.size } }) := by
      rw [Subscriber.tryRecv, hevents]
    rw [hrecv]
    rw [hevents] at hbytes hcount hroom
    rw [bytesOf_cons] at hbytes
    refine ⟨hlimits, ?_, Nat.le_of_succ_le hcount, ?_, events, hoffered, ?_⟩
    · change s.queue.queuedBytes - e.size = bytesOf rest
      rw [hbytes, Nat.add_sub_cancel_left]
    · intro hmany
      exact (Nat.sub_le ..).trans (hroom (Nat.lt_succ_of_lt hmany))
    · dsimp only [World.logged]
      have hgiven : given (log ++ [.ok e]) = given log ++ [e] := filterMap_append
      cases hpolicy : s.onFull with
      | dropOldest =>
        rw [hpolicy] at hsettled
        obtain ⟨hnone, hsub, d, hdropped, hreceived, hlen⟩ := hsettled
        rw [hevents] at hsub hlen
        refine ⟨hnone, ?_, d, hdropped, hreceived, ?_⟩
        · rw [hgiven, append_assoc]
          exact hsub
        · rw [hgiven, length_append, hlen, length_cons, length_singleton]
          omega
      | error =>
        rw [hpolicy] at hsettled
        dsimp only at hsettled ⊢
        rw [Loud] at hsettled ⊢
        dsimp only
        cases herror : s.queue.error with
        | none =>
          rw [herror, hevents] at hsettled
          obtain ⟨told, rfl, htold⟩ := hsettled
          exact ⟨told ++ [e], (append_assoc told [e] rest).symm, htold.event e⟩
        | some m =>
          rw [herror, hevents] at hsettled
          obtain ⟨told, gone, n, bytes, -, -, -, -, hnil⟩ := hsettled
          cases hnil
  | nil =>
    cases herror : s.queue.error with
    | none =>
      have hrecv : s.tryRecv = (.ok none, s) := by
        rw [Subscriber.tryRecv, hevents, herror]
      rw [hrecv, World.logged, append_nil]
      exact ⟨hlimits, hbytes, hcount, hroom, events, hoffered, hsettled⟩
    | some m =>
      have hrecv : s.tryRecv =
          (.error m, { s with queue := { s.queue with error := none } }) := by
        rw [Subscriber.tryRecv, hevents, herror]
      rw [hrecv]
      refine ⟨hlimits, hbytes, hcount, hroom, events, hoffered, ?_⟩
      dsimp only [World.logged]
      cases hpolicy : s.onFull with
      | dropOldest =>
        rw [hpolicy, herror] at hsettled
        cases hsettled.1
      | error =>
        rw [hpolicy] at hsettled
        dsimp only at hsettled ⊢
        rw [Loud, herror] at hsettled
        obtain ⟨told, gone, n, bytes, rfl, hgone, htold, rfl, hnil⟩ := hsettled
        refine ⟨told ++ gone, ?_, htold.lost hgone n bytes⟩
        rw [hnil, append_nil]

/-! ## Every run -/

/-- What is yet to be pushed to a subscriber. -/
def World.flying (w : World A) (h : Handle) : List (Event A) :=
  if h ∈ w.flight then w.event.toList else []

/-- The invariant of a process: each subscription is a subscriber, and stands once; every
subscriber is kept. -/
structure World.Sound (w : World A) : Prop where
  nodup : (w.bus.subs.map Prod.snd).Nodup
  bounded : ∀ h ∈ w.bus.subs.map Prod.snd, h < w.readers.length
  flightNodup : w.flight.Nodup
  flightBounded : ∀ h ∈ w.flight, h < w.readers.length
  kept : ∀ h r, w.readers[h]? = some r → Kept (w.flying h) r

theorem World.sound_initial : (World.initial : World A).Sound :=
  ⟨nodup_nil, nofun, nodup_nil, nofun, fun h r hr => by cases hr⟩

theorem kept_new (id : UInt64) (patterns : List Text) (opts : SubscribeOpts) :
    Kept [] { sub := newSubscriber (A := A) id patterns opts, offered := [], log := [] } := by
  have hlimits : 1 ≤ clamp opts.maxQueue 1 maxQueueCeiling ∧
      clamp opts.maxQueueBytes 1 maxQueueBytesCeiling < 2 ^ 63 := by
    constructor
    · exact Nat.le_min.mpr ⟨Nat.le_max_right .., by decide⟩
    · exact (Nat.min_le_right ..).trans_lt (by decide)
  refine ⟨hlimits, rfl, Nat.zero_le _, nofun, [], rfl, ?_⟩
  change match opts.onFull with
    | .dropOldest => _
    | .error => Loud [] (newSubscriber id patterns opts) []
  cases opts.onFull with
  | dropOldest => exact ⟨rfl, List.Sublist.refl [], 0, rfl, rfl, rfl⟩
  | error => exact ⟨[], rfl, .nil⟩

theorem subs_filter (h : w.Sound) (p : UInt64 × Handle → Bool) :
    ((w.bus.subs.filter p).map Prod.snd).Nodup ∧
      ∀ x ∈ (w.bus.subs.filter p).map Prod.snd, x < w.readers.length := by
  have hsub : (w.bus.subs.filter p).map Prod.snd <+ w.bus.subs.map Prod.snd :=
    List.Sublist.map _ filter_sublist
  exact ⟨h.nodup.sublist hsub, fun x hx => h.bounded x (hsub.subset hx)⟩

theorem World.Sound.subscribe (h : w.Sound) (patterns : List Text) (opts : SubscribeOpts) :
    (w.subscribe patterns opts).2.Sound := by
  rw [World.subscribe]
  split_ifs with hmany
  · exact h
  obtain ⟨hnodup, hbounded⟩ := subs_filter h fun e => e.1 != w.bus.nextId
  dsimp only
  refine ⟨?_, ?_, h.flightNodup, ?_, ?_⟩
  · refine nodup_cons.mpr ⟨fun hmem => ?_, hnodup⟩
    exact absurd (hbounded _ hmem) (Nat.lt_irrefl _)
  · intro x hx
    change x < (w.readers ++ [_]).length
    rw [length_append, length_singleton]
    rcases List.mem_cons.mp hx with rfl | hx
    · exact Nat.lt_succ_self _
    · exact Nat.lt_succ_of_lt (hbounded x hx)
  · intro x hx
    rw [length_append]
    exact Nat.lt_add_right _ (h.flightBounded x hx)
  · intro x r hr
    change (w.readers ++ [_])[x]? = some r at hr
    change Kept (w.flying x) r
    rcases Nat.lt_trichotomy x w.readers.length with hlt | rfl | hgt
    · rw [getElem?_append_left hlt] at hr
      exact h.kept x r hr
    · rw [getElem?_concat_length] at hr
      obtain rfl := Option.some.inj hr
      have hnot : w.readers.length ∉ w.flight := fun hmem =>
        absurd (h.flightBounded _ hmem) (Nat.lt_irrefl _)
      rw [World.flying, if_neg hnot]
      exact kept_new ..
    · rw [getElem?_eq_none (by rw [length_append]; exact hgt)] at hr
      cases hr

theorem World.Sound.unsubscribe (h : w.Sound) (id : UInt64) : (w.unsubscribe id).Sound := by
  obtain ⟨hnodup, hbounded⟩ := subs_filter h fun e => e.1 != id
  exact ⟨hnodup, hbounded, h.flightNodup, h.flightBounded, h.kept⟩

theorem World.Sound.publish (h : w.Sound) (hflight : w.flight = []) (ev : Event A) :
    (w.publish ev).2.Sound := by
  have htargets : (w.targets ev.topic).Nodup ∧
      ∀ x ∈ w.targets ev.topic, x < w.readers.length :=
    ⟨h.nodup.filter _, fun x hx => h.bounded x (mem_of_mem_filter hx)⟩
  rw [World.publish]
  dsimp only
  refine ⟨h.nodup, ?_, htargets.1, ?_, ?_⟩
  · intro x hx
    rw [length_mapIdx]
    exact h.bounded x hx
  · intro x hx
    rw [length_mapIdx]
    exact htargets.2 x hx
  · intro x r hr
    rw [getElem?_mapIdx, map_eq_some_iff] at hr
    obtain ⟨r, hr, rfl⟩ := hr
    have hkept := h.kept x r hr
    rw [World.flying, hflight, if_neg not_mem_nil] at hkept
    rw [World.flying]
    dsimp only
    by_cases hx : x ∈ w.targets ev.topic
    · rw [if_pos hx, if_pos hx]
      obtain ⟨hlimits, hbytes, hcount, hroom, events, hoffered, hsettled⟩ := hkept
      refine ⟨hlimits, hbytes, hcount, hroom, events, ?_, hsettled⟩
      dsimp only
      rw [hoffered, append_nil]
      rfl
    · rw [if_neg hx, if_neg hx]
      exact hkept

theorem kept_modify {h : Handle} {f : Reader A → Reader A} {flying : Handle → List (Event A)}
    (hkept : ∀ x r, w.readers[x]? = some r → Kept (w.flying x) r)
    (hother : ∀ x, x ≠ h → flying x = w.flying x)
    (hf : ∀ r, Kept (w.flying h) r → Kept (flying h) (f r)) :
    ∀ x r, (w.readers.modify h f)[x]? = some r → Kept (flying x) r := by
  intro x r hr
  rw [getElem?_modify] at hr
  obtain ⟨r, hold, rfl⟩ := map_eq_some_iff.mp hr
  by_cases hx : h = x
  · subst hx
    rw [if_pos rfl]
    exact hf r (hkept h r hold)
  · rw [if_neg hx, hother x (Ne.symm hx)]
    exact hkept x r hold

theorem World.Sound.deliver (h : w.Sound) {x : Handle} {ev : Event A} (hx : x ∈ w.flight)
    (hev : w.event = some ev) : (w.deliver x ev).Sound := by
  rw [World.deliver]
  refine ⟨h.nodup, ?_, h.flightNodup.erase x, ?_, ?_⟩
  · intro y hy
    rw [length_modify]
    exact h.bounded y hy
  · intro y hy
    rw [length_modify]
    exact h.flightBounded y (mem_of_mem_erase hy)
  · refine kept_modify h.kept ?_ ?_
    · intro y hy
      rw [World.flying, World.flying]
      dsimp only
      exact if_congr (mem_erase_of_ne hy) rfl rfl
    · intro r hr
      have hgone : x ∉ w.flight.erase x := h.flightNodup.not_mem_erase
      rw [World.flying, if_pos hx, hev] at hr
      rw [World.flying]
      dsimp only
      rw [if_neg hgone]
      exact hr.push

theorem World.Sound.tryRecv (h : w.Sound) (x : Handle) : (w.tryRecv x).Sound := by
  rw [World.tryRecv]
  refine ⟨h.nodup, ?_, h.flightNodup, ?_, ?_⟩
  · intro y hy
    rw [length_modify]
    exact h.bounded y hy
  · intro y hy
    rw [length_modify]
    exact h.flightBounded y hy
  · exact kept_modify h.kept (fun _ _ => rfl) fun r hr => hr.tryRecv

theorem World.Sound.step {w' : World A} (h : w.Sound) (hstep : Step w w') : w'.Sound := by
  cases hstep with
  | subscribe patterns opts => exact h.subscribe patterns opts
  | unsubscribe id => exact h.unsubscribe id
  | publish hflight ev => exact h.publish hflight ev
  | deliver hx hev => exact h.deliver hx hev
  | tryRecv x => exact h.tryRecv x

theorem Reachable.sound (h : Reachable w) : w.Sound := by
  induction h with
  | refl => exact World.sound_initial
  | tail _ hstep ih => exact ih.step hstep

/-- Nothing is lost silently.  What a subscriber received and what waits in its queue are events
published to it, in order and each once; the bytes of the queue are counted and its limits kept;
under `drop_oldest` the counters account for what was pushed; and under `error` what is missing is
followed by an error before anything that was published after it. -/
theorem nothing_lost_silently {w : World A} (hw : Reachable w) {h : Handle} {r : Reader A}
    (hr : w.readers[h]? = some r) :
    given r.log ++ r.sub.queue.events <+ r.offered ∧
    r.sub.queue.queuedBytes = bytesOf r.sub.queue.events ∧
    r.sub.queue.events.length ≤ r.sub.maxQueue ∧
    (1 < r.sub.queue.events.length → r.sub.queue.queuedBytes ≤ r.sub.maxQueueBytes) ∧
    (r.sub.onFull = .dropOldest → ∃ received dropped,
      r.sub.queue.received = UInt64.ofNat received ∧ r.sub.queue.dropped = UInt64.ofNat dropped ∧
      received = (given r.log).length + dropped + r.sub.queue.events.length ∧
      received + (w.flying h).length = r.offered.length) ∧
    (r.sub.onFull = .error → ∃ events, r.offered = events ++ w.flying h ∧
      Loud events r.sub r.log) := by
  obtain ⟨-, hbytes, hcount, hroom, events, hoffered, hsettled⟩ := hw.sound.kept h r hr
  refine ⟨?_, hbytes, hcount, hroom, ?_, ?_⟩
  · have hsub : given r.log ++ r.sub.queue.events <+ events := by
      cases hpolicy : r.sub.onFull with
      | dropOldest =>
        rw [hpolicy] at hsettled
        exact hsettled.2.1
      | error =>
        rw [hpolicy] at hsettled
        exact Loud.sublist hsettled
    rw [hoffered]
    exact hsub.trans (sublist_append_left ..)
  · intro hpolicy
    rw [hpolicy] at hsettled
    obtain ⟨-, -, d, hdropped, hreceived, hlen⟩ := hsettled
    exact ⟨events.length, d, hreceived, hdropped, hlen, by rw [hoffered, length_append]⟩
  · intro hpolicy
    rw [hpolicy] at hsettled
    exact ⟨events, hoffered, hsettled⟩

/-- An event. -/
def sampleEvent : Event Unit :=
  { topic := "t", data := ⟨.nothing, by decide⟩, timestamp := () }

/-- A queue of one event that fails when it overflows. -/
def sampleOpts : SubscribeOpts := { maxQueue := 1, maxQueueBytes := 1000, onFull := .error }

/-- One event in the queue, and a second that is being published. -/
def sampleBusy : World Unit :=
  let w := (World.initial.subscribe ["t"] sampleOpts).2
  (((w.publish sampleEvent).2.deliver 0 sampleEvent).publish sampleEvent).2

/-- The second event overflows the queue, and the subscriber gets the error. -/
def sampleWorld : World Unit := (sampleBusy.deliver 0 sampleEvent).tryRecv 0

theorem nothing_lost_silently_sample :
    ∃ r, sampleWorld.readers[0]? = some r ∧ r.offered = [sampleEvent, sampleEvent] ∧
      r.log = [.error (overflowMessage 1 1)] ∧
      ∃ events, r.offered = events ++ sampleWorld.flying 0 ∧ Loud events r.sub r.log := by
  have hrun : Reachable sampleWorld := by
    refine .tail (.tail (.tail (.tail (.tail (.tail .refl (.subscribe _ _ _))
      (.publish rfl _)) (.deliver ?_ rfl)) (.publish rfl _)) (.deliver ?_ rfl)) (.tryRecv _ _)
    · exact mem_singleton.mpr rfl
    · exact mem_singleton.mpr rfl
  exact ⟨_, rfl, rfl, rfl, (nothing_lost_silently hrun rfl).2.2.2.2.2 rfl⟩

end Synsema.EventBus
