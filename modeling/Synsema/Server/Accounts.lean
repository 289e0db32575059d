import Synsema.Lib.Census
import Mathlib.Data.List.Induction

/-!
# Requests and streams in flight

The counters of `ServeRuntime` (`synsema-stdlib/src/server.rs`, `begin_request`, `end_request`,
`try_acquire_stream`, `release_stream`) and everything that moves them: the job of a request in
`handle_request`, the tunnel and the body of a proxied response in `proxy_request`.  Each step is
what one thread or task does at once: one operation on one counter.

The counters are right in every state of a run exactly where no job is dropped before it runs, no
handler unwinds while it holds a stream, and no tunnel's task is dropped (`accounts_iff`): what
`begin_request` began is ended by a guard that only the running job has, and a stream is given back
by a plain call behind the handler.
-/

namespace Synsema.Server

open Census List

/-! ## Counters -/

/-- What the counters of the runtime hold; a cancel token stands for the request it belongs to. -/
structure Counters where
  activeStreams : Int
  inflight : Nat
  activeCancels : List (Nat × Bool)

/-- The limit of the streams. -/
structure MaxStreams where
  value : Int
  pos : 0 < value

/-- `DEFAULT_MAX_STREAMS`. -/
def MaxStreams.default : MaxStreams := ⟨100, by decide⟩

/-- The limit a serve block declares. -/
def MaxStreams.of : Option Int → MaxStreams
  | none => .default
  | some i => if h : 0 < i then ⟨i, h⟩ else .default

namespace Counters

def tryAcquireStream (maxStreams : Int) (c : Counters) : Option Counters :=
  if maxStreams ≤ c.activeStreams then none
  else some { c with activeStreams := c.activeStreams + 1 }

def releaseStream (c : Counters) : Counters :=
  if 0 < c.activeStreams then { c with activeStreams := c.activeStreams - 1 } else c

/-- `begin_request`: the request is counted. -/
def beginCount (c : Counters) : Counters := { c with inflight := c.inflight + 1 }

/-- `begin_request`: its token is kept. -/
def beginToken (token : Nat) (dedicated : Bool) (c : Counters) : Counters :=
  { c with activeCancels := c.activeCancels ++ [(token, dedicated)] }

/-- `end_request`: the request is no longer counted. -/
def endCount (c : Counters) : Counters := { c with inflight := c.inflight - 1 }

/-- `end_request`: its token is removed. -/
def endToken (token : Nat) (c : Counters) : Counters :=
  { c with activeCancels := c.activeCancels.filter fun t => t.1 ≠ token }

end Counters

/-! ## What is in flight -/

/-- The job of a request, a tunnel, or the body of a proxied response. -/
inductive Kind where
  | job
  | tunnel
  | body
deriving DecidableEq

/-- How far it is. -/
inductive Phase where
  /-- A stream is taken for it; its request has not begun. -/
  | opening
  /-- Its request is counted, with a stream taken before. -/
  | openingCounted
  /-- Its request is counted. -/
  | counted
  /-- Its request has begun; the job has not run yet. -/
  | begun
  /-- It runs, with its guard. -/
  | running
  /-- It is a stream, a socket, a tunnel or a long-lived body, with its guard. -/
  | alive
  /-- Its guard is dropped. -/
  | finishing
  /-- Its guard has taken it off the count. -/
  | ending
  | ended
deriving DecidableEq

structure Activity where
  kind : Kind
  dedicated : Bool
  phase : Phase
deriving DecidableEq

namespace Activity

/-- Does it have a stream? -/
def streams (a : Activity) : Bool :=
  match a.phase with
  | .opening | .openingCounted | .alive => true
  | _ => false

/-- Has its request begun, and not ended? -/
def inFlight (a : Activity) : Bool :=
  match a.phase with
  | .openingCounted | .counted | .begun | .running | .alive | .finishing => true
  | _ => false

/-- Is its token to be found? -/
def registered (a : Activity) : Bool :=
  match a.phase with
  | .begun | .running | .alive | .finishing | .ending => true
  | _ => false

end Activity

/-- The runtime with everything that was ever in flight. -/
structure Flight where
  counters : Counters
  activities : List Activity

def Flight.initial : Flight := ⟨⟨0, 0, []⟩, []⟩

/-! ## Steps -/

/-- What can happen. -/
inductive Event where
  /-- `handle_request` counts a request. -/
  | request (dedicated : Bool)
  /-- `proxy_request` counts a body of known size. -/
  | sizedBody
  /-- `proxy_request` takes a stream for a tunnel or a long-lived body. -/
  | openStream (kind : Kind)
  /-- The request behind a stream that is taken is counted. -/
  | count (i : Nat)
  /-- The token of a request is kept. -/
  | token (i : Nat)
  /-- The job runs. -/
  | run (i : Nat)
  /-- `dispatch` takes a stream for the job, or answers 503. -/
  | acquire (i : Nat)
  /-- What has no stream is over: a response, a forward, a time-out, a panic, a body sent. -/
  | finish (i : Nat)
  /-- What has a stream is over and gives it back. -/
  | release (i : Nat)
  /-- The guard takes the request off the count. -/
  | uncount (i : Nat)
  /-- The guard removes the token. -/
  | untoken (i : Nat)
  /-- The job is dropped: no thread could be created for it, or the pool dropped it. -/
  | dropJob (i : Nat)
  /-- The handler of a stream or a socket unwinds. -/
  | unwind (i : Nat)
  /-- The task of a tunnel is dropped. -/
  | dropTunnel (i : Nat)

/-- The steps after which something is lost. -/
def Event.leaks : Event → Bool
  | .dropJob _ | .unwind _ | .dropTunnel _ => true
  | _ => false

namespace Flight

/-- The activity at a place, in a phase. -/
def at? (s : Flight) (i : Nat) (phase : Phase) : Option Activity :=
  (s.activities[i]?).filter fun a => a.phase = phase

/-- The activity goes on to another phase. -/
def move (s : Flight) (i : Nat) (a : Activity) (phase : Phase) (c : Counters) : Flight :=
  ⟨c, s.activities.set i { a with phase }⟩

/-- Where the token of a request is kept, it waits for a thread, runs, or is a stream. -/
def begin (a : Activity) : Phase :=
  if a.phase = .openingCounted then .alive
  else match a.kind with
    | .job => .begun
    | .tunnel | .body => .running

/-- One step. -/
def step (maxStreams : Int) (s : Flight) : Event → Option Flight
  | .request dedicated =>
    some ⟨s.counters.beginCount, s.activities ++ [⟨.job, dedicated, .counted⟩]⟩
  | .sizedBody => some ⟨s.counters.beginCount, s.activities ++ [⟨.body, false, .counted⟩]⟩
  | .openStream kind =>
    if kind = .job then none
    else (s.counters.tryAcquireStream maxStreams).map fun c =>
      ⟨c, s.activities ++ [⟨kind, true, .opening⟩]⟩
  | .count i => do
    let a ← s.at? i .opening
    return s.move i a .openingCounted s.counters.beginCount
  | .token i => do
    let a ← (s.at? i .counted).or (s.at? i .openingCounted)
    return s.move i a (begin a) (s.counters.beginToken i a.dedicated)
  | .run i => do
    let a ← s.at? i .begun
    return s.move i a .running s.counters
  | .acquire i => do
    let a ← s.at? i .running
    guard (a.kind = .job)
    match s.counters.tryAcquireStream maxStreams with
    | some c => return s.move i a .alive c
    | none => return s
  | .finish i => do
    let a ← s.at? i .running
    return s.move i a .finishing s.counters
  | .release i => do
    let a ← s.at? i .alive
    return s.move i a .finishing s.counters.releaseStream
  | .uncount i => do
    let a ← s.at? i .finishing
    return s.move i a .ending s.counters.endCount
  | .untoken i => do
    let a ← s.at? i .ending
    return s.move i a .ended (s.counters.endToken i)
  | .dropJob i => do
    let a ← s.at? i .begun
    return s.move i a .ended s.counters
  | .unwind i => do
    let a ← s.at? i .alive
    guard (a.kind = .job)
    return s.move i a .finishing s.counters
  | .dropTunnel i => do
    let a ← s.at? i .alive
    guard (a.kind = .tunnel)
    return s.move i a .finishing s.counters

/-- What is reached by steps. -/
def run (maxStreams : Int) (s : Flight) : List Event → Option Flight
  | [] => some s
  | e :: es => s.step maxStreams e >>= fun s' => s'.run maxStreams es

end Flight

/-! ## Accounts -/

/-- The counters say what is in flight. -/
structure Counts (maxStreams : Int) (s : Flight) : Prop where
  le : s.counters.activeStreams ≤ maxStreams
  streams : s.counters.activeStreams = census Activity.streams s.activities
  inFlight : s.counters.inflight = census Activity.inFlight s.activities
  tokens : Roster Activity.registered s.activities (s.counters.activeCancels.map Prod.fst)

/-- What is said of a state: never more streams than allowed, as many as are alive, as many requests
as have begun and not ended, with exactly their tokens; and nothing when all has ended. -/
structure Accounts (maxStreams : Int) (s : Flight) : Prop extends Counts maxStreams s where
  quiet : (∀ a ∈ s.activities, a.phase = .ended) →
    s.counters.activeStreams = 0 ∧ s.counters.inflight = 0 ∧ s.counters.activeCancels = []

theorem Counts.accounts {maxStreams : Int} {s : Flight} (h : Counts maxStreams s) :
    Accounts maxStreams s := by
  refine ⟨h, fun hended => ⟨?_, ?_, ?_⟩⟩
  · rw [h.streams, census_eq_zero.mpr fun a ha => by simp [Activity.streams, hended a ha]]
    rfl
  · rw [h.inFlight, census_eq_zero.mpr fun a ha => by simp [Activity.inFlight, hended a ha]]
  · have hnil := h.tokens.eq_nil fun a ha => by simp [Activity.registered, hended a ha]
    exact map_eq_nil_iff.mp hnil

theorem counts_initial {maxStreams : Int} (hmax : 0 ≤ maxStreams) :
    Counts maxStreams Flight.initial :=
  ⟨hmax, rfl, rfl, Roster.nil _⟩

/-! ## One step -/

theorem at?_eq_some {s : Flight} {i : Nat} {phase : Phase} {a : Activity} :
    s.at? i phase = some a ↔ s.activities[i]? = some a ∧ a.phase = phase := by
  rw [Flight.at?, Option.filter_eq_some_iff, decide_eq_true_iff]

section Step

variable {maxStreams : Int} {s s' : Flight} {i : Nat} {a : Activity} {phase : Phase} {c : Counters}

theorem Counts.move (h : Counts maxStreams s) (hi : s.activities[i]? = some a)
    (hle : c.activeStreams ≤ maxStreams)
    (hstreams : c.activeStreams + a.streams.toNat =
      s.counters.activeStreams + ({ a with phase } : Activity).streams.toNat)
    (hflight : c.inflight + a.inFlight.toNat =
      s.counters.inflight + ({ a with phase } : Activity).inFlight.toNat)
    (htokens : Roster Activity.registered (s.activities.set i { a with phase })
      (c.activeCancels.map Prod.fst)) : Counts maxStreams (s.move i a phase c) := by
  have hs := census_move Activity.streams hi { a with phase }
  have hf := census_move Activity.inFlight hi { a with phase }
  have hstreams' := h.streams
  have hflight' := h.inFlight
  refine ⟨hle, ?_, ?_, htokens⟩
  · simp only [Flight.move]
    omega
  · simp only [Flight.move]
    omega

theorem Counts.join (h : Counts maxStreams s) (hle : c.activeStreams ≤ maxStreams)
    (hstreams : c.activeStreams = s.counters.activeStreams + a.streams.toNat)
    (hflight : c.inflight = s.counters.inflight + a.inFlight.toNat)
    (hregistered : a.registered = false) (htokens : c.activeCancels = s.counters.activeCancels) :
    Counts maxStreams ⟨c, s.activities ++ [a]⟩ := by
  refine ⟨hle, ?_, ?_, ?_⟩
  · rw [census_join, hstreams, h.streams]
    omega
  · rw [census_join, hflight, h.inFlight]
  · rw [htokens]
    exact h.tokens.join hregistered

theorem tryAcquireStream_eq_some (h : s.counters.tryAcquireStream maxStreams = some c) :
    s.counters.activeStreams < maxStreams ∧
      c = { s.counters with activeStreams := s.counters.activeStreams + 1 } := by
  unfold Counters.tryAcquireStream at h
  split at h
  · cases h
  · rename_i hlt
    cases h
    exact ⟨Int.not_le.mp hlt, rfl⟩

theorem Counts.step (h : Counts maxStreams s) {e : Event} (hstep : s.step maxStreams e = some s')
    (hleak : e.leaks = false) : Counts maxStreams s' := by
  cases e with
  | request dedicated | sizedBody =>
    cases hstep
    exact h.join h.le (by simp [Activity.streams, Counters.beginCount])
      (by simp [Activity.inFlight, Counters.beginCount]) rfl rfl
  | openStream kind =>
    simp only [Flight.step] at hstep
    split at hstep
    · cases hstep
    · obtain ⟨c, hc, rfl⟩ := Option.map_eq_some_iff.mp hstep
      obtain ⟨hlt, rfl⟩ := tryAcquireStream_eq_some hc
      exact h.join (by exact hlt) (by simp [Activity.streams]) (by simp [Activity.inFlight]) rfl rfl
  | count i =>
    obtain ⟨a, ha, hs⟩ := Option.bind_eq_some_iff.mp hstep
    cases hs
    obtain ⟨hi, hphase⟩ := at?_eq_some.mp ha
    refine h.move hi h.le ?_ ?_ (h.tokens.stay hi ?_)
    · simp [Activity.streams, hphase, Counters.beginCount]
    · simp [Activity.inFlight, hphase, Counters.beginCount]
    · simp [Activity.registered, hphase]
  | token i =>
    obtain ⟨a, ha, hs⟩ := Option.bind_eq_some_iff.mp hstep
    cases hs
    have hphase : s.activities[i]? = some a ∧ (a.phase = .counted ∨ a.phase = .openingCounted) := by
      rcases Option.or_eq_some_iff.mp ha with ha | ⟨-, ha⟩
      · obtain ⟨hi, hphase⟩ := at?_eq_some.mp ha
        exact ⟨hi, .inl hphase⟩
      · obtain ⟨hi, hphase⟩ := at?_eq_some.mp ha
        exact ⟨hi, .inr hphase⟩
    obtain ⟨hi, hphase⟩ := hphase
    have htokens : Roster Activity.registered
        (s.activities.set i { a with phase := Flight.begin a })
        ((s.counters.beginToken i a.dedicated).activeCancels.map Prod.fst) := by
      have henter := h.tokens.enter hi (y := { a with phase := Flight.begin a })
      simp only [Counters.beginToken, map_append, map_cons, map_nil]
      apply henter
      · rcases hphase with hphase | hphase <;> simp [Activity.registered, hphase]
      · rcases hphase with hphase | hphase
        · cases hkind : a.kind <;> simp [Activity.registered, Flight.begin, hphase, hkind]
        · simp [Activity.registered, Flight.begin, hphase]
    refine h.move hi h.le ?_ ?_ htokens
    · rcases hphase with hphase | hphase
      · cases hkind : a.kind <;>
          simp [Activity.streams, Flight.begin, hphase, hkind, Counters.beginToken]
      · simp [Activity.streams, Flight.begin, hphase, Counters.beginToken]
    · rcases hphase with hphase | hphase
      · cases hkind : a.kind <;>
          simp [Activity.inFlight, Flight.begin, hphase, hkind, Counters.beginToken]
      · simp [Activity.inFlight, Flight.begin, hphase, Counters.beginToken]
  | run i =>
    obtain ⟨a, ha, hs⟩ := Option.bind_eq_some_iff.mp hstep
    cases hs
    obtain ⟨hi, hphase⟩ := at?_eq_some.mp ha
    refine h.move hi h.le ?_ ?_ (h.tokens.stay hi ?_)
    · simp [Activity.streams, hphase]
    · simp [Activity.inFlight, hphase]
    · simp [Activity.registered, hphase]
  | acquire i =>
    obtain ⟨a, ha, hs⟩ := Option.bind_eq_some_iff.mp hstep
    obtain ⟨hi, hphase⟩ := at?_eq_some.mp ha
    obtain ⟨-, -, hs⟩ := Option.bind_eq_some_iff.mp hs
    split at hs
    · rename_i c hc
      cases hs
      obtain ⟨hlt, rfl⟩ := tryAcquireStream_eq_some hc
      refine h.move hi (by exact hlt) ?_ ?_ (h.tokens.stay hi ?_)
      · simp [Activity.streams, hphase]
      · simp [Activity.inFlight, hphase]
      · simp [Activity.registered, hphase]
    · cases hs
      exact h
  | finish i =>
    obtain ⟨a, ha, hs⟩ := Option.bind_eq_some_iff.mp hstep
    cases hs
    obtain ⟨hi, hphase⟩ := at?_eq_some.mp ha
    refine h.move hi h.le ?_ ?_ (h.tokens.stay hi ?_)
    · simp [Activity.streams, hphase]
    · simp [Activity.inFlight, hphase]
    · simp [Activity.registered, hphase]
  | release i =>
    obtain ⟨a, ha, hs⟩ := Option.bind_eq_some_iff.mp hstep
    cases hs
    obtain ⟨hi, hphase⟩ := at?_eq_some.mp ha
    -- the stream that is given back is one of those that are counted
    have hpos : 0 < s.counters.activeStreams := by
      rw [h.streams]
      exact_mod_cast census_pos hi (by simp [Activity.streams, hphase])
    have hle := h.le
    have hrelease : s.counters.releaseStream =
        { s.counters with activeStreams := s.counters.activeStreams - 1 } := if_pos hpos
    rw [hrelease]
    refine h.move hi ?_ ?_ ?_ (h.tokens.stay hi ?_)
    · dsimp only
      omega
    · simp [Activity.streams, hphase]
    · simp [Activity.inFlight, hphase]
    · simp [Activity.registered, hphase]
  | uncount i =>
    obtain ⟨a, ha, hs⟩ := Option.bind_eq_some_iff.mp hstep
    cases hs
    obtain ⟨hi, hphase⟩ := at?_eq_some.mp ha
    have hpos : 0 < s.counters.inflight := by
      rw [h.inFlight]
      exact census_pos hi (by simp [Activity.inFlight, hphase])
    refine h.move hi h.le ?_ ?_ (h.tokens.stay hi ?_)
    · simp [Activity.streams, hphase, Counters.endCount]
    · simp only [Activity.inFlight, hphase, Counters.endCount]
      simp
      omega
    · simp [Activity.registered, hphase]
  | untoken i =>
    obtain ⟨a, ha, hs⟩ := Option.bind_eq_some_iff.mp hstep
    cases hs
    obtain ⟨hi, hphase⟩ := at?_eq_some.mp ha
    have htokens : Roster Activity.registered (s.activities.set i { a with phase := .ended })
        ((s.counters.endToken i).activeCancels.map Prod.fst) := by
      have hleave := h.tokens.leave hi (y := { a with phase := .ended }) rfl
      rwa [filter_map] at hleave
    refine h.move hi h.le ?_ ?_ htokens
    · simp [Activity.streams, hphase, Counters.endToken]
    · simp [Activity.inFlight, hphase, Counters.endToken]
  | dropJob i | unwind i | dropTunnel i => cases hleak

theorem Counts.leak (h : Counts maxStreams s) {e : Event} (hstep : s.step maxStreams e = some s')
    (hleak : e.leaks) : ¬ Counts maxStreams s' := by
  have hlost : ∀ {i : Nat} {a : Activity}, s.activities[i]? = some a → a.streams = true →
      ¬ Counts maxStreams (s.move i a .finishing s.counters) := by
    intro i a hi hstream h'
    have hs := census_move Activity.streams hi { a with phase := .finishing }
    have hbefore := h.streams
    have hafter := h'.streams
    have hfinish : ({ a with phase := .finishing } : Activity).streams = false := rfl
    rw [hstream, hfinish] at hs
    simp only [Flight.move] at hafter
    simp only [Bool.toNat_true, Bool.toNat_false] at hs
    omega
  cases e with
  | dropJob i =>
    obtain ⟨a, ha, hs⟩ := Option.bind_eq_some_iff.mp hstep
    cases hs
    obtain ⟨hi, hphase⟩ := at?_eq_some.mp ha
    intro h'
    have hf := census_move Activity.inFlight hi { a with phase := .ended }
    have hbefore := h.inFlight
    have hafter := h'.inFlight
    have hbegun : a.inFlight := by simp [Activity.inFlight, hphase]
    have hended : ({ a with phase := .ended } : Activity).inFlight = false := rfl
    rw [hbegun, hended] at hf
    simp only [Flight.move] at hafter
    simp only [Bool.toNat_true, Bool.toNat_false] at hf
    omega
  | unwind i | dropTunnel i =>
    obtain ⟨a, ha, hs⟩ := Option.bind_eq_some_iff.mp hstep
    obtain ⟨hi, hphase⟩ := at?_eq_some.mp ha
    obtain ⟨-, -, hs⟩ := Option.bind_eq_some_iff.mp hs
    cases hs
    exact hlost hi (by simp [Activity.streams, hphase])
  | request | sizedBody | openStream | count | token | run | acquire | finish | release | uncount
  | untoken => cases hleak

end Step

/-! ## Runs -/

theorem run_append {maxStreams : Int} {s : Flight} (es es' : List Event) :
    s.run maxStreams (es ++ es') = s.run maxStreams es >>= fun s' => s'.run maxStreams es' := by
  induction es generalizing s with
  | nil => rfl
  | cons e es ih =>
    simp only [cons_append, Flight.run, Option.bind_eq_bind, Option.bind_assoc]
    exact Option.bind_congr fun s' _ => ih

/-- **The accounts are right in every state of a run exactly where no step leaks.** -/
theorem accounts_iff (m : MaxStreams) {es : List Event} {s : Flight}
    (h : Flight.initial.run m.value es = some s) :
    (∀ es' s', es' <+: es → Flight.initial.run m.value es' = some s' → Accounts m.value s') ↔
      ∀ e ∈ es, e.leaks = false := by
  induction es using List.reverseRecOn generalizing s with
  | nil =>
    refine ⟨fun _ => by simp, fun _ es' s' hpre hrun => ?_⟩
    rw [prefix_nil.mp hpre] at hrun
    cases hrun
    exact (counts_initial (Int.le_of_lt m.pos)).accounts
  | append_singleton es e ih =>
    rw [run_append, Option.bind_eq_bind, Option.bind_eq_some_iff] at h
    obtain ⟨s₀, hrun, hlast⟩ := h
    have hstep : s₀.step m.value e = some s := by
      simpa [Flight.run] using hlast
    constructor
    · intro hall
      have hbefore := (ih hrun).mp fun es' s' hpre =>
        hall es' s' (hpre.trans (prefix_append es [e]))
      have hs₀ := hall es s₀ (prefix_append es [e]) hrun
      have hs := hall (es ++ [e]) s (prefix_refl _) (by
        rw [run_append, hrun]
        exact hlast)
      intro e' he'
      rcases mem_append.mp he' with he' | he'
      · exact hbefore e' he'
      · rw [mem_singleton.mp he']
        cases hleak : e.leaks with
        | false => rfl
        | true => exact absurd hs.toCounts (hs₀.toCounts.leak hstep hleak)
    · intro hnone es' s' hpre hrun'
      have hbefore := (ih hrun).mpr fun e' he' => hnone e' (mem_append_left [e] he')
      rcases prefix_concat_iff.mp hpre with rfl | hpre
      · rw [run_append, hrun] at hrun'
        cases hlast.symm.trans hrun'
        have hs₀ := hbefore es s₀ (prefix_refl es) hrun
        exact (hs₀.toCounts.step hstep (hnone e (by simp))).accounts
      · exact hbefore es' s' hpre hrun'

/-- A request, a stream that ends, and its guard. -/
theorem accounts_iff_stream :
    (∀ es' s', es' <+: [.request true, .token 0, .run 0, .acquire 0, .release 0] →
        Flight.initial.run 100 es' = some s' → Accounts 100 s') ↔
      ∀ e ∈ ([.request true, .token 0, .run 0, .acquire 0, .release 0] : List Event),
        e.leaks = false :=
  accounts_iff (MaxStreams.of none)
    (s := ⟨⟨0, 1, [(0, true)]⟩, [⟨.job, true, .finishing⟩]⟩) rfl

/-- No thread for a stream: its request stays in flight for ever. -/
theorem not_accounts :
    ¬ ∀ (m : MaxStreams) es s, Flight.initial.run m.value es = some s → Accounts m.value s := by
  intro h
  have haccounts := h (MaxStreams.of none) [.request true, .token 0, .dropJob 0]
    ⟨⟨0, 1, [(0, true)]⟩, [⟨.job, true, .ended⟩]⟩ rfl
  have hquiet := (haccounts.quiet (by simp)).2.1
  exact absurd hquiet (by decide)

end Synsema.Server
