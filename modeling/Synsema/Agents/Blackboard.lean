import Synsema.Text
import Synsema.Lib.OrderedMap

/-!
# The blackboard

The state that agents share, as `synsema-agents/src/blackboard.rs` keeps it: the live
entries, and for every key that an open run wrote the chain of its versions, so that a run
that is cut can be taken out again.

The lock is taken for the whole of each operation, so a run of the program is a list of
events.  The log of the events and the watchers decide nothing here and are left out.
-/

namespace Synsema.Blackboard

open OrderedMap

/-- A run, `Arc<RunCut>`: told from the others by its address. -/
abbrev RunId := Nat

/-- The run on whose behalf a thread writes, if any. -/
abbrev Scope := Option RunId

/-- `BlackboardEntry`, over the values `V` and the instants `T`. -/
structure BlackboardEntry (V T : Type) where
  key : Text
  value : V
  version : Nat
  writtenBy : Text
  writtenAt : T
  history : List (V × Nat × Text × T)

variable {V T : Type}

/-- `BlackboardEntry::head`: the entry without its history. -/
def BlackboardEntry.head (e : BlackboardEntry V T) : BlackboardEntry V T := { e with history := [] }

/-- `Version`.  The entry of the last version is the live one: it is copied only when
another run writes over it (the inner `none`: deleted). -/
structure Version (V T : Type) where
  scope : Scope
  entry : Option (Option (BlackboardEntry V T))

/-- `Chain`, its versions from the last to the first. -/
structure Chain (V T : Type) where
  base : Option (BlackboardEntry V T)
  versions : List (Version V T)

structure RunState where
  live : Nat
  closed : Bool
  cut : Bool
  keys : OrderedMap Text Unit

def RunState.default : RunState := { live := 0, closed := false, cut := false, keys := empty }

/-- What the lock of a blackboard protects. -/
structure Inner (V T : Type) where
  data : OrderedMap Text (BlackboardEntry V T)
  chains : OrderedMap Text (Chain V T)
  runs : OrderedMap RunId RunState

/-- `Blackboard::new`. -/
def Inner.new : Inner V T := { data := empty, chains := empty, runs := empty }

/-! ## Chains -/

/-- The loop of `Chain::compact`, from the last version down, over the versions kept. -/
def Chain.compactLoop (base : Option (BlackboardEntry V T)) (kept : List (Version V T)) :
    List (Version V T) → Chain V T × Bool
  | [] => ({ base, versions := kept }, !kept.isEmpty)
  | v :: rest =>
    match v.scope, v.entry with
    -- the last one is confirmed: nothing is open above it
    | none, none => ({ base, versions := [] }, false)
    | none, some e => ({ base := e, versions := kept }, !kept.isEmpty)
    | some _, _ =>
      if kept.any fun k => k.scope = v.scope then compactLoop base kept rest
      else compactLoop base (kept ++ [v]) rest

/-- `Chain::compact`: the last version of every open run, down to the last confirmed one.
Whether anything is open is the second component. -/
def Chain.compact (c : Chain V T) : Chain V T × Bool := compactLoop c.base [] c.versions

namespace Inner

/-- `Inner::run_state`, read. -/
def runState (s : Inner V T) (run : RunId) : RunState := (s.runs.get? run).getD .default

/-- `Inner::run_state`, written to. -/
def modifyRun (s : Inner V T) (run : RunId) (f : RunState → RunState) : Inner V T :=
  { s with runs := s.runs.insert run (f (s.runState run)) }

/-- The key a run opened a version of is one of its keys. -/
def addKey (s : Inner V T) (scope : Scope) (key : Text) : Inner V T :=
  match scope with
  | none => s
  | some run => s.modifyRun run fun st => { st with keys := st.keys.insert key () }

/-- Puts a compacted chain back, or lets go of it. -/
def putCompact (s : Inner V T) (key : Text) (c : Chain V T) : Inner V T :=
  if c.compact.2 then { s with chains := s.chains.insert key c.compact.1 }
  else { s with chains := s.chains.shiftRemove key }

/-- `Inner::record`: `key` is about to change, from `prev`. -/
def record (s : Inner V T) (scope : Scope) (key : Text) (prev : Option (BlackboardEntry V T)) :
    Inner V T :=
  match s.chains.get? key with
  | none =>
    match scope with
    | none => s
    | some _ =>
      { s.addKey scope key with
        chains := s.chains.insert key { base := prev, versions := [⟨scope, none⟩] } }
  | some chain =>
    match chain.versions with
    | [] => (s.putCompact key { chain with versions := [⟨scope, none⟩] }).addKey scope key
    | top :: rest =>
      if top.scope = scope then s
      else
        let versions := ⟨scope, none⟩ :: { top with entry := some prev } :: rest
        (s.putCompact key { chain with versions }).addKey scope key

/-- `Inner::settle`. -/
def settle (s : Inner V T) (key : Text) : Inner V T :=
  match s.chains.get? key with
  | none => s
  | some c => s.putCompact key c

/-- What comes back when the last version is taken out: the entry of the one below, or the
base. -/
def Chain.restored (base : Option (BlackboardEntry V T)) : List (Version V T) →
    Option (BlackboardEntry V T)
  | [] => base
  | top :: _ => top.entry.join

/-- The chain once what comes back has been moved out of it. -/
def Chain.moved (base : Option (BlackboardEntry V T)) : List (Version V T) → Chain V T
  | [] => { base := none, versions := [] }
  | top :: rest => { base, versions := { top with entry := none } :: rest }

/-- Puts `now` back as the live entry.  The history stays the one of the live entry. -/
def restore (data : OrderedMap Text (BlackboardEntry V T)) (key : Text) :
    Option (BlackboardEntry V T) → OrderedMap Text (BlackboardEntry V T)
  | none => data.shiftRemove key
  | some e =>
    match data.get? key with
    | some live => data.insert key { e with history := live.history }
    | none => data.insert key e

/-- `Inner::rollback`, at one key. -/
def rollbackKey (run : RunId) (s : Inner V T) (key : Text) : Inner V T :=
  match s.chains.get? key with
  | none => s
  | some chain =>
    let topWasMine := chain.versions.head?.any fun v => v.scope = some run
    let versions := chain.versions.filter fun v => v.scope ≠ some run
    if topWasMine then
      { s with
        chains := s.chains.insert key (Chain.moved chain.base versions)
        data := restore s.data key (Chain.restored chain.base versions) }.settle key
    else { s with chains := s.chains.insert key { chain with versions } }

/-- `Inner::rollback`. -/
def rollback (s : Inner V T) (run : RunId) : Inner V T :=
  (s.runState run).keys.keys.foldl (rollbackKey run)
    (s.modifyRun run fun st => { st with keys := empty })

/-- `Inner::commit`, at one key. -/
def commitKey (run : RunId) (s : Inner V T) (key : Text) : Inner V T :=
  match s.chains.get? key with
  | none => s
  | some chain =>
    let versions := chain.versions.map fun v =>
      if v.scope = some run then { v with scope := none } else v
    { s with chains := s.chains.insert key { chain with versions } }.settle key

/-- `Inner::commit`. -/
def commit (s : Inner V T) (run : RunId) : Inner V T :=
  (s.runState run).keys.keys.foldl (commitKey run)
    (s.modifyRun run fun st => { st with keys := empty })

/-- `Inner::finish_if_done`. -/
def finishIfDone (s : Inner V T) (run : RunId) : Inner V T :=
  let st := s.runState run
  if st.live = 0 ∧ st.closed then
    let s := if st.cut then s else s.commit run
    { s with runs := s.runs.shiftRemove run }
  else s

/-- `Inner::cut_run`. -/
def cutRun (s : Inner V T) (run : RunId) : Inner V T :=
  (s.modifyRun run fun st => { st with cut := true }).rollback run

/-! ## The operations -/

/-- `Blackboard::write`, by a thread of `scope`. -/
def write (s : Inner V T) (scope : Scope) (key : Text) (value : V) (agent : Text) (now : T) :
    Inner V T :=
  let s := s.record scope key ((s.data.get? key).map BlackboardEntry.head)
  match s.data.get? key with
  | some entry =>
    { s with
      data := s.data.insert key
        { entry with
          history := entry.history ++
            [(entry.value, entry.version, entry.writtenBy, entry.writtenAt)]
          value
          version := entry.version + 1
          writtenBy := agent
          writtenAt := now } }
  | none =>
    { s with
      data := s.data.insert key
        { key, value, version := 1, writtenBy := agent, writtenAt := now, history := [] } }

/-- `Blackboard::delete`, by a thread of `scope`. -/
def delete (s : Inner V T) (scope : Scope) (key : Text) : Inner V T :=
  { s with data := s.data.shiftRemove key }.record scope key (s.data.get? key)

/-- `Blackboard::close_run`: the owner of the run ended. -/
def closeRun (s : Inner V T) (run : RunId) (cut : Bool) : Inner V T :=
  let wasCut := (s.runState run).cut
  let s := s.modifyRun run fun st => { st with closed := true }
  (if cut || wasCut then s.cutRun run else s).finishIfDone run

/-- `Blackboard::agent_started`. -/
def agentStarted (s : Inner V T) (run : RunId) : Inner V T :=
  s.modifyRun run fun st => { st with live := st.live + 1 }

/-- `Blackboard::agent_done`: an agent of the run ended. -/
def agentDone (s : Inner V T) (run : RunId) (cut : Bool) : Inner V T :=
  let s := s.modifyRun run fun st => { st with live := st.live - 1 }
  (if cut || (s.runState run).cut then s.cutRun run else s).finishIfDone run

/-- `Blackboard::read`. -/
def read (s : Inner V T) (key : Text) : Option V := (s.data.get? key).map BlackboardEntry.value

end Inner

/-! ## Runs of the program -/

/-- What a thread does to the blackboard. -/
inductive Event (V T : Type)
  | write (scope : Scope) (key : Text) (value : V) (agent : Text) (now : T)
  | delete (scope : Scope) (key : Text) (agent : Text)
  | agentStarted (run : RunId)
  | agentDone (run : RunId) (cut : Bool)
  | closeRun (run : RunId) (cut : Bool)

/-- The blackboard after one event. -/
def Inner.step (s : Inner V T) : Event V T → Inner V T
  | .write scope key value agent now => s.write scope key value agent now
  | .delete scope key _ => s.delete scope key
  | .agentStarted run => s.agentStarted run
  | .agentDone run cut => s.agentDone run cut
  | .closeRun run cut => s.closeRun run cut

/-- The blackboard after some events. -/
def run (es : List (Event V T)) : Inner V T := es.foldl Inner.step Inner.new

end Synsema.Blackboard
