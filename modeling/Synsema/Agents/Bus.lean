import Synsema.Bytesutil
import Synsema.Capscope.Path

/-!
# The bus

The events of a process, published and subscribed to (`synsema-agents/src/bus.rs`): each
subscriber has a queue of its own, bounded in events and in bytes, that the publisher never waits
for.

A lock is taken for the whole of each operation, except that `publish` looks up the subscribers
under the lock of the bus and then pushes to one after the other, while others may receive,
subscribe and unsubscribe.  The wakers and the blocking `recv_timeout`, which calls `try_recv`
until it gives something, decide nothing about the queues.
-/

namespace Synsema.EventBus

open Text Bytesutil Capscope

/-! ## Events -/

/-- `SendArray`, its numbers over `A`. -/
inductive SendArray (A : Type) where
  | f64 (data : List A)
  | f32 (data : List A)
  | bool (data : List A)

def SendArray.byteLen {A : Type} : SendArray A → Nat
  | .f64 d => d.length * 8
  | .f32 d => d.length * 4
  | .bool d => d.length

/-- `SendValue`.  What its size does not depend on is over `A`: numbers, instants, the state of
a generator. -/
inductive SendValue (A : Type) where
  | number (n : A)
  | text (s : Text)
  | bool (b : Bool)
  | nothing
  | list (l : List (SendValue A))
  | map (m : List (Text × SendValue A))
  | bytes (b : Bytes)
  | complex (re im : A)
  | array (shape : List Nat) (data : SendArray A)
  | priv (label : List Text) (inner : SendValue A)
  | time (t : A)
  | rng (state : Option A) (name : Text)

/-- `String::len`. -/
def byteCount (s : Text) : Nat := (utf8 s).length

mutual

def sendSize {A : Type} : SendValue A → Nat
  | .number _ => 16
  | .text s => byteCount s
  | .bool _ => 1
  | .nothing => 1
  | .list l => sendSizes l + 8
  | .map m => entrySizes m + 8
  | .bytes b => b.length
  | .complex _ _ => 16
  | .array _ d => d.byteLen + 8
  | .time _ => 24
  | .rng _ name => 96 + byteCount name
  | .priv l inner => sendSize inner + (l.map byteCount).sum

/-- `send_size`, summed over the items of a list. -/
def sendSizes {A : Type} : List (SendValue A) → Nat
  | [] => 0
  | v :: l => sendSize v + sendSizes l

/-- `send_size` and the lengths of the keys, summed over the entries of a map. -/
def entrySizes {A : Type} : List (Text × SendValue A) → Nat
  | [] => 0
  | (k, v) :: m => byteCount k + sendSize v + entrySizes m

end

/-- A value that a program can hold.  It owns all that its size counts, which lies in one
address space. -/
abbrev Payload (A : Type) := { v : SendValue A // sendSize v < 2 ^ 63 }

/-- `Event`, its instant over `A`. -/
structure Event (A : Type) where
  topic : Text
  data : Payload A
  timestamp : A

variable {A : Type}

/-- The size of an event. -/
def Event.size (e : Event A) : Nat := sendSize e.data.1

/-! ## Subscribers -/

inductive OnFull where
  | dropOldest
  | error
  deriving DecidableEq

structure SubQueue (A : Type) where
  events : List (Event A)
  queuedBytes : Nat
  error : Option Text
  dropped : UInt64
  received : UInt64

structure Subscriber (A : Type) where
  id : UInt64
  patterns : List Text
  maxQueue : Nat
  maxQueueBytes : Nat
  onFull : OnFull
  queue : SubQueue A

/-- The text of the error of an overflow. -/
def overflowMessage (events bytes : Nat) : Text :=
  "the subscriber queue overflowed (" ++ (toString events).toList ++ " events / " ++
    (toString bytes).toList ++ (" bytes queued; the program reads slower than the bus " ++
    "publishes) — drain with bus_recv/select more often, raise max_queue/max_queue_bytes, or " ++
    "use on_full \"drop_oldest\"").toList

/-- `usize` addition. -/
def usizeAdd (a b : Nat) : Nat := (a + b) % 2 ^ 64

namespace Subscriber

/-- Is there no room for `size` bytes more beside the events of a queue? -/
def full (s : Subscriber A) (size : Nat) (q : SubQueue A) : Prop :=
  s.maxQueue ≤ q.events.length ∨ s.maxQueueBytes < usizeAdd q.queuedBytes size

instance (s : Subscriber A) (size : Nat) (q : SubQueue A) : Decidable (s.full size q) :=
  inferInstanceAs (Decidable (_ ∨ _))

/-- `Subscriber::is_ready`. -/
def isReady (s : Subscriber A) : Bool := !s.queue.events.isEmpty || s.queue.error.isSome

/-- `Subscriber::try_recv`: what it gives, and the subscriber after it. -/
def tryRecv (s : Subscriber A) : Except Text (Option (Event A)) × Subscriber A :=
  match s.queue.events with
  | ev :: events =>
    (.ok (some ev), { s with
      queue := { s.queue with events, queuedBytes := s.queue.queuedBytes - ev.size } })
  | [] =>
    match s.queue.error with
    | some e => (.error e, { s with queue := { s.queue with error := none } })
    | none => (.ok none, s)

/-- The `while` of `Subscriber::push`: the oldest events go until there is room. -/
def makeRoom (s : Subscriber A) (size : Nat) (q : SubQueue A) : List (Event A) → SubQueue A
  | [] => { q with events := [] }
  | old :: rest =>
    if s.full size { q with events := old :: rest } then
      s.makeRoom size { q with
        queuedBytes := q.queuedBytes - old.size, dropped := q.dropped + 1 } rest
    else { q with events := old :: rest }

/-- An event at the end of a queue. -/
def enqueue (q : SubQueue A) (ev : Event A) : SubQueue A :=
  { q with events := q.events ++ [ev], queuedBytes := usizeAdd q.queuedBytes ev.size }

/-- `Subscriber::push`. -/
def push (s : Subscriber A) (ev : Event A) : Subscriber A :=
  if s.queue.error.isSome then s
  else
    let q := { s.queue with received := s.queue.received + 1 }
    if s.full ev.size q then
      match s.onFull with
      | .dropOldest => { s with queue := enqueue (s.makeRoom ev.size q q.events) ev }
      | .error =>
        { s with queue := { q with
            error := some (overflowMessage q.events.length q.queuedBytes)
            events := [], queuedBytes := 0 } }
    else { s with queue := enqueue q ev }

end Subscriber

/-! ## The bus -/

structure SubscribeOpts where
  maxQueue : Nat
  maxQueueBytes : Nat
  onFull : OnFull

def SubscribeOpts.default : SubscribeOpts :=
  { maxQueue := 1024, maxQueueBytes := 16 * 1024 * 1024, onFull := .dropOldest }

def maxQueueCeiling : Nat := 1000000

def maxQueueBytesCeiling : Nat := 1024 * 1024 * 1024

/-- `Ord::clamp`. -/
def clamp (n lo hi : Nat) : Nat := min (max n lo) hi

def topicMatches (pattern topic : Text) : Bool :=
  pattern == topic ||
    ((pattern.contains '*' || pattern.contains '?') && fnmatch topic pattern)

/-- A subscriber, told from the others by its place: an `Arc<Subscriber>`. -/
abbrev Handle := Nat

/-- `Bus`: its state under the lock.  The subscribers stand with their ids, each once. -/
structure Bus where
  subs : List (UInt64 × Handle)
  nextId : UInt64
  published : UInt64
  maxSubscribers : Nat

def Bus.new : Bus := { subs := [], nextId := 1, published := 0, maxSubscribers := 65536 }

/-- `HashMap::insert`: what stood under the id goes. -/
def Bus.insert (b : Bus) (id : UInt64) (h : Handle) : Bus :=
  { b with subs := (id, h) :: b.subs.filter fun e => e.1 != id }

/-- `Bus::unsubscribe`: whether there was such a subscription, and the bus without it. -/
def Bus.unsubscribe (b : Bus) (id : UInt64) : Bool × Bus :=
  (b.subs.any fun e => e.1 == id, { b with subs := b.subs.filter fun e => e.1 != id })

/-- What `Bus::subscribe` makes. -/
def newSubscriber (id : UInt64) (patterns : List Text) (opts : SubscribeOpts) : Subscriber A :=
  { id, patterns
    maxQueue := clamp opts.maxQueue 1 maxQueueCeiling
    maxQueueBytes := clamp opts.maxQueueBytes 1 maxQueueBytesCeiling
    onFull := opts.onFull
    queue := { events := [], queuedBytes := 0, error := none, dropped := 0, received := 0 } }

/-! ## Runs -/

/-- A subscriber with what happened to it: the events that were published on topics that its
patterns match while the bus had it, and what `try_recv` gave, each in order. -/
structure Reader (A : Type) where
  sub : Subscriber A
  offered : List (Event A)
  log : List (Except Text (Event A))

/-- A process: its bus, the subscribers it ever made, and the subscribers that the `publish` that
is running has yet to push its event to. -/
structure World (A : Type) where
  bus : Bus
  readers : List (Reader A)
  flight : List Handle
  event : Option (Event A)

namespace World

/-- Nothing has happened. -/
def initial : World A := { bus := .new, readers := [], flight := [], event := none }

/-- `Bus::subscribe`. -/
def subscribe (w : World A) (patterns : List Text) (opts : SubscribeOpts) :
    Except Text Handle × World A :=
  if w.bus.maxSubscribers ≤ w.bus.subs.length then
    (.error ("bus_subscribe: too many live subscriptions (" ++
      (toString w.bus.subs.length).toList ++
      "); unsubscribe the ones you no longer read"), w)
  else
    let id := w.bus.nextId
    let bus := { w.bus with nextId := w.bus.nextId + 1 }
    (.ok w.readers.length, { w with
      bus := bus.insert id w.readers.length
      readers := w.readers ++ [{ sub := newSubscriber id patterns opts, offered := [], log := [] }] })

/-- `Bus::unsubscribe`. -/
def unsubscribe (w : World A) (id : UInt64) : World A :=
  { w with bus := (w.bus.unsubscribe id).2 }

/-- Does the subscriber want what is published on the topic? -/
def wants (w : World A) (topic : Text) (h : Handle) : Bool :=
  w.readers[h]?.any fun r => r.sub.patterns.any fun p => topicMatches p topic

/-- The subscribers that `publish` looks up; the order of a `HashMap` is left open. -/
def targets (w : World A) (topic : Text) : List Handle :=
  (w.bus.subs.map Prod.snd).filter fun h => w.wants topic h

/-- `Bus::publish`, as long as it has the lock of the bus: how many subscribers will get the
event, which is what it returns, and the process. -/
def publish (w : World A) (ev : Event A) : Nat × World A :=
  ((w.targets ev.topic).length, { w with
    bus := { w.bus with published := w.bus.published + 1 }
    flight := w.targets ev.topic
    event := some ev
    readers := w.readers.mapIdx fun h r =>
      if h ∈ w.targets ev.topic then { r with offered := r.offered ++ [ev] } else r })

/-- A copy of the event for one of the subscribers. -/
def deliver (w : World A) (h : Handle) (ev : Event A) : World A :=
  { w with
    flight := w.flight.erase h
    readers := w.readers.modify h fun r => { r with sub := r.sub.push ev } }

/-- What was received, in the log of a subscriber. -/
def logged : Except Text (Option (Event A)) → List (Except Text (Event A))
  | .ok (some ev) => [.ok ev]
  | .ok none => []
  | .error e => [.error e]

/-- `Subscriber::try_recv`. -/
def tryRecv (w : World A) (h : Handle) : World A :=
  { w with
    readers := w.readers.modify h fun r =>
      { r with sub := r.sub.tryRecv.2, log := r.log ++ logged r.sub.tryRecv.1 } }

end World

/-- A step of the process.  A `publish` starts when the one before has returned. -/
inductive Step : World A → World A → Prop where
  | subscribe (w : World A) (patterns : List Text) (opts : SubscribeOpts) :
      Step w (w.subscribe patterns opts).2
  | unsubscribe (w : World A) (id : UInt64) : Step w (w.unsubscribe id)
  | publish {w : World A} (h : w.flight = []) (ev : Event A) : Step w (w.publish ev).2
  | deliver {w : World A} {h : Handle} {ev : Event A} (hh : h ∈ w.flight)
      (hev : w.event = some ev) : Step w (w.deliver h ev)
  | tryRecv (w : World A) (h : Handle) : Step w (w.tryRecv h)

/-- What a process comes to. -/
def Reachable (w : World A) : Prop := Relation.ReflTransGen Step World.initial w

end Synsema.EventBus
