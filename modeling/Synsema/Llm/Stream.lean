import Synsema.Llm.Sse
import Synsema.Llm.Value

/-!
# Reading a stream

The loop of `post_sse` (`synsema-runtime/src/llm_providers.rs`), which both dialects share: each read
is decoded, its events are put together and handed to the state of the dialect, and what text an
event brings goes to the caller.  Where nothing fails and the caller does not stop it, the loop
hands the events of all reads to the state in turn (`postSse_reads`).
-/

namespace Synsema.Llm

open Text Bytesutil

/-- What a dialect does with the events of a stream. -/
structure Dialect where
  State : Type
  start : State
  /-- The state after an event, and the text that it brings. -/
  feed : State → SseEvent → State × Option Text
  /-- Has an error come? -/
  failed : State → Bool

namespace Dialect

variable (d : Dialect)

/-- The state, and the texts that went to `on_chunk`. -/
structure Conn where
  state : d.State
  chunks : List Text

variable {d}

/-- The events of one read: is the stream read on?  `onChunk` is what the caller answers when it has
been handed these texts. -/
def takeEvents (onChunk : List Text → Bool) (c : d.Conn) : List SseEvent → d.Conn × Bool
  | [] => (c, true)
  | ev :: evs =>
    match d.feed c.state ev with
    | (s, delta) =>
      let c := ⟨s, c.chunks ++ delta.toList⟩
      if delta.isSome && !onChunk c.chunks then (c, false)
      else if d.failed s then (c, false)
      else takeEvents onChunk c evs

/-- `post_sse`: the reads of a response, with what was kept of the ones before. -/
def postSse (onChunk : List Text → Bool) (c : d.Conn) (kept : Bytes × SseAccumulator) :
    List Bytes → d.Conn
  | [] => c
  | bytes :: reads =>
    let (carry, text) := drains kept.1 bytes
    let (sse, evs) := SseAccumulator.feed kept.2 text
    match takeEvents onChunk c evs with
    | (c, true) => postSse onChunk c (carry, sse) reads
    | (c, false) => c

/-- A stream from its start. -/
def stream (onChunk : List Text → Bool) (reads : List Bytes) : d.Conn :=
  postSse onChunk ⟨d.start, []⟩ ([], SseAccumulator.new) reads

/-! ## All events in turn -/

theorem takeEvents_append (onChunk : List Text → Bool) (c : d.Conn) (evs evs' : List SseEvent) :
    takeEvents onChunk c (evs ++ evs') =
      match takeEvents onChunk c evs with
      | (c, true) => takeEvents onChunk c evs'
      | (c, false) => (c, false) := by
  induction evs generalizing c with
  | nil => rfl
  | cons ev evs ih =>
    rw [List.cons_append, takeEvents, takeEvents]
    generalize d.feed c.state ev = r
    obtain ⟨s, delta⟩ := r
    dsimp only
    split
    · rfl
    · split
      · rfl
      · exact ih _

theorem postSse_eq (onChunk : List Text → Bool) (c : d.Conn) (kept : Bytes × SseAccumulator)
    (reads : List Bytes) :
    postSse onChunk c kept reads =
      (takeEvents onChunk c ((SseAccumulator.feed.comp drains).run kept reads).2).1 := by
  induction reads generalizing c kept with
  | nil => rfl
  | cons bytes reads ih =>
    simp only [postSse, Feed.run, Feed.comp, takeEvents_append]
    generalize takeEvents onChunk c
      (SseAccumulator.feed kept.2 (drains kept.1 bytes).2).2 = r
    obtain ⟨c', on⟩ := r
    cases on with
    | true => exact ih _ _
    | false => rfl

theorem stream_eq (onChunk : List Text → Bool) {frames : List Frame} {reads : List Bytes}
    (h : reads.flatten = utf8 (wire frames)) :
    stream onChunk reads =
      (takeEvents onChunk (⟨d.start, []⟩ : d.Conn) (frames.filterMap Frame.event?)).1 := by
  rw [stream, postSse_eq, SseAccumulator.run_reads h]

theorem takeEvents_failed {onChunk : List Text → Bool} {c : d.Conn} {ev : SseEvent} {s : d.State}
    (h : d.feed c.state ev = (s, none)) (hfailed : d.failed s) (evs : List SseEvent) :
    takeEvents onChunk c (ev :: evs) = (⟨s, c.chunks⟩, false) := by
  rw [takeEvents, h]
  simp only [Option.isSome_none, Bool.false_and, Bool.false_eq_true, if_false, hfailed, if_true,
    Option.toList_none, List.append_nil]

/-! ## What events say -/

/-- A caller that never stops the stream. -/
abbrev always : List Text → Bool := fun _ => true

theorem takeEvents_steps {π : Type} {tells : SseEvent → π → Prop}
    (onto : d.State → π → d.State × Option Text) (sound : d.State → Prop)
    (htells : ∀ s ev p, sound s → tells ev p → d.feed s ev = onto s p)
    (hsound : ∀ s p, sound s → sound (onto s p).1) (hfailed : ∀ s, sound s → d.failed s = false)
    {evs : List SseEvent} {ps : List π} (h : List.Forall₂ tells evs ps) {c : d.Conn}
    (hc : sound c.state) :
    takeEvents always c evs =
      (⟨(Feed.ofStep (fun s p => ((onto s p).1, (onto s p).2.toList)) c.state ps).1,
        c.chunks ++ (Feed.ofStep (fun s p => ((onto s p).1, (onto s p).2.toList)) c.state ps).2⟩,
        true) := by
  induction h generalizing c with
  | nil => simp only [takeEvents, Feed.ofStep, List.append_nil]
  | cons hsay _ ih =>
    rw [takeEvents, htells _ _ _ hc hsay]
    simp only [always, Bool.not_true, Bool.and_false, Bool.false_eq_true, if_false,
      hfailed _ (hsound _ _ hc), Feed.ofStep]
    rw [ih (hsound _ _ hc)]
    simp only [List.append_assoc]

end Dialect

end Synsema.Llm
