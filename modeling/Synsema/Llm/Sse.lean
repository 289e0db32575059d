import Synsema.Llm.Utf8

/-!
# Server-sent events

`SseAccumulator` (`synsema-runtime/src/llm_providers.rs`) puts the events of a response together
from the text that has come so far.  Of the text of any events, with comments and fields it does
not know, and with any line ends, it makes these events, wherever the text is cut (`feed_wire`).
-/

namespace Synsema.Llm

open Text Bytesutil List

/-! ## The accumulator -/

/-- An event: its `event:`, if it has one, and its lines `data:` joined. -/
structure SseEvent where
  event : Option Text
  data : Text
  deriving DecidableEq

/-- What has come of an event: `cur_event` and `cur_data`. -/
structure Current where
  event : Option Text
  data : List Text

namespace Current

/-- Nothing has come. -/
def start : Current := ⟨none, []⟩

/-- One line: a blank one ends the event. -/
def line (cur : Current) (line : Text) : Current × List SseEvent :=
  let line := trimEndMatches (· == '\r') line
  if line.isEmpty then
    if cur.event.isSome || !cur.data.isEmpty then
      (start, [⟨cur.event, join "\n" cur.data⟩])
    else (cur, [])
  else
    match stripPrefix "event:" line with
    | some rest => ({ cur with event := some (trim rest) }, [])
    | none =>
      match stripPrefix "data:" line with
      | some rest =>
        ({ cur with data := cur.data ++ [(stripPrefix " " rest).getD rest] }, [])
      | none => (cur, [])

end Current

/-- `SseAccumulator`: `buf`, which has no whole line, and the event that has begun. -/
abbrev SseAccumulator := { buf : Text // '\n' ∉ buf } × Current

namespace SseAccumulator

/-- `SseAccumulator::new`. -/
def new : SseAccumulator := (⟨[], not_mem_nil⟩, .start)

/-- `SseAccumulator::feed`: the lines that are over are taken in turn. -/
def feed : Feed SseAccumulator Char SseEvent := (Feed.ofStep Current.line).comp (Feed.lines '\n')

theorem additive_feed : feed.Additive :=
  (Feed.additive_ofStep Current.line).comp (Feed.additive_lines '\n')

end SseAccumulator

/-! ## The text of events -/

/-- The event that a blank line ends. -/
def Current.over (cur : Current) : Option SseEvent :=
  if cur.event.isSome || !cur.data.isEmpty then some ⟨cur.event, join "\n" cur.data⟩ else none

/-- A line of an event, not the blank one: a comment, the event's name, some of its data with or
without a space before it, or a field that has no part in it. -/
inductive Line where
  | comment (t : Text)
  | event (t : Text)
  | data (space : Bool) (t : Text)
  | field (t : Text)
  deriving DecidableEq

namespace Line

/-- A line as it is written. -/
def text : Line → Text
  | comment t => ':' :: t
  | event t => "event:" ++ t
  | data space t => "data:".toList ++ ((if space then " ".toList else []) ++ t)
  | field t => t

/-- Is the line what its kind says? -/
def kept : Line → Bool
  | comment _ => true
  | event _ => true
  | data space t => space || t.head? != some ' '
  | field t => !t.isEmpty && (stripPrefix "event:" t).isNone &&
      (stripPrefix "data:" t).isNone

/-- The line has no line end in it and is of its kind. -/
def Ok (l : Line) : Prop := '\n' ∉ l.text ∧ '\r' ∉ l.text ∧ l.kept = true

instance (l : Line) : Decidable l.Ok := inferInstanceAs (Decidable (_ ∧ _))

/-- What a line says about its event. -/
def onto (cur : Current) : Line → Current
  | comment _ => cur
  | event t => { cur with event := some (trim t) }
  | data _ t => { cur with data := cur.data ++ [t] }
  | field _ => cur

end Line

/-- The end of a line. -/
def lineEnd (crlf : Bool) : Text := if crlf then "\r\n" else "\n"

/-- An event on the wire: lines, each with how it ends, and how the blank line behind them ends. -/
structure Frame where
  lines : List (Line × Bool)
  crlf : Bool
  ok : ∀ l ∈ lines, l.1.Ok

namespace Frame

/-- What the lines say. -/
def said (f : Frame) : Current := f.lines.foldl (fun cur l => l.1.onto cur) .start

/-- The event, if there is one. -/
def event? (f : Frame) : Option SseEvent := f.said.over

/-- The text of an event. -/
def text (f : Frame) : Text :=
  f.lines.flatMap (fun l => l.1.text ++ lineEnd l.2) ++ lineEnd f.crlf

end Frame

/-- The text of some events. -/
def wire (frames : List Frame) : Text := frames.flatMap Frame.text

/-! ## Reading the text of events -/

/-- How a line is cut off: with the first half of its end. -/
def halfEnd (crlf : Bool) : Text := if crlf then ['\r'] else []

theorem lineEnd_eq (crlf : Bool) : lineEnd crlf = halfEnd crlf ++ ['\n'] := by
  cases crlf with
  | true | false => rfl

theorem notMem_halfEnd (crlf : Bool) : '\n' ∉ halfEnd crlf := by
  cases crlf with
  | true => decide
  | false => exact not_mem_nil

theorem trimEndMatches_halfEnd {t : Text} (h : '\r' ∉ t) (crlf : Bool) :
    trimEndMatches (· == '\r') (t ++ halfEnd crlf) = t := by
  have hself : trimEndMatches (· == '\r') t = t := by
    rw [trimEndMatches, rdropWhile_eq_self_iff]
    intro hne heq
    exact h (beq_iff_eq.mp heq ▸ getLast_mem hne)
  cases crlf with
  | true =>
    rw [halfEnd, if_pos rfl, trimEndMatches, rdropWhile_concat_pos _ _ _ (by rfl)]
    exact hself
  | false => rwa [halfEnd, if_neg Bool.false_ne_true, append_nil]

theorem Line.text_ne_nil {l : Line} (h : l.Ok) : l.text ≠ [] := by
  cases l with
  | comment t | event t | data space t => exact cons_ne_nil _ _
  | field t =>
    intro hnil
    have hkept := h.2.2
    change t = [] at hnil
    subst hnil
    cases hkept

theorem Current.line_of_ok {l : Line} (h : l.Ok) (crlf : Bool) (cur : Current) :
    cur.line (l.text ++ halfEnd crlf) = (l.onto cur, []) := by
  have hne : l.text.isEmpty = false := isEmpty_eq_false_iff.mpr (Line.text_ne_nil h)
  rw [Current.line, trimEndMatches_halfEnd h.2.1, hne, if_neg Bool.false_ne_true]
  have hkept := h.2.2
  cases l with
  | comment t => rfl
  | event t =>
    have hevent : stripPrefix "event:" (Line.event t).text = some t :=
      stripPrefix_eq_some.mpr rfl
    rw [hevent]
    rfl
  | data space t =>
    have hevent : stripPrefix "event:" (Line.data space t).text = none := rfl
    have hdata : stripPrefix "data:" (Line.data space t).text =
        some ((if space then " ".toList else []) ++ t) := stripPrefix_eq_some.mpr rfl
    rw [hevent, hdata]
    cases space with
    | true => rfl
    | false =>
      simp only [Line.kept, Bool.false_or] at hkept
      have hnone : stripPrefix " " t = none := by
        cases t with
        | nil => rfl
        | cons c t =>
          have hc : c ≠ ' ' := by simpa using hkept
          simp [stripPrefix, List.isPrefixOf?, Ne.symm hc]
      simp only [Bool.false_eq_true, if_false, nil_append, hnone, Option.getD_none]
      rfl
  | field t =>
    simp only [Line.kept, Bool.and_eq_true, Option.isNone_iff_eq_none] at hkept
    have hevent : stripPrefix "event:" (Line.field t).text = none := hkept.1.2
    have hdata : stripPrefix "data:" (Line.field t).text = none := hkept.2
    rw [hevent, hdata]
    rfl

theorem Current.line_blank (crlf : Bool) (cur : Current) :
    cur.line (halfEnd crlf) = (start, cur.over.toList) := by
  have htrim := @trimEndMatches_halfEnd [] not_mem_nil crlf
  rw [nil_append] at htrim
  rw [Current.line, htrim, Current.over]
  obtain ⟨event, data⟩ := cur
  cases event with
  | some t => rfl
  | none =>
    cases data with
    | nil | cons d data => rfl

/-- The lines of an event, cut off as the machine does. -/
def Frame.cutLines (f : Frame) : List Text :=
  f.lines.map (fun l => l.1.text ++ halfEnd l.2) ++ [halfEnd f.crlf]

theorem Frame.cutAt_text (f : Frame) (rest : Text) :
    Feed.cutAt '\n' (f.text ++ rest) =
      (f.cutLines ++ (Feed.cutAt '\n' rest).1, (Feed.cutAt '\n' rest).2) := by
  obtain ⟨lines, crlf, ok⟩ := f
  simp only [Frame.text, cutLines]
  induction lines with
  | nil =>
    rw [flatMap_nil, nil_append, lineEnd_eq, append_assoc, singleton_append,
      Feed.cutAt_line (notMem_halfEnd crlf)]
    rfl
  | cons l lines ih =>
    have hl : '\n' ∉ l.1.text ++ halfEnd l.2 := by
      rw [mem_append]
      rintro (h | h)
      · exact (ok l mem_cons_self).1 h
      · exact notMem_halfEnd l.2 h
    have hsplit : (l :: lines).flatMap (fun l => l.1.text ++ lineEnd l.2) ++ lineEnd crlf ++ rest =
        (l.1.text ++ halfEnd l.2) ++ '\n' :: ((lines.flatMap fun l => l.1.text ++ lineEnd l.2) ++
          lineEnd crlf ++ rest) := by
      simp only [flatMap_cons, lineEnd_eq, append_assoc, cons_append, nil_append]
    rw [hsplit, Feed.cutAt_line hl, ih fun m hm => ok m (mem_cons_of_mem _ hm)]
    rfl

theorem Frame.ofStep_cutLines (f : Frame) :
    Feed.ofStep Current.line .start f.cutLines = (.start, f.event?.toList) := by
  obtain ⟨lines, crlf, ok⟩ := f
  have hlines : ∀ cur, (∀ l ∈ lines, l.1.Ok) →
      Feed.ofStep Current.line cur (lines.map fun l => l.1.text ++ halfEnd l.2) =
        (lines.foldl (fun cur l => l.1.onto cur) cur, []) := by
    clear ok
    induction lines with
    | nil => intro cur _; rfl
    | cons l lines ih =>
      intro cur ok
      have hrest := ih (l.1.onto cur) fun m hm => ok m (mem_cons_of_mem _ hm)
      rw [map_cons, Feed.ofStep, Current.line_of_ok (ok l mem_cons_self)]
      dsimp only
      rw [hrest]
      rfl
  rw [cutLines, (Feed.additive_ofStep Current.line).append, hlines _ ok]
  simp only [Feed.ofStep, Current.line_blank, event?, said, append_nil, nil_append]

namespace SseAccumulator

theorem feed_wire (frames : List Frame) :
    (new.feed (wire frames)) = (new, frames.filterMap Frame.event?) := by
  induction frames with
  | nil => exact additive_feed.nil new
  | cons f frames ih =>
    have hone : new.feed f.text = (new, f.event?.toList) := by
      have hcut := f.cutAt_text []
      rw [append_nil, Feed.cutAt_of_notMem not_mem_nil, append_nil] at hcut
      have hsteps := f.ofStep_cutLines
      simp only [feed, Feed.comp, Feed.lines, new, nil_append, hcut, hsteps]
    rw [wire, flatMap_cons, additive_feed.append, hone]
    dsimp only
    rw [← wire, ih, filterMap_cons]
    cases f.event? with
    | none | some e => rfl

theorem run_reads {frames : List Frame} {reads : List Bytes} (h : reads.flatten = utf8 (wire frames)) :
    ((feed.comp drains).run ([], new) reads).2 = frames.filterMap Frame.event? := by
  have htext : (drains.run [] reads).2 = wire frames :=
    drains_utf8 (by rw [nil_append, h]) (.inl rfl)
  rw [additive_feed.run_comp, htext, feed_wire]

end SseAccumulator

end Synsema.Llm
