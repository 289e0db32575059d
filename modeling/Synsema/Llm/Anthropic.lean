import Synsema.Llm.Stream

/-!
# The Anthropic dialect

The answer of the model as one document (`parse_anthropic_step`, `parse_anthropic_text` of
`synsema-runtime/src/llm_providers.rs`) and as a stream of events (`AnthropicStreamState`).  A
stream that sends a message, its deltas cut and mixed in any way that keeps the texts in the order of
their blocks and begins the first call before the others, gives what the document gives.
-/

namespace Synsema.Llm.Anthropic

open Text Bytesutil List

/-! ## The document -/

def anthropicTokens (v : Value) : UInt64 :=
  let usage := v.get "usage"
  let inp := (usage.bind (Value.u64 "input_tokens")).getD 0
  let out := (usage.bind (Value.u64 "output_tokens")).getD 0
  inp + out

def anthropicConcatText (content : List Value) : Text :=
  content.flatMap fun block =>
    if block.type = some "text".toList then (block.str "text").getD [] else []

/-- The answer as a document: its content and its tokens, or the error of the API. -/
def parseAnthropic (σ : Serde) (doc : Text) : Except Text (List Value × UInt64) :=
  match σ.fromStr doc with
  | .error e => .error e
  | .ok v =>
    match v.get "error" with
    | some err => .error (σ.apiErrorMessage err)
    | none =>
      match v.list "content" with
      | none => .error "anthropic: respuesta sin array `content`"
      | some content => .ok (content, anthropicTokens v)

def parseAnthropicStep (σ : Serde) (doc : Text) : Except Text (LlmStep × UInt64) :=
  match parseAnthropic σ doc with
  | .error e => .error e
  | .ok (content, tokens) =>
    match content.find? fun block => block.type = some "tool_use".toList with
    | some block =>
      let name := (block.str "name").getD []
      let args :=
        match block.get "input" with
        | some (.object m) => σ.entries m
        | _ => []
      .ok (.toolCall name args, tokens)
    | none => .ok (.final (anthropicConcatText content), tokens)

def parseAnthropicText (σ : Serde) (doc : Text) : Except Text (Text × UInt64) :=
  match parseAnthropic σ doc with
  | .error e => .error e
  | .ok (content, tokens) => .ok (anthropicConcatText content, tokens)

/-! ## The stream -/

/-- `AnthropicStreamState`: of the first call its name, the text of its arguments so far and the
index of its block. -/
structure AnthropicStreamState where
  text : Text
  tool : Option (Text × Text × Option UInt64)
  inputTokens : UInt64
  outputTokens : UInt64
  error : Option Text

namespace AnthropicStreamState

/-- `AnthropicStreamState::default`. -/
def default : AnthropicStreamState := ⟨[], none, 0, 0, none⟩

def updateUsage (s : AnthropicStreamState) (usage : Value) : AnthropicStreamState :=
  { s with
    inputTokens := (usage.u64 "input_tokens").getD s.inputTokens
    outputTokens := (usage.u64 "output_tokens").getD s.outputTokens }

/-- The usage of an event, where it has one: its own or that of its message. -/
def usageOf (s : AnthropicStreamState) (v : Value) : AnthropicStreamState :=
  let s := (v.get "usage").elim s s.updateUsage
  ((v.get "message").bind (Value.get "usage")).elim s s.updateUsage

/-- An event `content_block_start`. -/
def blockStart (s : AnthropicStreamState) (v : Value) : AnthropicStreamState :=
  if s.tool.isNone then
    match v.get "content_block" with
    | some cb =>
      if cb.type = some "tool_use".toList then
        { s with tool := some ((cb.str "name").getD [], [], v.u64 "index") }
      else s
    | none => s
  else s

/-- An event `content_block_delta`. -/
def blockDelta (s : AnthropicStreamState) (v : Value) : AnthropicStreamState × Option Text :=
  match v.get "delta" with
  | none => (s, none)
  | some delta =>
    if delta.type = some "text_delta".toList then
      let t := (delta.str "text").getD []
      ({ s with text := s.text ++ t }, if t.isEmpty then none else some t)
    else if delta.type = some "input_json_delta".toList then
      match s.tool with
      | some (name, args, index) =>
        -- the deltas of other calls are not those of the first
        if index = v.u64 "index" then
          let frag := (delta.str "partial_json").getD []
          ({ s with tool := some (name, args ++ frag, index) }, none)
        else (s, none)
      | none => (s, none)
    else (s, none)

/-- `AnthropicStreamState::feed`. -/
def feed (σ : Serde) (s : AnthropicStreamState) (ev : SseEvent) :
    AnthropicStreamState × Option Text :=
  match σ.fromStr ev.data with
  | .error _ => (s, none)
  | .ok v =>
    if ev.event = some "error".toList ∨ v.type = some "error".toList then
      ({ s with error := some ((v.get "error").elim (σ.toText v) σ.apiErrorMessage) }, none)
    else
      let s := s.usageOf v
      if v.type = some "content_block_start".toList then (s.blockStart v, none)
      else if v.type = some "content_block_delta".toList then s.blockDelta v
      else (s, none)

def tokens (s : AnthropicStreamState) : UInt64 := s.inputTokens + s.outputTokens

def finishStep (σ : Serde) (s : AnthropicStreamState) : Except Text (LlmStep × UInt64) :=
  match s.error with
  | some e => .error e
  | none =>
    match s.tool with
    | some (name, args, _) => .ok (.toolCall name (σ.args args), s.tokens)
    | none => .ok (.final s.text, s.tokens)

def finishText (s : AnthropicStreamState) : Except Text (Text × UInt64) :=
  match s.error with
  | some e => .error e
  | none => .ok (s.text, s.tokens)

end AnthropicStreamState

/-- The dialect of `AnthropicProvider`. -/
def dialect (σ : Serde) : Dialect where
  State := AnthropicStreamState
  start := .default
  feed := AnthropicStreamState.feed σ
  failed s := s.error.isSome

/-! ## Messages and their documents -/

/-- A block of a message. -/
inductive Block where
  | text (t : Text)
  | toolUse (name : Text) (input : List (Text × Value))

/-- A message: its blocks, each with the index by which the events of a stream call it, and its
usage. -/
structure Message where
  blocks : List (UInt64 × Block)
  input : Option UInt64
  output : Option UInt64

namespace Message

/-- The text of a message. -/
def text (m : Message) : Text :=
  m.blocks.flatMap fun b =>
    match b.2 with
    | .text t => t
    | .toolUse _ _ => []

/-- The calls of a message. -/
def calls (m : Message) : List (UInt64 × Text × List (Text × Value)) :=
  m.blocks.filterMap fun b =>
    match b.2 with
    | .text _ => none
    | .toolUse name input => some (b.1, name, input)

end Message

/-- A value is the block. -/
def IsBlock (v : Value) : Block → Prop
  | .text t => v.type = some "text".toList ∧ v.str "text" = some t
  | .toolUse name input => v.type = some "tool_use".toList ∧ v.str "name" = some name ∧
      v.get "input" = some (.object input)

/-- A text is read as the message. -/
structure IsDocument (σ : Serde) (m : Message) (doc : Text) : Prop where
  read : ∃ v, σ.fromStr doc = .ok v ∧ v.get "error" = none ∧
    (∃ content, v.list "content" = some content ∧
      Forall₂ (fun c b => IsBlock c b.2) content m.blocks) ∧
    (v.get "usage").bind (Value.u64 "input_tokens") = m.input ∧
    (v.get "usage").bind (Value.u64 "output_tokens") = m.output

/-- A text is read as an error of the API. -/
def IsError (σ : Serde) (err : Value) (doc : Text) : Prop :=
  ∃ v, σ.fromStr doc = .ok v ∧ v.get "error" = some err

/-! ## What the events of a stream say -/

/-- What an event says: that a block begins (a call with its name, or a text), a piece of the text or
of the arguments of a block, or anything else, with what it tells of the usage. -/
inductive Piece where
  | start (index : UInt64) (tool : Option Text)
  | text (index : UInt64) (t : Text)
  | json (index : UInt64) (t : Text)
  | other (input output : Option UInt64)

/-- A value says it. -/
def Piece.IsIn (v : Value) : Piece → Prop
  | start index tool => v.type = some "content_block_start".toList ∧
      v.get "usage" = none ∧ v.get "message" = none ∧
      v.u64 "index" = some index ∧ ∃ cb, v.get "content_block" = some cb ∧
        match tool with
        | some name => cb.type = some "tool_use".toList ∧ cb.str "name" = some name
        | none => cb.type ≠ some "tool_use".toList
  | text index t => v.type = some "content_block_delta".toList ∧
      v.get "usage" = none ∧ v.get "message" = none ∧
      v.u64 "index" = some index ∧ ∃ d, v.get "delta" = some d ∧
        d.type = some "text_delta".toList ∧ d.str "text" = some t
  | json index t => v.type = some "content_block_delta".toList ∧
      v.get "usage" = none ∧ v.get "message" = none ∧
      v.u64 "index" = some index ∧ ∃ d, v.get "delta" = some d ∧
        d.type = some "input_json_delta".toList ∧ d.str "partial_json" = some t
  | other input output => v.type ≠ some "content_block_start".toList ∧
      v.type ≠ some "content_block_delta".toList ∧
      ∃ usage, ((v.get "usage" = usage ∧
            (v.get "message").bind (Value.get "usage") = none) ∨
          (v.get "usage" = none ∧
            (v.get "message").bind (Value.get "usage") = usage)) ∧
        usage.bind (Value.u64 "input_tokens") = input ∧
        usage.bind (Value.u64 "output_tokens") = output

/-- An event says it.  What is no JSON says nothing. -/
def Tells (σ : Serde) (ev : SseEvent) (p : Piece) : Prop :=
  (p = .other none none ∧ ∃ e, σ.fromStr ev.data = .error e) ∨
    ∃ v, σ.fromStr ev.data = .ok v ∧ ev.event ≠ some "error".toList ∧
      v.type ≠ some "error".toList ∧ p.IsIn v

/-- An event carries an error of the API. -/
def TellsError (σ : Serde) (ev : SseEvent) (err : Value) : Prop :=
  ∃ v, σ.fromStr ev.data = .ok v ∧
    (ev.event = some "error".toList ∨ v.type = some "error".toList) ∧
    v.get "error" = some err

namespace Piece

/-- The block that an event is about. -/
def index? : Piece → Option UInt64
  | start i _ => some i
  | text i _ => some i
  | json i _ => some i
  | other _ _ => none

/-- A piece of text, with its block. -/
def text? : Piece → Option (UInt64 × Text)
  | text i t => some (i, t)
  | _ => none

/-- A piece of arguments, with its block. -/
def json? : Piece → Option (UInt64 × Text)
  | json i t => some (i, t)
  | _ => none

/-- The beginning of a call, with its block. -/
def call? : Piece → Option (UInt64 × Text)
  | start i (some name) => some (i, name)
  | _ => none

/-- The input tokens that an event tells. -/
def input? : Piece → Option UInt64
  | other input _ => input
  | _ => none

/-- The output tokens that an event tells. -/
def output? : Piece → Option UInt64
  | other _ output => output
  | _ => none

end Piece

/-- The pieces of a block, joined. -/
def piecesOf (i : UInt64) (l : List (UInt64 × Text)) : Text :=
  (l.filter fun p => p.1 = i).flatMap Prod.snd

/-- What some events say is a message: each block begins once, before its pieces; the pieces of a
text are the text, and those of the arguments of a call are a text that is read as these, or nothing
at all where there are none; what is told last of the usage is the usage. -/
structure Sends (σ : Serde) (m : Message) (ps : List Piece) : Prop where
  indices : (m.blocks.map Prod.fst).Nodup
  starts : ∀ i tool, .start i tool ∈ ps ↔ ∃ b, (i, b) ∈ m.blocks ∧
    match b with
    | .text _ => tool = none
    | .toolUse name _ => tool = some name
  first : ∀ before i tool after, ps = before ++ .start i tool :: after →
    ∀ p ∈ before, p.index? ≠ some i
  text : ∀ i b, (i, b) ∈ m.blocks → piecesOf i (ps.filterMap Piece.text?) =
    match b with
    | .text t => t
    | .toolUse _ _ => []
  textBlocks : ∀ p ∈ ps.filterMap Piece.text?, p.1 ∈ m.blocks.map Prod.fst
  input : ∀ i name input, (i, .toolUse name input) ∈ m.blocks →
    σ.fromStr (piecesOf i (ps.filterMap Piece.json?)) = .ok (.object input) ∨
      piecesOf i (ps.filterMap Piece.json?) = [] ∧ input = []
  inputTokens : lastOf (ps.map Piece.input?) = m.input
  outputTokens : lastOf (ps.map Piece.output?) = m.output

/-- The pieces of the texts come block by block, and the first call of the message begins before the
others. -/
structure InOrder (m : Message) (ps : List Piece) : Prop where
  text : ps.filterMap Piece.text? =
    m.blocks.flatMap fun b => (ps.filterMap Piece.text?).filter fun p => p.1 = b.1
  call : (ps.filterMap Piece.call?).head? = (m.calls.map fun c => (c.1, c.2.1)).head?

/-! ## What the state makes of it -/

namespace AnthropicStreamState

/-- What an event that says something does. -/
def onto (s : AnthropicStreamState) : Piece → AnthropicStreamState × Option Text
  | .start i (some name) =>
    if s.tool.isNone then ({ s with tool := some (name, [], some i) }, none) else (s, none)
  | .start _ none => (s, none)
  | .text _ t => ({ s with text := s.text ++ t }, if t.isEmpty then none else some t)
  | .json i t =>
    match s.tool with
    | some (name, args, index) =>
      if index = some i then ({ s with tool := some (name, args ++ t, index) }, none)
      else (s, none)
    | none => (s, none)
  | .other input output =>
    ({ s with
        inputTokens := input.getD s.inputTokens
        outputTokens := output.getD s.outputTokens }, none)

variable {s : AnthropicStreamState}

theorem usageOf_none {v : Value} (husage : v.get "usage" = none)
    (hmessage : v.get "message" = none) : s.usageOf v = s := by
  rw [usageOf, husage, hmessage]
  rfl

theorem feed_of_tells {σ : Serde} {ev : SseEvent} {p : Piece} (h : Tells σ ev p)
    (s : AnthropicStreamState) : s.feed σ ev = s.onto p := by
  rcases h with ⟨rfl, e, he⟩ | ⟨v, hv, hevent, htype, hin⟩
  · rw [feed, he]
    rfl
  · rw [feed, hv]
    dsimp only
    rw [if_neg (not_or.mpr ⟨hevent, htype⟩)]
    cases p with
    | start i tool =>
      obtain ⟨hstart, husage, hmessage, hindex, cb, hcb, hkind⟩ := hin
      rw [usageOf_none husage hmessage, if_pos hstart, blockStart, hcb]
      cases tool with
      | none =>
        dsimp only at hkind ⊢
        rw [if_neg hkind, ite_self]
        rfl
      | some name =>
        dsimp only at hkind ⊢
        rw [if_pos hkind.1, hkind.2, hindex, onto]
        cases s.tool with
        | none | some tool => rfl
    | text i t =>
      obtain ⟨hdelta, husage, hmessage, hindex, d, hd, hkind, ht⟩ := hin
      have hne : ¬ v.type = some "content_block_start".toList := by
        rw [hdelta]
        decide
      rw [usageOf_none husage hmessage, if_neg hne, if_pos hdelta, blockDelta, hd]
      dsimp only
      rw [if_pos hkind, ht]
      rfl
    | json i t =>
      obtain ⟨hdelta, husage, hmessage, hindex, d, hd, hkind, ht⟩ := hin
      have hne : ¬ v.type = some "content_block_start".toList := by
        rw [hdelta]
        decide
      have hne' : ¬ d.type = some "text_delta".toList := by
        rw [hkind]
        decide
      rw [usageOf_none husage hmessage, if_neg hne, if_pos hdelta, blockDelta, hd]
      dsimp only
      rw [if_neg hne', if_pos hkind, ht, hindex, onto]
      rfl
    | other input output =>
      obtain ⟨hstart, hdelta, usage, hwhere, rfl, rfl⟩ := hin
      rw [if_neg hstart, if_neg hdelta, onto, usageOf]
      rcases hwhere with ⟨rfl, hmessage⟩ | ⟨husage, rfl⟩
      · rw [hmessage]
        cases v.get "usage" with
        | none | some u => rfl
      · rw [husage]
        cases (v.get "message").bind (Value.get "usage") with
        | none | some u => rfl

theorem onto_error (s : AnthropicStreamState) (p : Piece) : (s.onto p).1.error = s.error := by
  cases p with
  | start i tool =>
    cases tool with
    | none => rfl
    | some name =>
      rw [onto]
      split <;> rfl
  | text i t => rfl
  | json i t =>
    rw [onto]
    split
    · split <;> rfl
    · rfl
  | other input output => rfl

/-- The events in turn. -/
def run (s : AnthropicStreamState) (ps : List Piece) : AnthropicStreamState × List Text :=
  Feed.ofStep (fun s p => ((s.onto p).1, (s.onto p).2.toList)) s ps

theorem run_cons (s : AnthropicStreamState) (p : Piece) (ps : List Piece) :
    s.run (p :: ps) = (((s.onto p).1.run ps).1, (s.onto p).2.toList ++ ((s.onto p).1.run ps).2) :=
  rfl

theorem run_error (s : AnthropicStreamState) (ps : List Piece) : (s.run ps).1.error = s.error := by
  induction ps generalizing s with
  | nil => rfl
  | cons p ps ih => rw [run_cons, ih, onto_error]

theorem run_text (s : AnthropicStreamState) (ps : List Piece) :
    (s.run ps).1.text = s.text ++ (ps.filterMap Piece.text?).flatMap Prod.snd ∧
      (s.run ps).2.flatten = (ps.filterMap Piece.text?).flatMap Prod.snd := by
  induction ps generalizing s with
  | nil => exact ⟨(append_nil _).symm, rfl⟩
  | cons p ps ih =>
    obtain ⟨htext, hout⟩ := ih (s.onto p).1
    rw [run_cons, htext, flatten_append, hout]
    cases p with
    | text i t =>
      rw [filterMap_cons_some (show Piece.text? (.text i t) = some (i, t) from rfl), flatMap_cons,
        onto]
      refine ⟨append_assoc _ _ _, ?_⟩
      cases t with
      | nil => rfl
      | cons c t => simp
    | start i tool =>
      rw [filterMap_cons_none (by rfl)]
      cases tool with
      | none => exact ⟨rfl, rfl⟩
      | some name =>
        rw [onto]
        split <;> exact ⟨rfl, rfl⟩
    | json i t =>
      rw [filterMap_cons_none (by rfl), onto]
      split
      · split <;> exact ⟨rfl, rfl⟩
      · exact ⟨rfl, rfl⟩
    | other input output =>
      rw [filterMap_cons_none (by rfl)]
      exact ⟨rfl, rfl⟩

theorem onto_input (s : AnthropicStreamState) (p : Piece) :
    (s.onto p).1.inputTokens = p.input?.getD s.inputTokens ∧
      (s.onto p).1.outputTokens = p.output?.getD s.outputTokens := by
  cases p with
  | start i tool =>
    cases tool with
    | none => exact ⟨rfl, rfl⟩
    | some name =>
      rw [onto]
      split <;> exact ⟨rfl, rfl⟩
  | text i t | other input output => exact ⟨rfl, rfl⟩
  | json i t =>
    rw [onto]
    split
    · split <;> exact ⟨rfl, rfl⟩
    · exact ⟨rfl, rfl⟩

theorem run_tokens (s : AnthropicStreamState) (ps : List Piece) :
    (s.run ps).1.inputTokens = (lastOf (ps.map Piece.input?)).getD s.inputTokens ∧
      (s.run ps).1.outputTokens = (lastOf (ps.map Piece.output?)).getD s.outputTokens := by
  induction ps generalizing s with
  | nil => exact ⟨rfl, rfl⟩
  | cons p ps ih =>
    obtain ⟨hinput, houtput⟩ := ih (s.onto p).1
    rw [run_cons, hinput, houtput, (onto_input s p).1, (onto_input s p).2, map_cons, map_cons,
      lastOf_cons_getD, lastOf_cons_getD]
    exact ⟨rfl, rfl⟩

theorem run_tool_some {name args : Text} {i : UInt64} (h : s.tool = some (name, args, some i))
    (ps : List Piece) :
    (s.run ps).1.tool = some (name, args ++ piecesOf i (ps.filterMap Piece.json?), some i) := by
  induction ps generalizing s args with
  | nil =>
    rw [filterMap_nil, piecesOf, filter_nil, flatMap_nil, append_nil]
    exact h
  | cons p ps ih =>
    rw [run_cons]
    cases p with
    | json j t =>
      rw [filterMap_cons_some (show Piece.json? (.json j t) = some (j, t) from rfl), onto, h]
      by_cases hj : j = i
      · subst hj
        dsimp only
        rw [if_pos rfl, ih rfl, piecesOf, piecesOf, filter_cons_of_pos (by simp),
          flatMap_cons, append_assoc]
      · dsimp only
        rw [if_neg fun he => hj (Option.some.inj he).symm, ih h, piecesOf, piecesOf,
          filter_cons_of_neg (by simpa using hj)]
    | start j tool =>
      rw [filterMap_cons_none (by rfl)]
      cases tool with
      | none => exact ih h
      | some other =>
        rw [onto, h]
        exact ih h
    | text j t | other input output =>
      rw [filterMap_cons_none (by rfl)]
      exact ih h

theorem run_tool_none (h : s.tool = none) {ps : List Piece} (hps : ps.filterMap Piece.call? = []) :
    (s.run ps).1.tool = none := by
  induction ps generalizing s with
  | nil => exact h
  | cons p ps ih =>
    rw [run_cons]
    cases p with
    | start i tool =>
      cases tool with
      | none => exact ih h hps
      | some name => cases hps
    | text i t | other input output => exact ih h hps
    | json i t =>
      rw [onto, h]
      exact ih h hps

theorem run_append (s : AnthropicStreamState) (ps ps' : List Piece) :
    (s.run (ps ++ ps')).1 = ((s.run ps).1.run ps').1 := by
  rw [run, (Feed.additive_ofStep _).append]
  rfl

end AnthropicStreamState

/-! ## What a message says of its stream -/

section Sent

variable {σ : Serde} {m : Message} {ps : List Piece}

theorem flatMap_text (h : Sends σ m ps) (hin : InOrder m ps) :
    (ps.filterMap Piece.text?).flatMap Prod.snd = m.text := by
  rw [hin.text, flatMap_assoc, Message.text]
  refine flatMap_congr fun b hb => ?_
  exact h.text b.1 b.2 hb

theorem tool_run (h : Sends σ m ps) (hin : InOrder m ps) :
    (AnthropicStreamState.default.run ps).1.tool = m.calls.head?.map fun c =>
      (c.2.1, piecesOf c.1 (ps.filterMap Piece.json?), some c.1) := by
  have hcall := hin.call
  rw [head?_map] at hcall
  cases hcalls : m.calls.head? with
  | none =>
    rw [hcalls, Option.map_none, head?_eq_none_iff] at hcall
    exact AnthropicStreamState.run_tool_none rfl hcall
  | some c =>
    rw [hcalls, Option.map_some] at hcall
    obtain ⟨rest, hrest⟩ := head?_eq_some_iff.mp hcall
    obtain ⟨before, p, after, rfl, hbefore, hp, -⟩ := filterMap_eq_cons_iff.mp hrest
    obtain ⟨rfl⟩ : p = .start c.1 (some c.2.1) := by
      cases p with
      | start i tool =>
        cases tool with
        | none => cases hp
        | some name =>
          obtain ⟨rfl, rfl⟩ := Prod.mk.inj (Option.some.inj hp)
          rfl
      | text i t | json i t | other input output => cases hp
    have hnone : before.filterMap Piece.call? = [] := filterMap_eq_nil_iff.mpr hbefore
    have hargs : piecesOf c.1 (before.filterMap Piece.json?) = [] := by
      rw [piecesOf, List.filter_eq_nil_iff.mpr, flatMap_nil]
      intro q hq
      obtain ⟨p, hp, hj⟩ := mem_filterMap.mp hq
      have hne := h.first before c.1 (some c.2.1) after rfl p hp
      cases p with
      | json i t =>
        obtain rfl := Option.some.inj hj
        simpa [Piece.index?] using hne
      | start i tool | text i t | other input output => cases hj
    have hpieces : piecesOf c.1 ((before ++ .start c.1 (some c.2.1) :: after).filterMap
        Piece.json?) = piecesOf c.1 (after.filterMap Piece.json?) := by
      rw [filterMap_append, filterMap_cons_none (by rfl)]
      rw [piecesOf, filter_append, flatMap_append, ← piecesOf, ← piecesOf, hargs, nil_append]
    have hbegin := AnthropicStreamState.run_tool_none
      (show AnthropicStreamState.default.tool = none from rfl) hnone
    rw [AnthropicStreamState.run_append, AnthropicStreamState.run_cons, AnthropicStreamState.onto,
      hbegin]
    dsimp only [Option.isNone_none]
    rw [if_pos rfl, AnthropicStreamState.run_tool_some rfl, nil_append, Option.map_some, hpieces]

theorem args_piecesOf (h : Sends σ m ps) {c : UInt64 × Text × List (Text × Value)}
    (hc : c ∈ m.calls) : σ.args (piecesOf c.1 (ps.filterMap Piece.json?)) = σ.entries c.2.2 := by
  obtain ⟨b, hb, hcb⟩ := mem_filterMap.mp hc
  obtain ⟨i, block⟩ := b
  cases block with
  | text t => cases hcb
  | toolUse name input =>
    obtain rfl := Option.some.inj hcb
    rcases h.input i name input hb with hread | ⟨hnone, rfl⟩
    · rw [Serde.args, hread]
    · rw [hnone, Serde.args]
      split
      · rename_i m hread
        exact absurd hread (σ.empty _)
      · rfl

theorem finishStep_run (h : Sends σ m ps) (hin : InOrder m ps) :
    (AnthropicStreamState.default.run ps).1.finishStep σ = .ok (match m.calls.head? with
      | some c => .toolCall c.2.1 (σ.entries c.2.2)
      | none => .final m.text, m.input.getD 0 + m.output.getD 0) := by
  have htokens := AnthropicStreamState.run_tokens .default ps
  rw [h.inputTokens, h.outputTokens] at htokens
  have htext := (AnthropicStreamState.run_text .default ps).1
  rw [flatMap_text h hin] at htext
  rw [AnthropicStreamState.finishStep, AnthropicStreamState.run_error, tool_run h hin,
    AnthropicStreamState.tokens, htokens.1, htokens.2, htext]
  cases hc : m.calls.head? with
  | none => rfl
  | some c =>
    have hargs := args_piecesOf h (mem_of_mem_head? hc)
    change Except.ok (LlmStep.toolCall c.2.1
      (σ.args (piecesOf c.1 (ps.filterMap Piece.json?))), _) = _
    rw [hargs]
    rfl

theorem finishText_run (h : Sends σ m ps) (hin : InOrder m ps) :
    (AnthropicStreamState.default.run ps).1.finishText =
      .ok (m.text, m.input.getD 0 + m.output.getD 0) := by
  have htokens := AnthropicStreamState.run_tokens .default ps
  rw [h.inputTokens, h.outputTokens] at htokens
  have htext := (AnthropicStreamState.run_text .default ps).1
  rw [flatMap_text h hin] at htext
  rw [AnthropicStreamState.finishText, AnthropicStreamState.run_error, AnthropicStreamState.tokens,
    htokens.1, htokens.2, htext]
  rfl

end Sent

/-! ## What a document says -/

section Document

variable {σ : Serde} {m : Message} {doc : Text}

variable {blocks : List (UInt64 × Block)} {content : List Value}

theorem concatText_of_isBlock (h : Forall₂ (fun c b => IsBlock c b.2) content blocks) :
    anthropicConcatText content = Message.text ⟨blocks, none, none⟩ := by
  induction h with
  | nil => rfl
  | @cons c b content blocks hcb _ ih =>
    rw [anthropicConcatText, flatMap_cons, ← anthropicConcatText, ih, Message.text, Message.text,
      flatMap_cons]
    congr 1
    obtain ⟨i, block⟩ := b
    cases block with
    | text t =>
      obtain ⟨htype, ht⟩ := hcb
      rw [if_pos htype, ht]
      rfl
    | toolUse name input =>
      obtain ⟨htype, -⟩ := hcb
      rw [if_neg (by rw [htype]; decide)]

theorem find_call_of_isBlock (h : Forall₂ (fun c b => IsBlock c b.2) content blocks) :
    match (Message.calls ⟨blocks, none, none⟩).head? with
    | some c => ∃ block, content.find? (fun block => block.type = some "tool_use".toList) =
        some block ∧ block.str "name" = some c.2.1 ∧
        block.get "input" = some (.object c.2.2)
    | none => content.find? (fun block => block.type = some "tool_use".toList) = none := by
  induction h with
  | nil => rfl
  | @cons c b content blocks hcb _ ih =>
    obtain ⟨i, block⟩ := b
    cases block with
    | text t =>
      obtain ⟨htype, -⟩ := hcb
      have hne : ¬ c.type = some "tool_use".toList := by
        rw [htype]
        decide
      have hskip : (c :: content).find? (fun block => block.type = some "tool_use".toList) =
          content.find? fun block => block.type = some "tool_use".toList :=
        find?_cons_of_neg fun hd => hne (of_decide_eq_true hd)
      rw [hskip]
      exact ih
    | toolUse name input =>
      obtain ⟨htype, hname, hinput⟩ := hcb
      exact ⟨c, find?_cons_of_pos (decide_eq_true htype), hname, hinput⟩

theorem parseAnthropic_of_isDocument (h : IsDocument σ m doc) :
    ∃ content, parseAnthropic σ doc = .ok (content, m.input.getD 0 + m.output.getD 0) ∧
      Forall₂ (fun c b => IsBlock c b.2) content m.blocks := by
  obtain ⟨v, hv, herror, ⟨content, hcontent, hblocks⟩, hinput, houtput⟩ := h.read
  refine ⟨content, ?_, hblocks⟩
  rw [parseAnthropic, hv]
  dsimp only
  rw [herror, hcontent, anthropicTokens]
  dsimp only
  rw [hinput, houtput]

theorem parseAnthropicStep_of_isDocument (h : IsDocument σ m doc) :
    parseAnthropicStep σ doc = .ok (match m.calls.head? with
      | some c => .toolCall c.2.1 (σ.entries c.2.2)
      | none => .final m.text, m.input.getD 0 + m.output.getD 0) := by
  obtain ⟨content, hparse, hblocks⟩ := parseAnthropic_of_isDocument h
  have hcall := find_call_of_isBlock hblocks
  rw [parseAnthropicStep, hparse]
  change match m.calls.head? with | some c => _ | none => _ at hcall
  cases hc : m.calls.head? with
  | none =>
    rw [hc] at hcall
    dsimp only
    rw [hcall, concatText_of_isBlock hblocks]
    rfl
  | some c =>
    rw [hc] at hcall
    obtain ⟨block, hfind, hname, hinput⟩ := hcall
    dsimp only
    rw [hfind]
    dsimp only
    rw [hname, hinput]
    rfl

theorem parseAnthropicText_of_isDocument (h : IsDocument σ m doc) :
    parseAnthropicText σ doc = .ok (m.text, m.input.getD 0 + m.output.getD 0) := by
  obtain ⟨content, hparse, hblocks⟩ := parseAnthropic_of_isDocument h
  rw [parseAnthropicText, hparse]
  dsimp only
  rw [concatText_of_isBlock hblocks]
  rfl

theorem parseAnthropic_of_isError {err : Value} (h : IsError σ err doc) :
    parseAnthropic σ doc = .error (σ.apiErrorMessage err) := by
  obtain ⟨v, hv, herror⟩ := h
  rw [parseAnthropic, hv]
  dsimp only
  rw [herror]

end Document

end Synsema.Llm.Anthropic
