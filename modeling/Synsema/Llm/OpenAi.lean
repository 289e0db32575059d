import Synsema.Llm.Stream

/-!
# The OpenAI dialect

The answer of the model as one document (`parse_openai_step`, `parse_openai_text` of
`synsema-runtime/src/llm_providers.rs`) and as a stream of events (`OpenAiStreamState`).  A stream
that sends a message, cut and mixed in any way, gives what the document gives.
-/

namespace Synsema.Llm.OpenAi

open Text Bytesutil List Option

/-! ## The document -/

def openaiTokens (v : Value) : UInt64 :=
  let usage := v.get "usage"
  let p := (usage.bind (Value.u64 "prompt_tokens")).getD 0
  let c := (usage.bind (Value.u64 "completion_tokens")).getD 0
  p + c

/-- `choices[0]`, if it is there. -/
def firstChoice (v : Value) : Option Value := (v.list "choices").bind List.head?

def openaiMessage (v : Value) : Option Value := (firstChoice v).bind (Value.get "message")

/-- The answer as a document: its message and its tokens, or the error of the API. -/
def parseOpenai (σ : Serde) (doc : Text) : Except Text (Value × UInt64) :=
  match σ.fromStr doc with
  | .error e => .error e
  | .ok v =>
    match v.get "error" with
    | some err => .error (σ.apiErrorMessage err)
    | none =>
      match openaiMessage v with
      | none => .error "openai: respuesta sin `choices[0].message`"
      | some message => .ok (message, openaiTokens v)

/-- The text of a message. -/
def contentOf (message : Value) : Text := (message.str "content").getD []

/-- `parse_openai_step`; `openai_parse_args` is `Serde.args`. -/
def parseOpenaiStep (σ : Serde) (doc : Text) : Except Text (LlmStep × UInt64) :=
  match parseOpenai σ doc with
  | .error e => .error e
  | .ok (message, tokens) =>
    match ((message.list "tool_calls").bind List.head?).bind
      (Value.get "function") with
    | some func =>
      let name := (func.str "name").getD []
      let args := (func.str "arguments").getD "\x7b\x7d"
      .ok (.toolCall name (σ.args args), tokens)
    | none => .ok (.final (contentOf message), tokens)

def parseOpenaiText (σ : Serde) (doc : Text) : Except Text (Text × UInt64) :=
  match parseOpenai σ doc with
  | .error e => .error e
  | .ok (message, tokens) => .ok (contentOf message, tokens)

/-! ## The stream -/

structure OpenAiStreamState where
  text : Text
  toolName : Option Text
  toolArgs : Text
  promptTokens : UInt64
  completionTokens : UInt64
  error : Option Text

namespace OpenAiStreamState

/-- `OpenAiStreamState::default`. -/
def default : OpenAiStreamState := ⟨[], none, [], 0, 0, none⟩

/-- A piece of a call: those of the calls behind the first are left out. -/
def call (s : OpenAiStreamState) (call : Value) : OpenAiStreamState :=
  if (call.u64 "index").getD 0 ≠ 0 then s
  else
    match call.get "function" with
    | none => s
    | some func =>
      let s :=
        match func.str "name" with
        | some name => if s.toolName.isNone then { s with toolName := some name } else s
        | none => s
      match func.str "arguments" with
      | some frag => { s with toolArgs := s.toolArgs ++ frag }
      | none => s

/-- The usage of an event, where it has one. -/
def usageOf (s : OpenAiStreamState) (v : Value) : OpenAiStreamState :=
  match v.get "usage" with
  | some u =>
    { s with
      promptTokens := (u.u64 "prompt_tokens").getD s.promptTokens
      completionTokens := (u.u64 "completion_tokens").getD s.completionTokens }
  | none => s

/-- The delta of an event. -/
def delta (s : OpenAiStreamState) (delta : Value) : OpenAiStreamState × Option Text :=
  let s := ((delta.list "tool_calls").getD []).foldl call s
  let t := (delta.str "content").getD []
  if t.isEmpty then (s, none) else ({ s with text := s.text ++ t }, some t)

/-- `OpenAiStreamState::feed`. -/
def feed (σ : Serde) (s : OpenAiStreamState) (ev : SseEvent) : OpenAiStreamState × Option Text :=
  let data := trim ev.data
  if data = "[DONE]" then (s, none)
  else
    match σ.fromStr data with
    | .error _ => (s, none)
    | .ok v =>
      match v.get "error" with
      | some err => ({ s with error := some (σ.apiErrorMessage err) }, none)
      | none =>
        let s := s.usageOf v
        match (firstChoice v).bind (Value.get "delta") with
        | none => (s, none)
        | some d => s.delta d

def tokens (s : OpenAiStreamState) : UInt64 := s.promptTokens + s.completionTokens

def finishStep (σ : Serde) (s : OpenAiStreamState) : Except Text (LlmStep × UInt64) :=
  match s.error with
  | some e => .error e
  | none =>
    match s.toolName with
    | some name => .ok (.toolCall name (σ.args s.toolArgs), s.tokens)
    | none => .ok (.final s.text, s.tokens)

def finishText (s : OpenAiStreamState) : Except Text (Text × UInt64) :=
  match s.error with
  | some e => .error e
  | none => .ok (s.text, s.tokens)

end OpenAiStreamState

/-- The dialect of `OpenAIProvider`. -/
def dialect (σ : Serde) : Dialect where
  State := OpenAiStreamState
  start := .default
  feed := OpenAiStreamState.feed σ
  failed s := s.error.isSome

/-! ## Messages and their documents -/

/-- A message: its content, its calls, each with its name and the text of its arguments, and its
usage. -/
structure Message where
  content : Option Text
  calls : List (Text × Text)
  prompt : Option UInt64
  completion : Option UInt64

/-- A value is the call. -/
def IsCall (v : Value) (c : Text × Text) : Prop :=
  ∃ func, v.get "function" = some func ∧ func.str "name" = some c.1 ∧
    func.str "arguments" = some c.2

/-- A text is read as the message. -/
structure IsDocument (σ : Serde) (m : Message) (doc : Text) : Prop where
  read : ∃ v, σ.fromStr doc = .ok v ∧ v.get "error" = none ∧
    (∃ message, openaiMessage v = some message ∧ message.str "content" = m.content ∧
      Forall₂ IsCall ((message.list "tool_calls").getD []) m.calls) ∧
    (v.get "usage").bind (Value.u64 "prompt_tokens") = m.prompt ∧
    (v.get "usage").bind (Value.u64 "completion_tokens") = m.completion

/-- A text is read as an error of the API. -/
def IsError (σ : Serde) (err : Value) (doc : Text) : Prop :=
  ∃ v, σ.fromStr doc = .ok v ∧ v.get "error" = some err

/-! ## What the events of a stream say -/

/-- A piece of the call with an index: its name, or some of its arguments, or both. -/
structure Frag where
  index : UInt64
  name : Option Text
  args : Option Text

/-- What an event says: some of the content, pieces of calls, and what it tells of the usage. -/
structure Piece where
  content : Option Text
  frags : List Frag
  prompt : Option UInt64
  completion : Option UInt64

namespace Piece

def nothing : Piece := ⟨none, [], none, none⟩

end Piece

/-- A value is the piece of a call. -/
def IsFrag (v : Value) (f : Frag) : Prop :=
  (v.u64 "index").getD 0 = f.index ∧
    (v.get "function").bind (Value.str "name") = f.name ∧
    (v.get "function").bind (Value.str "arguments") = f.args

/-- A value says it. -/
def Piece.IsIn (v : Value) (p : Piece) : Prop :=
  v.get "error" = none ∧
    (v.get "usage").bind (Value.u64 "prompt_tokens") = p.prompt ∧
    (v.get "usage").bind (Value.u64 "completion_tokens") = p.completion ∧
    match (firstChoice v).bind (Value.get "delta") with
    | none => p.content = none ∧ p.frags = []
    | some d => d.str "content" = p.content ∧
        Forall₂ IsFrag ((d.list "tool_calls").getD []) p.frags

/-- An event says it.  The last one of a stream, and what is no JSON, says nothing. -/
def Tells (σ : Serde) (ev : SseEvent) (p : Piece) : Prop :=
  (p = .nothing ∧ (trim ev.data = "[DONE]" ∨ ∃ e, σ.fromStr (trim ev.data) = .error e)) ∨
    ∃ v, trim ev.data ≠ "[DONE]" ∧ σ.fromStr (trim ev.data) = .ok v ∧ p.IsIn v

/-- An event carries an error of the API. -/
def TellsError (σ : Serde) (ev : SseEvent) (err : Value) : Prop :=
  ∃ v, trim ev.data ≠ "[DONE]" ∧ σ.fromStr (trim ev.data) = .ok v ∧
    v.get "error" = some err

/-- The pieces of the arguments of a call, joined. -/
def argsOf (i : UInt64) (frags : List Frag) : Text :=
  (frags.filter fun f => f.index = i).flatMap fun f => f.args.getD []

/-- What some events say is a message: the pieces of the content are the content; each piece of a
call has the place of the call as its index, some piece has the name of the call and none another
name, and the pieces of its arguments are its arguments; what is told last of the usage is the
usage. -/
structure Sends (m : Message) (ps : List Piece) : Prop where
  content : ps.flatMap (fun p => p.content.getD []) = m.content.getD []
  indices : ∀ f ∈ ps.flatMap Piece.frags, ∃ i : Nat, i < m.calls.length ∧ f.index = .ofNat i
  few : m.calls.length ≤ UInt64.size
  named : ∀ i c, m.calls[i]? = some c → ∃ f ∈ ps.flatMap Piece.frags, f.index = .ofNat i ∧
    f.name = some c.1
  name : ∀ i c, m.calls[i]? = some c → ∀ f ∈ ps.flatMap Piece.frags, f.index = .ofNat i →
    ∀ n, f.name = some n → n = c.1
  args : ∀ i c, m.calls[i]? = some c → argsOf (.ofNat i) (ps.flatMap Piece.frags) = c.2
  prompt : lastOf (ps.map Piece.prompt) = m.prompt
  completion : lastOf (ps.map Piece.completion) = m.completion

/-! ## What the state makes of it -/

namespace OpenAiStreamState

/-- What a piece of a call does. -/
def frag (s : OpenAiStreamState) (f : Frag) : OpenAiStreamState :=
  if f.index ≠ 0 then s
  else
    { s with
      toolName := s.toolName.or f.name
      toolArgs := s.toolArgs ++ f.args.getD [] }

/-- What an event that says something does. -/
def onto (s : OpenAiStreamState) (p : Piece) : OpenAiStreamState × Option Text :=
  let s := p.frags.foldl frag
    { s with
      promptTokens := p.prompt.getD s.promptTokens
      completionTokens := p.completion.getD s.completionTokens }
  let t := p.content.getD []
  if t.isEmpty then (s, none) else ({ s with text := s.text ++ t }, some t)

theorem call_of_isFrag {v : Value} {f : Frag} (h : IsFrag v f) (s : OpenAiStreamState) :
    s.call v = s.frag f := by
  obtain ⟨hindex, hname, hargs⟩ := h
  rw [call, frag, hindex]
  split
  · rfl
  · cases hfunc : v.get "function" with
    | none =>
      rw [hfunc, bind_none] at hname hargs
      rw [← hname, ← hargs, or_none, getD_none, append_nil]
    | some func =>
      rw [hfunc, bind_some] at hname hargs
      dsimp only
      rw [hname, hargs]
      obtain ⟨text, toolName, toolArgs, promptTokens, completionTokens, error⟩ := s
      cases f.name with
      | none =>
        rw [or_none]
        cases f.args with
        | none => rw [getD_none, append_nil]
        | some frag => rfl
      | some name =>
        cases toolName with
        | none | some other =>
          cases f.args with
          | none =>
            rw [getD_none, append_nil]
            rfl
          | some frag => rfl

theorem foldl_call_of_isFrag {vs : List Value} {fs : List Frag} (h : Forall₂ IsFrag vs fs)
    (s : OpenAiStreamState) : vs.foldl call s = fs.foldl frag s := by
  induction h generalizing s with
  | nil => rfl
  | cons hvf _ ih => rw [foldl_cons, foldl_cons, call_of_isFrag hvf, ih]

theorem usageOf_eq (s : OpenAiStreamState) (v : Value) : s.usageOf v =
    { s with
      promptTokens := ((v.get "usage").bind
        (Value.u64 "prompt_tokens")).getD s.promptTokens
      completionTokens := ((v.get "usage").bind
        (Value.u64 "completion_tokens")).getD s.completionTokens } := by
  rw [usageOf]
  cases v.get "usage" with
  | none | some u => rfl

theorem feed_of_tells {σ : Serde} {ev : SseEvent} {p : Piece} (h : Tells σ ev p)
    (s : OpenAiStreamState) : s.feed σ ev = s.onto p := by
  rcases h with ⟨rfl, hdone | ⟨e, he⟩⟩ | ⟨v, hdone, hv, herror, hprompt, hcompletion, hdelta⟩
  · rw [feed, if_pos hdone]
    rfl
  · rw [feed, he]
    split <;> rfl
  · rw [feed, if_neg hdone, hv]
    dsimp only
    rw [herror]
    dsimp only
    rw [usageOf_eq, hprompt, hcompletion, onto]
    cases hd : (firstChoice v).bind (Value.get "delta") with
    | none =>
      rw [hd] at hdelta
      rw [hdelta.1, hdelta.2]
      rfl
    | some d =>
      rw [hd] at hdelta
      dsimp only
      rw [delta, hdelta.1, foldl_call_of_isFrag hdelta.2]

/-- The name of the first call. -/
def nameOf (i : UInt64) (frags : List Frag) : Option Text :=
  ((frags.filter fun f => f.index = i).filterMap Frag.name).head?

theorem nameOf_cons (i : UInt64) (f : Frag) (fs : List Frag) :
    nameOf i (f :: fs) = if f.index = i then f.name.or (nameOf i fs) else nameOf i fs := by
  rw [nameOf]
  by_cases h : f.index = i
  · rw [filter_cons, if_pos (decide_eq_true h), if_pos h]
    cases hn : f.name with
    | none =>
      rw [filterMap_cons_none hn]
      rfl
    | some n =>
      rw [filterMap_cons_some hn]
      rfl
  · rw [filter_cons, if_neg fun hd => h (of_decide_eq_true hd), if_neg h]
    rfl

theorem argsOf_cons (i : UInt64) (f : Frag) (fs : List Frag) :
    argsOf i (f :: fs) = if f.index = i then f.args.getD [] ++ argsOf i fs else argsOf i fs := by
  rw [argsOf]
  by_cases h : f.index = i
  · rw [filter_cons, if_pos (decide_eq_true h), if_pos h, flatMap_cons]
    rfl
  · rw [filter_cons, if_neg fun hd => h (of_decide_eq_true hd), if_neg h]
    rfl

theorem foldl_frag (s : OpenAiStreamState) (fs : List Frag) :
    fs.foldl frag s =
      { s with
        toolName := s.toolName.or (nameOf 0 fs)
        toolArgs := s.toolArgs ++ argsOf 0 fs } := by
  induction fs generalizing s with
  | nil =>
    rw [show nameOf 0 [] = none from rfl, show argsOf 0 [] = [] from rfl, or_none, append_nil]
    rfl
  | cons f fs ih =>
    rw [foldl_cons, ih, frag, nameOf_cons, argsOf_cons]
    by_cases h : f.index = 0
    · rw [if_neg (not_not.mpr h), if_pos h, if_pos h]
      simp only [Option.or_assoc, append_assoc]
    · rw [if_pos h, if_neg h, if_neg h]

/-- The events in turn. -/
def run (s : OpenAiStreamState) (ps : List Piece) : OpenAiStreamState × List Text :=
  Feed.ofStep (fun s p => ((s.onto p).1, (s.onto p).2.toList)) s ps

theorem run_cons (s : OpenAiStreamState) (p : Piece) (ps : List Piece) :
    s.run (p :: ps) = (((s.onto p).1.run ps).1, (s.onto p).2.toList ++ ((s.onto p).1.run ps).2) :=
  rfl

theorem onto_eq (s : OpenAiStreamState) (p : Piece) :
    (s.onto p).1 =
      { text := s.text ++ p.content.getD []
        toolName := s.toolName.or (nameOf 0 p.frags)
        toolArgs := s.toolArgs ++ argsOf 0 p.frags
        promptTokens := p.prompt.getD s.promptTokens
        completionTokens := p.completion.getD s.completionTokens
        error := s.error } ∧
      (s.onto p).2.toList.flatten = p.content.getD [] := by
  rw [onto, foldl_frag]
  dsimp only
  cases p.content.getD [] with
  | nil =>
    rw [isEmpty_nil, if_pos rfl, append_nil]
    exact ⟨rfl, rfl⟩
  | cons c t =>
    rw [isEmpty_cons, if_neg Bool.false_ne_true]
    exact ⟨rfl, append_nil _⟩

theorem nameOf_append (i : UInt64) (fs fs' : List Frag) :
    nameOf i (fs ++ fs') = (nameOf i fs).or (nameOf i fs') := by
  rw [nameOf, filter_append, filterMap_append, head?_append]
  rfl

theorem argsOf_append (i : UInt64) (fs fs' : List Frag) :
    argsOf i (fs ++ fs') = argsOf i fs ++ argsOf i fs' := by
  rw [argsOf, filter_append, flatMap_append]
  rfl

theorem run_eq (s : OpenAiStreamState) (ps : List Piece) :
    (s.run ps).1 =
      { text := s.text ++ ps.flatMap fun p => p.content.getD []
        toolName := s.toolName.or (nameOf 0 (ps.flatMap Piece.frags))
        toolArgs := s.toolArgs ++ argsOf 0 (ps.flatMap Piece.frags)
        promptTokens := (lastOf (ps.map Piece.prompt)).getD s.promptTokens
        completionTokens := (lastOf (ps.map Piece.completion)).getD s.completionTokens
        error := s.error } ∧
      (s.run ps).2.flatten = ps.flatMap fun p => p.content.getD [] := by
  induction ps generalizing s with
  | nil =>
    simp only [flatMap_nil, append_nil, map_nil, lastOf_nil, getD_none]
    rw [show nameOf 0 [] = none from rfl, show argsOf 0 [] = [] from rfl, or_none, append_nil]
    exact ⟨rfl, rfl⟩
  | cons p ps ih =>
    obtain ⟨hstate, hout⟩ := ih (s.onto p).1
    obtain ⟨honto, hdelta⟩ := onto_eq s p
    rw [run_cons, flatten_append, hstate, hout, hdelta, honto]
    simp only [flatMap_cons, append_assoc, nameOf_append, argsOf_append, Option.or_assoc, map_cons,
      lastOf_cons_getD, and_self]

end OpenAiStreamState

/-! ## What a message says of its stream -/

section Sent

variable {σ : Serde} {m : Message} {ps : List Piece}

open OpenAiStreamState

theorem nameOf_frags (h : Sends m ps) :
    nameOf 0 (ps.flatMap Piece.frags) = m.calls.head?.map Prod.fst := by
  cases hcalls : m.calls with
  | nil =>
    have hnone : ps.flatMap Piece.frags = [] := by
      rw [eq_nil_iff_forall_not_mem]
      intro f hf
      obtain ⟨i, hi, -⟩ := h.indices f hf
      rw [hcalls] at hi
      exact absurd hi (Nat.not_lt_zero i)
    rw [hnone]
    rfl
  | cons c calls =>
    have hfirst : m.calls[0]? = some c := by
      rw [hcalls]
      rfl
    obtain ⟨f, hf, hindex, hname⟩ := h.named 0 c hfirst
    rw [nameOf, head?_cons, map_some]
    have hall : ∀ n ∈ ((ps.flatMap Piece.frags).filter fun f => f.index = 0).filterMap Frag.name,
        n = c.1 := by
      intro n hn
      obtain ⟨f, hf, hfn⟩ := mem_filterMap.mp hn
      obtain ⟨hf, hi⟩ := mem_filter.mp hf
      exact h.name 0 c hfirst f hf (of_decide_eq_true hi) n hfn
    have hmem : c.1 ∈
        ((ps.flatMap Piece.frags).filter fun f => f.index = 0).filterMap Frag.name :=
      mem_filterMap.mpr ⟨f, mem_filter.mpr ⟨hf, decide_eq_true hindex⟩, hname⟩
    obtain ⟨n, rest, hrest⟩ := exists_cons_of_ne_nil (ne_nil_of_mem hmem)
    rw [hrest, head?_cons, hall n (hrest ▸ mem_cons_self)]

theorem run_of_sends (h : Sends m ps) :
    (OpenAiStreamState.default.run ps).1.finishStep σ = .ok (match m.calls.head? with
      | some c => .toolCall c.1 (σ.args c.2)
      | none => .final (m.content.getD []), m.prompt.getD 0 + m.completion.getD 0) ∧
      (OpenAiStreamState.default.run ps).1.finishText =
        .ok (m.content.getD [], m.prompt.getD 0 + m.completion.getD 0) := by
  rw [(run_eq _ _).1, h.content, h.prompt, h.completion, nameOf_frags h]
  refine ⟨?_, rfl⟩
  cases hcalls : m.calls with
  | nil => rfl
  | cons c calls =>
    have hfirst : m.calls[0]? = some c := by
      rw [hcalls]
      rfl
    have hargs := h.args 0 c hfirst
    change argsOf 0 _ = _ at hargs
    rw [hargs]
    rfl

end Sent

/-! ## What a document says -/

section Document

variable {σ : Serde} {m : Message} {doc : Text}

theorem parseOpenai_of_isDocument (h : IsDocument σ m doc) :
    ∃ message, parseOpenai σ doc = .ok (message, m.prompt.getD 0 + m.completion.getD 0) ∧
      contentOf message = m.content.getD [] ∧
      Forall₂ IsCall ((message.list "tool_calls").getD []) m.calls := by
  obtain ⟨v, hv, herror, ⟨message, hmessage, hcontent, hcalls⟩, hprompt, hcompletion⟩ := h.read
  refine ⟨message, ?_, by rw [contentOf, hcontent], hcalls⟩
  rw [parseOpenai, hv]
  dsimp only
  rw [herror, hmessage, openaiTokens]
  dsimp only
  rw [hprompt, hcompletion]

theorem parseOpenaiStep_of_isDocument (h : IsDocument σ m doc) :
    parseOpenaiStep σ doc = .ok (match m.calls.head? with
      | some c => .toolCall c.1 (σ.args c.2)
      | none => .final (m.content.getD []), m.prompt.getD 0 + m.completion.getD 0) := by
  obtain ⟨message, hparse, hcontent, hcalls⟩ := parseOpenai_of_isDocument h
  rw [parseOpenaiStep, hparse]
  dsimp only
  rw [hcontent]
  generalize message.list "tool_calls" = list at hcalls
  cases hm : m.calls with
  | nil =>
    rw [hm] at hcalls
    obtain hnil := forall₂_nil_right_iff.mp hcalls
    cases list with
    | none => rfl
    | some l =>
      obtain rfl : l = [] := hnil
      rfl
  | cons c calls =>
    rw [hm] at hcalls
    obtain ⟨v, vs, ⟨func, hfunc, hname, hargs⟩, -, hlist⟩ := forall₂_cons_right_iff.mp hcalls
    cases list with
    | none => cases hlist
    | some l =>
      obtain rfl : l = v :: vs := hlist
      rw [bind_some, head?_cons, bind_some, hfunc]
      dsimp only
      rw [hname, hargs]
      rfl

theorem parseOpenaiText_of_isDocument (h : IsDocument σ m doc) :
    parseOpenaiText σ doc =
      .ok (m.content.getD [], m.prompt.getD 0 + m.completion.getD 0) := by
  obtain ⟨message, hparse, hcontent, -⟩ := parseOpenai_of_isDocument h
  rw [parseOpenaiText, hparse]
  dsimp only
  rw [hcontent]

theorem parseOpenai_of_isError {err : Value} (h : IsError σ err doc) :
    parseOpenai σ doc = .error (σ.apiErrorMessage err) := by
  obtain ⟨v, hv, herror⟩ := h
  rw [parseOpenai, hv]
  dsimp only
  rw [herror]

end Document

end Synsema.Llm.OpenAi
