import Synsema.Llm.Anthropic
import Synsema.Llm.OpenAi

/-!
# A streamed answer and a plain one

A stream gives what the document of the same answer gives: the same step, text, tokens or error, and
the caller has been handed the text, wherever the bytes are cut into reads (`streamed_eq_plain`).  Of
the Anthropic dialect this asks that the texts come in the order of their blocks and that the first
call begins first; where two texts are mixed the stream gives another text (`not_streamed_eq_plain`).
-/

namespace Synsema.Llm

open Text Bytesutil Dialect List

/-- A stream gave what the document gives, and handed its text to the caller. -/
structure Agrees (step step' : Except Text (LlmStep × UInt64)) (text text' : Except Text (Text × UInt64))
    (chunks : List Text) : Prop where
  step : step = step'
  text : text = text'
  chunks : ∀ t n, text' = .ok (t, n) → chunks.flatten = t

namespace Anthropic

/-- An answer: a message, or an error of the API. -/
inductive Response where
  | message (m : Message)
  | error (err : Value)

/-- A text is read as the answer. -/
def Document (σ : Serde) : Response → Text → Prop
  | .message m, doc => IsDocument σ m doc
  | .error err, doc => IsError σ err doc

/-- Some events carry the answer, and say these pieces.  An error ends the answer, whatever came
before it and comes behind it. -/
def Sent (σ : Serde) (evs : List SseEvent) (ps : List Piece) : Response → Prop
  | .message m => Forall₂ (Tells σ) evs ps ∧ Sends σ m ps
  | .error err => ∃ before ev after, evs = before ++ ev :: after ∧
      Forall₂ (Tells σ) before ps ∧ TellsError σ ev err

/-- A message comes in order. -/
def Ordered (ps : List Piece) : Response → Prop
  | .message m => InOrder m ps
  | .error _ => True

/-- The reads of a stream give what the document gives. -/
def StreamsAs (σ : Serde) (reads : List Bytes) (doc : Text) : Prop :=
  let c : (dialect σ).Conn := stream always reads
  Agrees (AnthropicStreamState.finishStep σ c.state) (parseAnthropicStep σ doc)
    (AnthropicStreamState.finishText c.state) (parseAnthropicText σ doc) c.chunks

theorem takeEvents_of_tells {σ : Serde} {evs : List SseEvent} {ps : List Piece}
    (h : Forall₂ (Tells σ) evs ps) :
    takeEvents always (⟨.default, []⟩ : (dialect σ).Conn) evs =
      (⟨(AnthropicStreamState.default.run ps).1, (AnthropicStreamState.default.run ps).2⟩, true) := by
  refine takeEvents_steps (d := dialect σ) AnthropicStreamState.onto
    (fun s : AnthropicStreamState => s.error = none)
    (fun s _ _ _ ht => AnthropicStreamState.feed_of_tells ht s)
    (fun s p hs => (AnthropicStreamState.onto_error s p).trans hs) (fun s hs => ?_) h rfl
  exact congrArg Option.isSome hs

variable {σ : Serde} {frames : List Frame} {reads : List Bytes} {ps : List Piece} {doc : Text}

theorem streamsAs_message {m : Message} (hdoc : IsDocument σ m doc)
    (htells : Forall₂ (Tells σ) (frames.filterMap Frame.event?) ps) (hsends : Sends σ m ps)
    (hin : InOrder m ps) (hreads : reads.flatten = utf8 (wire frames)) : StreamsAs σ reads doc := by
  have hstream := stream_eq (d := dialect σ) always hreads
  rw [show (⟨(dialect σ).start, []⟩ : (dialect σ).Conn) = ⟨.default, []⟩ from rfl,
    takeEvents_of_tells htells] at hstream
  rw [StreamsAs, hstream]
  refine ⟨?_, ?_, fun t n ht => ?_⟩
  · exact (finishStep_run hsends hin).trans (parseAnthropicStep_of_isDocument hdoc).symm
  · exact (finishText_run hsends hin).trans (parseAnthropicText_of_isDocument hdoc).symm
  · rw [parseAnthropicText_of_isDocument hdoc] at ht
    obtain ⟨rfl, -⟩ := Prod.mk.inj (Except.ok.inj ht)
    exact (AnthropicStreamState.run_text _ _).2.trans (flatMap_text hsends hin)

theorem streamsAs_error {err : Value} {before after : List SseEvent} {ev : SseEvent}
    (hdoc : IsError σ err doc) (hevs : frames.filterMap Frame.event? = before ++ ev :: after)
    (htells : Forall₂ (Tells σ) before ps) (herr : TellsError σ ev err)
    (hreads : reads.flatten = utf8 (wire frames)) : StreamsAs σ reads doc := by
  obtain ⟨v, hv, hkind, hvalue⟩ := herr
  have hfeed : ∀ s : AnthropicStreamState,
      (dialect σ).feed s ev = ({ s with error := some (σ.apiErrorMessage err) }, none) := by
    intro s
    change s.feed σ ev = _
    rw [AnthropicStreamState.feed, hv]
    dsimp only
    rw [if_pos hkind, hvalue]
    rfl
  have hstream := stream_eq (d := dialect σ) always hreads
  rw [show (⟨(dialect σ).start, []⟩ : (dialect σ).Conn) = ⟨.default, []⟩ from rfl, hevs,
    takeEvents_append, takeEvents_of_tells htells] at hstream
  dsimp only at hstream
  rw [takeEvents_failed (hfeed _) rfl] at hstream
  have hparse := parseAnthropic_of_isError hdoc
  rw [StreamsAs, hstream]
  refine ⟨?_, ?_, fun t n ht => ?_⟩
  · rw [parseAnthropicStep, hparse]
    rfl
  · rw [parseAnthropicText, hparse]
    rfl
  · rw [parseAnthropicText, hparse] at ht
    cases ht

end Anthropic

namespace OpenAi

/-- An answer: a message, or an error of the API. -/
inductive Response where
  | message (m : Message)
  | error (err : Value)

/-- A text is read as the answer. -/
def Document (σ : Serde) : Response → Text → Prop
  | .message m, doc => IsDocument σ m doc
  | .error err, doc => IsError σ err doc

/-- Some events carry the answer, and say these pieces. -/
def Sent (σ : Serde) (evs : List SseEvent) (ps : List Piece) : Response → Prop
  | .message m => Forall₂ (Tells σ) evs ps ∧ Sends m ps
  | .error err => ∃ before ev after, evs = before ++ ev :: after ∧
      Forall₂ (Tells σ) before ps ∧ TellsError σ ev err

/-- The reads of a stream give what the document gives. -/
def StreamsAs (σ : Serde) (reads : List Bytes) (doc : Text) : Prop :=
  let c : (dialect σ).Conn := stream always reads
  Agrees (OpenAiStreamState.finishStep σ c.state) (parseOpenaiStep σ doc)
    (OpenAiStreamState.finishText c.state) (parseOpenaiText σ doc) c.chunks

theorem takeEvents_of_tells {σ : Serde} {evs : List SseEvent} {ps : List Piece}
    (h : Forall₂ (Tells σ) evs ps) :
    takeEvents always (⟨.default, []⟩ : (dialect σ).Conn) evs =
      (⟨(OpenAiStreamState.default.run ps).1, (OpenAiStreamState.default.run ps).2⟩, true) := by
  refine takeEvents_steps (d := dialect σ) OpenAiStreamState.onto
    (fun s : OpenAiStreamState => s.error = none)
    (fun s _ _ _ ht => OpenAiStreamState.feed_of_tells ht s)
    (fun s p hs => ?_) (fun s hs => ?_) h rfl
  · rw [(OpenAiStreamState.onto_eq s p).1]
    exact hs
  · exact congrArg Option.isSome hs

variable {σ : Serde} {frames : List Frame} {reads : List Bytes} {ps : List Piece} {doc : Text}

theorem streamsAs_message {m : Message} (hdoc : IsDocument σ m doc)
    (htells : Forall₂ (Tells σ) (frames.filterMap Frame.event?) ps) (hsends : Sends m ps)
    (hreads : reads.flatten = utf8 (wire frames)) : StreamsAs σ reads doc := by
  have hstream := stream_eq (d := dialect σ) always hreads
  rw [show (⟨(dialect σ).start, []⟩ : (dialect σ).Conn) = ⟨.default, []⟩ from rfl,
    takeEvents_of_tells htells] at hstream
  rw [StreamsAs, hstream]
  refine ⟨?_, ?_, fun t n ht => ?_⟩
  · exact (run_of_sends hsends).1.trans (parseOpenaiStep_of_isDocument hdoc).symm
  · exact (run_of_sends (σ := σ) hsends).2.trans (parseOpenaiText_of_isDocument hdoc).symm
  · rw [parseOpenaiText_of_isDocument hdoc] at ht
    obtain ⟨rfl, -⟩ := Prod.mk.inj (Except.ok.inj ht)
    exact (OpenAiStreamState.run_eq _ _).2.trans hsends.content

theorem streamsAs_error {err : Value} {before after : List SseEvent} {ev : SseEvent}
    (hdoc : IsError σ err doc) (hevs : frames.filterMap Frame.event? = before ++ ev :: after)
    (htells : Forall₂ (Tells σ) before ps) (herr : TellsError σ ev err)
    (hreads : reads.flatten = utf8 (wire frames)) : StreamsAs σ reads doc := by
  obtain ⟨v, hdone, hv, hvalue⟩ := herr
  have hfeed : ∀ s : OpenAiStreamState,
      (dialect σ).feed s ev = ({ s with error := some (σ.apiErrorMessage err) }, none) := by
    intro s
    change s.feed σ ev = _
    rw [OpenAiStreamState.feed, if_neg hdone, hv]
    dsimp only
    rw [hvalue]
    rfl
  have hstream := stream_eq (d := dialect σ) always hreads
  rw [show (⟨(dialect σ).start, []⟩ : (dialect σ).Conn) = ⟨.default, []⟩ from rfl, hevs,
    takeEvents_append, takeEvents_of_tells htells] at hstream
  dsimp only at hstream
  rw [takeEvents_failed (hfeed _) rfl] at hstream
  have hparse := parseOpenai_of_isError hdoc
  rw [StreamsAs, hstream]
  refine ⟨?_, ?_, fun t n ht => ?_⟩
  · rw [parseOpenaiStep, hparse]
    rfl
  · rw [parseOpenaiText, hparse]
    rfl
  · rw [parseOpenaiText, hparse] at ht
    cases ht

end OpenAi

/-! ## Sample documents -/

namespace Sample

/-- A value with the text it is read from. -/
abbrev Doc := Text × Value

/-- A text of plain characters. -/
def str (t : Text) : Doc := ('"' :: t ++ ['"'], .string t)

def num (n : Nat) : Doc := (digits n, .number (.posInt (.ofNat n)))

def arr (items : List Doc) : Doc :=
  ('[' :: join "," (items.map Prod.fst) ++ "]", .array (items.map Prod.snd))

def obj (entries : List (String × Doc)) : Doc :=
  ('\x7b' :: join "," (entries.map fun e => (str e.1.toList).1 ++ ':' :: e.2.1) ++ ['\x7d'],
    .object (entries.map fun e => (e.1.toList, e.2.2)))

/-- A reader that knows some documents. -/
def serde (docs : List Doc) (h : [] ∉ docs.map Prod.fst) : Serde where
  fromStr t :=
    match docs.find? fun d => d.1 = t with
    | some d => .ok d.2
    | none => .error "expected value at line 1 column 1"
  empty v hv := by
    split at hv
    · rename_i d hd
      have htext := find?_some hd
      exact h (mem_map.mpr ⟨d, mem_of_find?_eq_some hd, of_decide_eq_true htext⟩)
    · cases hv
  toText _ := []

/-- An event with some data. -/
def frame (d : Doc) (h : '\n' ∉ d.1 ∧ '\r' ∉ d.1) : Frame where
  lines := [(.data true d.1, false)]
  crlf := true
  ok l hl := by
    obtain rfl := mem_singleton.mp hl
    refine ⟨?_, ?_, rfl⟩
    · change '\n' ∉ "data: ".toList ++ d.1
      simp [h.1]
    · change '\r' ∉ "data: ".toList ++ d.1
      simp [h.2]

theorem event?_frame (d : Doc) (h : '\n' ∉ d.1 ∧ '\r' ∉ d.1) :
    (frame d h).event? = some ⟨none, d.1⟩ := by
  change some (SseEvent.mk none (join "\n" [d.1])) = _
  rw [join, intercalate_singleton]

/-- The beginning of a block of text. -/
def blockStart (i : Nat) : Doc :=
  obj [("type", str "content_block_start"), ("index", num i),
    ("content_block", obj [("type", str "text"), ("text", str [])])]

/-- A piece of text. -/
def textDelta (i : Nat) (t : Text) : Doc :=
  obj [("type", str "content_block_delta"), ("index", num i),
    ("delta", obj [("type", str "text_delta"), ("text", str t)])]

/-- A message of texts. -/
def texts (ts : List Text) : Doc :=
  obj [("type", str "message"), ("content", arr (ts.map fun t =>
    obj [("type", str "text"), ("text", str t)]))]

/-- A message of one text, and the piece of a stream that brings it. -/
def choice (key : String) (t : Text) : Doc :=
  obj [("choices", arr [obj [(key, obj [("content", str t)])]])]

variable {docs : List Doc} {h : [] ∉ docs.map Prod.fst}

theorem fromStr_of_mem (hdocs : (docs.map Prod.fst).Nodup) {d : Doc} (hd : d ∈ docs) :
    (serde docs h).fromStr d.1 = .ok d.2 := by
  have hfind : docs.find? (fun d' => d'.1 = d.1) = some d := by
    cases hf : docs.find? fun d' => d'.1 = d.1 with
    | none => exact absurd (decide_eq_true rfl) (find?_eq_none.mp hf d hd)
    | some d' =>
      have htext := find?_some hf
      rw [inj_on_of_nodup_map hdocs (mem_of_find?_eq_some hf) hd (of_decide_eq_true htext)]
  change (match docs.find? fun d' => d'.1 = d.1 with | some d => _ | none => _) = _
  rw [hfind]

theorem get_cons (k : String) (d : Doc) (entries : List (String × Doc)) (key : Text) :
    (obj ((k, d) :: entries)).2.get key =
      if k.toList = key then some d.2 else (obj entries).2.get key := by
  by_cases hk : k.toList = key
  · simp [obj, Value.get, hk]
  · simp [obj, Value.get, hk]

@[simp]
theorem str_snd (t : Text) : (str t).2 = .string t := rfl

@[simp]
theorem num_snd (n : Nat) : (num n).2 = .number (.posInt (.ofNat n)) := rfl

@[simp]
theorem arr_snd (items : List Doc) : (arr items).2 = .array (items.map Prod.snd) := rfl

@[simp]
theorem get_nil (key : Text) : (obj []).2.get key = none := rfl

variable {i : Nat} {t : Text}

theorem tells_blockStart (hdocs : (docs.map Prod.fst).Nodup) (hd : blockStart i ∈ docs) :
    Anthropic.Tells (serde docs h) ⟨none, (blockStart i).1⟩ (.start (.ofNat i) none) := by
  refine .inr ⟨(blockStart i).2, fromStr_of_mem hdocs hd, nofun, ?_⟩
  simp [Anthropic.Piece.IsIn, blockStart, Value.type, Value.str, Value.u64, get_cons, Value.asStr,
    Value.asU64]

theorem tells_textDelta (hdocs : (docs.map Prod.fst).Nodup) (hd : textDelta i t ∈ docs) :
    Anthropic.Tells (serde docs h) ⟨none, (textDelta i t).1⟩ (.text (.ofNat i) t) := by
  refine .inr ⟨(textDelta i t).2, fromStr_of_mem hdocs hd, nofun, ?_⟩
  simp [Anthropic.Piece.IsIn, textDelta, Value.type, Value.str, Value.u64, get_cons, Value.asStr,
    Value.asU64]

theorem isDocument_texts (hdocs : (docs.map Prod.fst).Nodup) (blocks : List (UInt64 × Text))
    (hd : texts (blocks.map Prod.snd) ∈ docs) :
    Anthropic.IsDocument (serde docs h) ⟨blocks.map fun b => (b.1, .text b.2), none, none⟩
      (texts (blocks.map Prod.snd)).1 := by
  refine ⟨(texts (blocks.map Prod.snd)).2, fromStr_of_mem hdocs hd, ?_⟩
  refine ⟨by simp [texts, get_cons], ⟨_, by simp only [texts, get_cons, Value.list]; rfl, ?_⟩,
    by simp [texts, get_cons], by simp [texts, get_cons]⟩
  rw [map_map]
  clear hd
  induction blocks with
  | nil => exact .nil
  | cons b blocks ih =>
    refine .cons ?_ ih
    simp [Anthropic.IsBlock, Value.type, Value.str, get_cons, Value.asStr]

theorem firstChoice_choice (key : String) (t : Text) :
    OpenAi.firstChoice (choice key t).2 = some (obj [(key, obj [("content", str t)])]).2 := by
  rw [OpenAi.firstChoice, choice, Value.list, get_cons, if_pos rfl]
  rfl

theorem get_content (t : Text) (key : Text) :
    (obj [("content", str t)]).2.get key =
      if "content" = key then some (.string t) else none := by
  rw [get_cons]
  rfl

theorem get_choice {key : String} {k : Text} (hk : k.head? ≠ some 'c') :
    (choice key t).2.get k = none := by
  have hne : "choices" ≠ k := fun he => hk (he ▸ rfl)
  rw [choice, get_cons, if_neg hne]
  rfl

theorem isDocument_choice (hdocs : (docs.map Prod.fst).Nodup) (hd : choice "message" t ∈ docs) :
    OpenAi.IsDocument (serde docs h) ⟨some t, [], none, none⟩ (choice "message" t).1 := by
  refine ⟨(choice "message" t).2, fromStr_of_mem hdocs hd, get_choice (by decide),
    ⟨(obj [("content", str t)]).2, ?_, ?_, ?_⟩, ?_, ?_⟩
  · rw [OpenAi.openaiMessage, firstChoice_choice, Option.bind_some, get_cons, if_pos rfl]
  · rw [Value.str, get_content, if_pos rfl]
    rfl
  · rw [Value.list, get_content, if_neg (by decide)]
    exact .nil
  · rw [get_choice (by decide)]
    rfl
  · rw [get_choice (by decide)]
    rfl

theorem tells_choice (hdocs : (docs.map Prod.fst).Nodup) (hd : choice "delta" t ∈ docs)
    (htrim : trim (choice "delta" t).1 = (choice "delta" t).1)
    (hdone : (choice "delta" t).1 ≠ "[DONE]") :
    OpenAi.Tells (serde docs h) ⟨none, (choice "delta" t).1⟩ ⟨some t, [], none, none⟩ := by
  refine .inr ⟨(choice "delta" t).2, ?_, ?_, get_choice (by decide), ?_, ?_, ?_⟩
  · rwa [htrim]
  · rw [htrim]
    exact fromStr_of_mem hdocs hd
  · rw [get_choice (by decide)]
    rfl
  · rw [get_choice (by decide)]
    rfl
  · rw [firstChoice_choice, Option.bind_some, get_cons, if_pos rfl]
    dsimp only
    rw [Value.str, Value.list, get_content, get_content, if_pos rfl, if_neg (by decide)]
    exact ⟨rfl, .nil⟩

end Sample

/-! ## Both dialects -/

/-- A stream gives what the document of the same answer gives, wherever its bytes are cut.  In the
Anthropic dialect the texts come in the order of their blocks, and the first call begins first. -/
theorem streamed_eq_plain (σ : Serde) (frames : List Frame) (reads : List Bytes) (doc : Text)
    (hreads : reads.flatten = utf8 (wire frames)) :
    (∀ r ps, Anthropic.Document σ r doc → Anthropic.Sent σ (frames.filterMap Frame.event?) ps r →
        Anthropic.Ordered ps r → Anthropic.StreamsAs σ reads doc) ∧
      ∀ r ps, OpenAi.Document σ r doc → OpenAi.Sent σ (frames.filterMap Frame.event?) ps r →
        OpenAi.StreamsAs σ reads doc := by
  constructor
  · intro r ps hdoc hsent hordered
    cases r with
    | message m => exact Anthropic.streamsAs_message hdoc hsent.1 hsent.2 hordered hreads
    | error err =>
      obtain ⟨before, ev, after, hevs, htells, herr⟩ := hsent
      exact Anthropic.streamsAs_error hdoc hevs htells herr hreads
  · intro r ps hdoc hsent
    cases r with
    | message m => exact OpenAi.streamsAs_message hdoc hsent.1 hsent.2 hreads
    | error err =>
      obtain ⟨before, ev, after, hevs, htells, herr⟩ := hsent
      exact OpenAi.streamsAs_error hdoc hevs htells herr hreads

/-- The message of some texts, each with its index. -/
def textMessage (blocks : List (UInt64 × Text)) : Anthropic.Message :=
  ⟨blocks.map fun b => (b.1, .text b.2), none, none⟩

/-- What the events of two texts say, where they are mixed. -/
def mixedPieces : List Anthropic.Piece :=
  [.start 0 none, .start 1 none, .text 0 ['a'], .text 1 ['c'], .text 0 ['b']]

theorem sends_mixed (σ : Serde) :
    Anthropic.Sends σ (textMessage [(0, ['a', 'b']), (1, ['c'])]) mixedPieces where
  indices := by decide
  starts i tool := by
    constructor
    · intro h
      simp only [mixedPieces, List.mem_cons, Anthropic.Piece.start.injEq, reduceCtorEq, not_mem_nil,
        or_false] at h
      rcases h with ⟨rfl, rfl⟩ | ⟨rfl, rfl⟩
      · exact ⟨_, .head _, rfl⟩
      · exact ⟨_, .tail _ (.head _), rfl⟩
    · rintro ⟨b, hb, hkind⟩
      simp only [textMessage, map_cons, map_nil, List.mem_cons, Prod.mk.injEq, not_mem_nil,
        or_false] at hb
      rcases hb with ⟨rfl, rfl⟩ | ⟨rfl, rfl⟩
      · obtain rfl := hkind
        exact .head _
      · obtain rfl := hkind
        exact .tail _ (.head _)
  first before i tool after h p hp := by
    rcases before with _ | ⟨p₀, _ | ⟨p₁, _ | ⟨p₂, _ | ⟨p₃, _ | ⟨p₄, _ | ⟨p₅, before⟩⟩⟩⟩⟩⟩ <;>
      simp [mixedPieces] at h
    · cases hp
    · obtain ⟨rfl, ⟨rfl, rfl⟩, rfl⟩ := h
      obtain rfl := mem_singleton.mp hp
      decide
  text i b hb := by
    simp only [textMessage, map_cons, map_nil, List.mem_cons, Prod.mk.injEq, not_mem_nil,
      or_false] at hb
    rcases hb with ⟨rfl, rfl⟩ | ⟨rfl, rfl⟩
    · rfl
    · rfl
  textBlocks := by decide
  input i name input h := by simp [textMessage] at h
  inputTokens := rfl
  outputTokens := rfl

namespace Sample

/-- The documents of the two texts. -/
def mixedDocs : List Doc :=
  [blockStart 0, blockStart 1, textDelta 0 ['a'], textDelta 1 ['c'], textDelta 0 ['b'],
    texts [['a', 'b'], ['c']]]

theorem nodup_mixedDocs : (mixedDocs.map Prod.fst).Nodup := by decide

theorem nil_notMem_mixedDocs : [] ∉ mixedDocs.map Prod.fst := by decide

/-- The events of the two texts, as they are sent. -/
def mixedFrames : List Frame :=
  [frame (blockStart 0) (by decide), frame (blockStart 1) (by decide),
    frame (textDelta 0 ['a']) (by decide), frame (textDelta 1 ['c']) (by decide),
    frame (textDelta 0 ['b']) (by decide)]

theorem tells_mixed : Forall₂ (Anthropic.Tells (serde mixedDocs nil_notMem_mixedDocs))
    (mixedFrames.filterMap Frame.event?) mixedPieces := by
  simp only [mixedFrames, filterMap_cons, event?_frame, filterMap_nil]
  have hnodup := nodup_mixedDocs
  exact .cons (tells_blockStart hnodup (.head _)) <|
    .cons (tells_blockStart hnodup (.tail _ (.head _))) <|
    .cons (tells_textDelta hnodup (.tail _ (.tail _ (.head _)))) <|
    .cons (tells_textDelta hnodup (.tail _ (.tail _ (.tail _ (.head _))))) <|
    .cons (tells_textDelta hnodup (.tail _ (.tail _ (.tail _ (.tail _ (.head _)))))) .nil

end Sample

open Sample in
/-- A stream that mixes two texts gives them mixed. -/
theorem not_streamed_eq_plain :
    ¬ ∀ (σ : Serde) (frames : List Frame) (reads : List Bytes) (doc : Text),
      reads.flatten = utf8 (wire frames) → ∀ r ps, Anthropic.Document σ r doc →
        Anthropic.Sent σ (frames.filterMap Frame.event?) ps r → Anthropic.StreamsAs σ reads doc := by
  intro h
  have hdoc := isDocument_texts (h := nil_notMem_mixedDocs) nodup_mixedDocs
    [(0, ['a', 'b']), (1, ['c'])] (.tail _ (.tail _ (.tail _ (.tail _ (.tail _ (.head _))))))
  have htext := (h _ mixedFrames [utf8 (wire mixedFrames)] _ (flatten_singleton)
    (.message _) mixedPieces hdoc ⟨tells_mixed, sends_mixed _⟩).text
  have hstream := stream_eq (d := Anthropic.dialect (serde mixedDocs nil_notMem_mixedDocs)) always
    (@List.flatten_singleton _ (utf8 (wire mixedFrames)))
  rw [show (⟨(Anthropic.dialect (serde mixedDocs nil_notMem_mixedDocs)).start, []⟩ :
      (Anthropic.dialect (serde mixedDocs nil_notMem_mixedDocs)).Conn) = ⟨.default, []⟩ from rfl,
    Anthropic.takeEvents_of_tells tells_mixed] at hstream
  rw [hstream, Anthropic.parseAnthropicText_of_isDocument hdoc] at htext
  exact absurd (congrArg Prod.fst (Except.ok.inj htext)) (by decide)

namespace Sample

/-- The documents of one text, in both dialects. -/
def plainDocs : List Doc :=
  [blockStart 0, textDelta 0 ['é'], texts [['é']], choice "delta" ['é'], choice "message" ['é']]

theorem nodup_plainDocs : (plainDocs.map Prod.fst).Nodup := by decide

theorem nil_notMem_plainDocs : [] ∉ plainDocs.map Prod.fst := by decide

/-- The reader of these documents. -/
abbrev plain : Serde := serde plainDocs nil_notMem_plainDocs

/-- The events of one text. -/
def plainFrames : List Frame :=
  [frame (blockStart 0) (by decide), frame (textDelta 0 ['é']) (by decide)]

/-- The event of one text in the other dialect. -/
def choiceFrames : List Frame := [frame (choice "delta" ['é']) (by decide)]

/-- Two reads of some events. -/
def twoReads (n : Nat) (frames : List Frame) : List Bytes :=
  [(utf8 (wire frames)).take n, (utf8 (wire frames)).drop n]

theorem flatten_twoReads (n : Nat) (frames : List Frame) :
    (twoReads n frames).flatten = utf8 (wire frames) := by
  rw [twoReads, flatten_cons, flatten_singleton, take_append_drop]

theorem sends_plain (σ : Serde) :
    Anthropic.Sends σ (textMessage [(0, ['é'])]) [.start 0 none, .text 0 ['é']] where
  indices := by decide
  starts i tool := by
    constructor
    · intro h
      simp only [List.mem_cons, Anthropic.Piece.start.injEq, reduceCtorEq, not_mem_nil,
        or_false] at h
      obtain ⟨rfl, rfl⟩ := h
      exact ⟨_, .head _, rfl⟩
    · rintro ⟨b, hb, hkind⟩
      simp only [textMessage, map_cons, map_nil, mem_singleton, Prod.mk.injEq] at hb
      obtain ⟨rfl, rfl⟩ := hb
      obtain rfl := hkind
      exact .head _
  first before i tool after h p hp := by
    rcases before with _ | ⟨p₀, _ | ⟨p₁, _ | ⟨p₂, before⟩⟩⟩ <;> simp at h
    cases hp
  text i b hb := by
    simp only [textMessage, map_cons, map_nil, mem_singleton, Prod.mk.injEq] at hb
    obtain ⟨rfl, rfl⟩ := hb
    rfl
  textBlocks := by decide
  input i name input h := by simp [textMessage] at h
  inputTokens := rfl
  outputTokens := rfl

theorem sends_choice (t : Text) :
    OpenAi.Sends ⟨some t, [], none, none⟩ [⟨some t, [], none, none⟩] where
  content := by
    rw [flatMap_singleton]
  indices f hf := by cases hf
  few := Nat.zero_le _
  named i c hc := by cases hc
  name i c hc := by cases hc
  args i c hc := by cases hc
  prompt := rfl
  completion := rfl

end Sample

open Sample in
theorem streamed_eq_plain_cut :
    Anthropic.StreamsAs plain (twoReads 175 plainFrames) (texts [['é']]).1 ∧
      OpenAi.StreamsAs plain (twoReads 40 choiceFrames) (choice "message" ['é']).1 := by
  constructor
  · refine (streamed_eq_plain plain plainFrames _ _ (flatten_twoReads _ _)).1 (.message _) _
      (isDocument_texts nodup_plainDocs [(0, ['é'])] (.tail _ (.tail _ (.head _))))
      ⟨?_, sends_plain _⟩ ⟨by decide, rfl⟩
    simp only [plainFrames, filterMap_cons, event?_frame, filterMap_nil]
    exact .cons (tells_blockStart nodup_plainDocs (.head _)) <|
      .cons (tells_textDelta nodup_plainDocs (.tail _ (.head _))) .nil
  · refine (streamed_eq_plain plain choiceFrames _ _ (flatten_twoReads _ _)).2 (.message _) _
      (isDocument_choice nodup_plainDocs (.tail _ (.tail _ (.tail _ (.tail _ (.head _))))))
      ⟨?_, sends_choice _⟩
    simp only [choiceFrames, filterMap_cons, event?_frame, filterMap_nil]
    exact .cons (tells_choice nodup_plainDocs (.tail _ (.tail _ (.tail _ (.head _))))
      (by decide) (by decide)) .nil

end Synsema.Llm
