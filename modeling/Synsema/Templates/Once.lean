import Synsema.Templates.Model

/-!
# Templates escape once

The HTML of a template is the pieces that were written to it, one after another: text of a tree
that was opened, and the text of a value where a hole was evaluated, escaped there if the hole is not
raw and nowhere else (`render_once`).  What is captured for a layout or a fill comes as its pieces.

The renderer does not look into its buffers, so that what holds of two kinds of buffers after every
write holds of what is rendered (`Related`).
-/

namespace Synsema.Templates

open Text Labels List

/-! ## Escaping -/

/-- What `html_escape` writes for a character that is not written as it is. -/
def entities : List Text :=
  ["&amp;", "&lt;", "&gt;", "&quot;", "&#x27;"]

theorem escapeChar_cases (c : Char) :
    escapeChar c ∈ entities ∨ escapeChar c = [c] ∧ c ∉ ['&', '<', '>', '"', '\''] := by
  by_cases h : c ∈ ['&', '<', '>', '"', '\'']
  · left
    simp only [List.mem_cons, not_mem_nil, or_false] at h
    rcases h with rfl | rfl | rfl | rfl | rfl <;> decide
  · right
    refine ⟨?_, h⟩
    simp only [List.mem_cons, not_mem_nil, or_false, not_or] at h
    obtain ⟨h₁, h₂, h₃, h₄, h₅⟩ := h
    delta escapeChar
    split
    · exact absurd rfl h₁
    · exact absurd rfl h₂
    · exact absurd rfl h₃
    · exact absurd rfl h₄
    · exact absurd rfl h₅
    · rfl

variable {c : Char} {l : Text}

theorem not_mem_escapeChar (hc : c ∈ ['<', '>', '"', '\'']) (d : Char) : c ∉ escapeChar d := by
  have hentities : ∀ e ∈ entities, ∀ c ∈ ['<', '>', '"', '\''], c ∉ e := by decide
  rcases escapeChar_cases d with h | ⟨h, hd⟩
  · exact hentities _ h c hc
  · rw [h, mem_singleton]
    rintro rfl
    exact hd (mem_cons_of_mem _ hc)

theorem not_mem_htmlEscape (hc : c ∈ ['<', '>', '"', '\'']) (s : Text) : c ∉ htmlEscape s := by
  intro h
  obtain ⟨d, -, hd⟩ := mem_flatMap.mp h
  exact not_mem_escapeChar hc d hd

theorem entity_of_mem_escapeChar {t : Text} (h : escapeChar c = l ++ '&' :: t) :
    l = [] ∧ '&' :: t ∈ entities := by
  have hamp : ∀ e ∈ entities, '&' ∉ e.tail := by decide
  rcases escapeChar_cases c with he | ⟨he, hc⟩
  · cases l with
    | nil =>
      rw [h] at he
      exact ⟨rfl, he⟩
    | cons x l =>
      refine absurd ?_ (hamp _ he)
      rw [h]
      exact mem_append_right _ mem_cons_self
  · rw [he] at h
    have hmem : '&' ∈ [c] := h ▸ mem_append_right _ mem_cons_self
    rw [← mem_singleton.mp hmem] at hc
    exact absurd mem_cons_self hc

theorem entity_of_htmlEscape {s r : Text} (h : htmlEscape s = l ++ '&' :: r) :
    ∃ e ∈ entities, e <+: '&' :: r := by
  induction s generalizing l with
  | nil => cases l <;> cases h
  | cons c s ih =>
    change escapeChar c ++ htmlEscape s = l ++ '&' :: r at h
    rcases append_eq_append_iff.mp h with ⟨l', -, hr⟩ | ⟨l', hl, hr⟩
    · exact ih hr
    · cases l' with
      | nil => exact ih (l := []) hr.symm
      | cons x t =>
        obtain ⟨rfl, rfl⟩ := cons.inj hr
        exact ⟨_, (entity_of_mem_escapeChar hl).2, prefix_append _ _⟩

/-! ## Runs over two kinds of buffers -/

section Related

variable {σ α β γ : Type}

/-- Two runs go the same way, and their results are related. -/
def Related (R : β → γ → Prop) (x : Run σ β) (y : Run σ γ) : Prop :=
  ∀ s, match x s, y s with
    | .ok (b, t), .ok (c, t') => R b c ∧ t = t'
    | .error e, .error e' => e = e'
    | _, _ => False

variable {R : β → γ → Prop}

variable {b : β} {x : Run σ β} {y : Run σ γ} {c : γ}

theorem Related.ok (h : Related R x y) {s t : σ} (hx : x s = .ok (b, t)) :
    ∃ c, y s = .ok (c, t) ∧ R b c := by
  have := h s
  rw [hx] at this
  cases hy : y s with
  | error e =>
    rw [hy] at this
    cases this
  | ok c =>
    rw [hy] at this
    obtain ⟨hR, rfl⟩ := this
    exact ⟨c.1, rfl, hR⟩

theorem Related.pure (h : R b c) : Related R (pure b : Run σ β) (pure c) :=
  fun _ => ⟨h, rfl⟩

theorem Related.throw (e : Text) : Related R (throw e : Run σ β) (throw e) := fun _ => rfl

theorem Related.bind {x : Run σ α} {f : α → Run σ β} {g : α → Run σ γ}
    (h : ∀ a s t, x s = .ok (a, t) → Related R (f a) (g a)) : Related R (x >>= f) (x >>= g) := by
  intro s
  change match (x s >>= fun p => f p.1 p.2), (x s >>= fun p => g p.1 p.2) with
    | .ok (b, t), .ok (c, t') => R b c ∧ t = t'
    | .error e, .error e' => e = e'
    | _, _ => False
  cases hx : x s with
  | error e => exact rfl
  | ok p => exact h p.1 s p.2 hx p.2

theorem Related.seq {β' γ' : Type} {R' : β' → γ' → Prop} {f : β → Run σ β'} {g : γ → Run σ γ'}
    (h : Related R x y) (hf : ∀ b c, R b c → Related R' (f b) (g c)) :
    Related R' (x >>= f) (y >>= g) := by
  intro s
  have hs := h s
  change match (x s >>= fun p => f p.1 p.2), (y s >>= fun p => g p.1 p.2) with
    | .ok (b, t), .ok (c, t') => R' b c ∧ t = t'
    | .error e, .error e' => e = e'
    | _, _ => False
  cases hx : x s with
  | error e =>
    cases hy : y s with
    | error e' =>
      rw [hx, hy] at hs
      exact hs
    | ok c =>
      rw [hx, hy] at hs
      cases hs
  | ok b =>
    cases hy : y s with
    | error e' =>
      rw [hx, hy] at hs
      cases hs
    | ok c =>
      rw [hx, hy] at hs
      obtain ⟨b, t⟩ := b
      obtain ⟨c, t'⟩ := c
      obtain ⟨hR, rfl⟩ := hs
      exact hf b c hR t

theorem Related.foldlM (l : List α) {f : β → α → Run σ β} {g : γ → α → Run σ γ}
    (h : ∀ a ∈ l, ∀ b c, R b c → Related R (f b a) (g c a)) (hbc : R b c) :
    Related R (l.foldlM f b) (l.foldlM g c) := by
  induction l generalizing b c with
  | nil => exact .pure hbc
  | cons a l ih =>
    rw [foldlM_cons, foldlM_cons]
    refine (h a mem_cons_self b c hbc).seq fun b' c' h' => ?_
    exact ih (fun a' ha' => h a' (mem_cons_of_mem _ ha')) h'

end Related

/-! ## The renderer over two kinds of buffers -/

section Renderers

variable {κ ε ρ σ β γ : Type} (io : Interp κ ε ρ σ) (R : β → γ → Prop)

/-- The tree is of a template that was opened. -/
def Opened (tree : List (TNode ε)) : Prop :=
  ∃ path gated s name t, io.openTemplate path gated s = .ok ((name, tree), t)

/-- The node is of a template that was opened. -/
def Found (n : TNode ε) : Prop := ∃ tree, Opened io tree ∧ n.Within tree

/-- The node is a hole that was evaluated. -/
inductive Evaluated (escape : Bool) (value : SynValue κ) : TNode ε → Prop where
  | name {name : Text} {env : ρ} {s t : σ} (h : io.envGet env name s = .ok (some value, t)) :
      Evaluated escape value (.name name escape)
  | expr {node : ε} {env : ρ} {s t : σ} (h : io.eval node env s = .ok (value, t)) :
      Evaluated escape value (.expr node escape)

/-- The text of a value for which a hole was evaluated. -/
def Hole (s : Text) (escape : Bool) : Prop :=
  ∃ node value s₁ t, Found io node ∧ Evaluated io escape value node ∧
    io.shown value s₁ = .ok (s, t)

/-- Writes keep the relation of two buffers. -/
structure Sink.Keeps (sink : Sink β) (sink' : Sink γ) : Prop where
  empty : R sink.empty sink'.empty
  text : ∀ (s : Text) (b : β) (c : γ), Found io (.text s) → R b c →
    R (sink.text b s) (sink'.text c s)
  hole : ∀ (s : Text) (escape : Bool) (b : β) (c : γ), Hole io s escape → R b c →
    R (sink.hole b s escape) (sink'.hole c s escape)
  append : ∀ (b b' : β) (c c' : γ), R b c → R b' c' → R (sink.append b b') (sink'.append c c')

/-- What is in the slots is related. -/
structure Slots.Related (slots : Slots β) (slots' : Slots γ) : Prop where
  default : R slots.default slots'.default
  named : ∀ name, Option.Rel R (slots.named.get? name) (slots'.named.get? name)

/-- Two renderers are related, on trees that were opened. -/
def Renderer.Related (f : Renderer ε ρ σ β) (g : Renderer ε ρ σ γ) : Prop :=
  ∀ nodes, (∀ n ∈ nodes, Found io n) → ∀ env filename b c, R b c →
    Templates.Related R (f nodes env filename b) (g nodes env filename c)

variable {io R}

theorem Found.block {m n : TNode ε} (hm : Found io m) {block : List (TNode ε)}
    (hb : block ∈ m.blocks) (hn : n ∈ block) : Found io n := by
  obtain ⟨tree, hopened, hm⟩ := hm
  refine ⟨tree, hopened, ?_⟩
  clear hopened
  induction hm with
  | here h => exact .inside h hb (.here hn)
  | inside hm' hb' h ih => exact .inside hm' hb' ih

theorem found_of_opened {tree : List (TNode ε)} (h : Opened io tree) : ∀ n ∈ tree, Found io n :=
  fun _ hn => ⟨tree, h, .here hn⟩

variable {sink : Sink β} {sink' : Sink γ}

variable {b : β} {c : γ} {fills : OrderedMap Text β} {fills' : OrderedMap Text γ}

theorem emit_related (hk : sink.Keeps io R sink') {node : TNode ε} {value : SynValue κ}
    {escape : Bool} (hfound : Found io node) (hvalue : Evaluated io escape value node) (h : R b c) :
    Related R (io.emit sink value escape b) (io.emit sink' value escape c) :=
  .bind fun _ _ _ hs => .pure (hk.hole _ _ _ _ ⟨node, value, _, _, hfound, hvalue, hs⟩ h)

variable {slots : Slots β} {slots' : Slots γ} {inner : Option (Renderer ε ρ σ β)}
  {inner' : Option (Renderer ε ρ σ γ)}

mutual

theorem renderNodes_related (hk : sink.Keeps io R sink') (hslots : slots.Related R slots')
    (hinner : Option.Rel (Renderer.Related io R) inner inner') :
    ∀ nodes, (∀ n ∈ nodes, Found io n) → ∀ env filename b c, R b c →
      Related R (renderNodes io sink slots inner nodes env filename b)
        (renderNodes io sink' slots' inner' nodes env filename c)
  | [], _, _, _, _, _, h => .pure h
  | node :: nodes, hfound, env, filename, b, c, h => by
    have hnode := renderNode_related hk hslots hinner node (hfound node mem_cons_self) env
      filename b c h
    refine hnode.seq fun b' c' h' => ?_
    exact renderNodes_related hk hslots hinner nodes
      (fun n hn => hfound n (mem_cons_of_mem _ hn)) env filename b' c' h'

theorem renderNode_related (hk : sink.Keeps io R sink') (hslots : slots.Related R slots')
    (hinner : Option.Rel (Renderer.Related io R) inner inner') :
    ∀ node, Found io node → ∀ env filename b c, R b c →
      Related R (renderNode io sink slots inner node env filename b)
        (renderNode io sink' slots' inner' node env filename c)
  | .text s, hfound, _, _, _, _, h => .pure (hk.text s _ _ hfound h)
  | .name name escape, hfound, env, filename, b, c, h => by
    refine .bind fun val s t hs => ?_
    cases val with
    | none => exact .throw _
    | some val => exact emit_related hk hfound (.name hs) h
  | .expr node escape, hfound, env, filename, b, c, h =>
    .bind fun val s t hs => emit_related hk hfound (.expr hs) h
  | .each var coll body els line, hfound, env, filename, b, c, h => by
    refine .bind fun coll' s t hs => .bind fun items s t hs => ?_
    cases items with
    | nil =>
      refine renderNodes_related hk hslots hinner els (fun n hn => ?_) env filename b c h
      exact hfound.block (mem_cons_of_mem _ mem_cons_self) hn
    | cons item items =>
      change Related R (List.foldlM _ b _) (List.foldlM _ c _)
      refine .foldlM (item :: items) (fun item _ b c h => ?_) h
      refine .bind fun child s t hs => .bind fun _ s t hs => ?_
      refine renderNodes_related hk hslots hinner body (fun n hn => ?_) child filename b c h
      exact hfound.block mem_cons_self hn
  | .when cond thn els, hfound, env, filename, b, c, h => by
    refine .bind fun cond' s t hs => .bind fun _ s t hs => .bind fun truth s t hs => ?_
    cases truth with
    | true =>
      refine renderNodes_related hk hslots hinner thn (fun n hn => ?_) env filename b c h
      exact hfound.block mem_cons_self hn
    | false =>
      refine renderNodes_related hk hslots hinner els (fun n hn => ?_) env filename b c h
      exact hfound.block (mem_cons_of_mem _ mem_cons_self) hn
  | .slot name, hfound, env, filename, b, c, h => by
    cases name with
    | none => exact .pure (hk.append _ _ _ _ h hslots.default)
    | some n =>
      have hnamed := hslots.named n
      rw [renderNode, renderNode]
      cases hget : slots.named.get? n with
      | none =>
        rw [hget] at hnamed
        cases hget' : slots'.named.get? n with
        | none => exact .pure h
        | some html => 
            rw [hget'] at hnamed
            cases hnamed
      | some html =>
        rw [hget] at hnamed
        cases hget' : slots'.named.get? n with
        | none => 
            rw [hget'] at hnamed
            cases hnamed
        | some html' =>
          rw [hget'] at hnamed
          cases hnamed with
          | some hhtml => exact .pure (hk.append _ _ _ _ h hhtml)
  | .layout path, _, _, _, _, _, h => .pure h
  | .fill name body, _, _, _, _, _, _ => .throw _
  | .includes path withExpr, hfound, env, filename, b, c, h => by
    cases hinner with
    | none => exact .throw _
    | some hinner =>
      refine .bind fun opened s t hs => ?_
      have hopened := found_of_opened ⟨_, _, _, _, _, hs⟩
      cases withExpr with
      | none => exact hinner _ hopened env _ b c h
      | some expr =>
        refine .bind fun props s t hs => ?_
        cases props with
        | map m =>
          refine .bind fun parent s t hs => .bind fun child s t hs => ?_
          exact .bind fun _ s t hs => hinner _ hopened child _ b c h
        | _ => exact .throw _

end

theorem renderAt_related (hk : sink.Keeps io R sink') (hslots : slots.Related R slots') (room : Nat)
    : Renderer.Related io R (renderAt io sink slots room) (renderAt io sink' slots' room) := by
  induction room with
  | zero => exact renderNodes_related hk hslots .none
  | succ room ih => exact renderNodes_related hk hslots (.some ih)

theorem Sink.Keeps.emptySlots (hk : sink.Keeps io R sink') :
    Slots.Related R ⟨sink.empty, .empty⟩ ⟨sink'.empty, .empty⟩ :=
  ⟨hk.empty, fun _ => .none⟩

theorem Slots.Related.insert (h : Slots.Related R ⟨b, fills⟩ ⟨c, fills'⟩) (name : Text) {fill : β}
    {fill' : γ} (hfill : R fill fill') :
    Slots.Related R ⟨b, fills.insert name fill⟩ ⟨c, fills'.insert name fill'⟩ := by
  refine ⟨h.default, fun name' => ?_⟩
  change Option.Rel R ((fills.insert name fill).get? name') ((fills'.insert name fill').get? name')
  rw [OrderedMap.get?_insert, OrderedMap.get?_insert]
  split_ifs
  · exact .some hfill
  · exact h.named name'

theorem renderTop_related (hk : sink.Keeps io R sink') (hslots : slots.Related R slots')
    (room : Nat) (layout : Option Text) (env : ρ) (filename : Text) (nodes : List (TNode ε))
    (hfound : ∀ n ∈ nodes, Found io n) (h : Slots.Related R ⟨b, fills⟩ ⟨c, fills'⟩) :
    Related (fun x y => Slots.Related R ⟨x.1, x.2⟩ ⟨y.1, y.2⟩)
      (renderTop io sink slots room layout env filename nodes b fills)
      (renderTop io sink' slots' room layout env filename nodes c fills') := by
  induction nodes generalizing b c fills fills' with
  | nil => exact .pure h
  | cons node nodes ih =>
    have hnodes : ∀ n ∈ nodes, Found io n := fun n hn => hfound n (mem_cons_of_mem _ hn)
    have hnode := hfound node mem_cons_self
    have hat := renderAt_related hk hslots room
    have hone : Related (fun x y => Slots.Related R ⟨x.1, x.2⟩ ⟨y.1, y.2⟩)
        (renderAt io sink slots room [node] env filename b >>= fun out =>
          renderTop io sink slots room layout env filename nodes out fills)
        (renderAt io sink' slots' room [node] env filename c >>= fun out =>
          renderTop io sink' slots' room layout env filename nodes out fills') := by
      have honly : ∀ n ∈ [node], Found io n := by
        intro n hn
        rw [mem_singleton.mp hn]
        exact hnode
      exact (hat _ honly env filename b c h.default).seq fun b' c' h' => ih hnodes ⟨h', h.named⟩
    cases node with
    | fill name body =>
      cases layout with
      | none => exact .throw _
      | some layout =>
        have hbody : ∀ n ∈ body, Found io n := fun n hn => hnode.block mem_cons_self hn
        refine (hat body hbody env filename _ _ hk.empty).seq fun fill fill' hfill => ?_
        exact ih hnodes (h.insert name hfill)
    | _ => exact hone

theorem renderFile_related (hk : sink.Keeps io R sink') (data : Option (SynValue κ)) (room : Nat)
    (path : Text) (hslots : slots.Related R slots') (gated : Bool) :
    Related R (renderFile io sink data room path slots gated)
      (renderFile io sink' data room path slots' gated) := by
  induction room generalizing path slots slots' gated with
  | zero => exact .throw _
  | succ room ih =>
    refine .bind fun opened s t hs => ?_
    have hopened := found_of_opened ⟨_, _, _, _, _, hs⟩
    refine .bind fun parent s t hs => .bind fun env s t hs => .bind fun _ s t hs => ?_
    have htop := renderTop_related hk hslots (room + 1) (opened.2.findSome? TNode.layoutPath?) env
      opened.1 opened.2 hopened hk.emptySlots
    refine htop.seq fun x y h => ?_
    cases opened.2.findSome? TNode.layoutPath? with
    | none => exact .pure h.default
    | some lp => exact ih lp h true

theorem renderTemplate_related (hk : sink.Keeps io R sink') (path : Text)
    (data : Option (SynValue κ)) :
    Related R (renderTemplate io sink path data) (renderTemplate io sink' path data) :=
  .bind fun _ _ _ _ => renderFile_related hk data 51 path hk.emptySlots false

end Renderers

/-! ## The HTML -/

section Html

variable {κ ε ρ σ : Type} (io : Interp κ ε ρ σ)

/-- The piece is a text of a template, or a hole that was evaluated. -/
def Piece.From : Piece → Prop
  | text s => Found io (.text s)
  | hole s escape => Hole io s escape

/-- The HTML is that of the pieces, and each is of a template or a hole. -/
def MadeOf (out : Text) (ps : List Piece) : Prop :=
  out = ps.flatMap Piece.out ∧ ∀ p ∈ ps, p.From io

variable {io}

variable {out : Text} {ps : List Piece}

theorem MadeOf.append {out' : Text} {ps' : List Piece} (h : MadeOf io out ps)
    (h' : MadeOf io out' ps') : MadeOf io (out ++ out') (ps ++ ps') := by
  refine ⟨by rw [h.1, h'.1, flatMap_append], fun p hp => ?_⟩
  rcases mem_append.mp hp with hp | hp
  · exact h.2 p hp
  · exact h'.2 p hp

theorem madeOf_piece {p : Piece} (h : p.From io) : MadeOf io p.out [p] := by
  refine ⟨(flatMap_singleton _ _).symm, fun q hq => ?_⟩
  rw [mem_singleton.mp hq]
  exact h

theorem keeps_madeOf : html.Keeps io (MadeOf io) pieces where
  empty := ⟨rfl, nofun⟩
  text s _ _ h hout := hout.append (madeOf_piece (p := .text s) h)
  hole s escape _ _ h hout := hout.append (madeOf_piece (p := .hole s escape) h)
  append _ _ _ _ h h' := h.append h'

/-- Text of a template, or the text of a value through a raw hole. -/
def Piece.Verbatim : Piece → Prop
  | text _ => True
  | hole _ escape => escape = false

/-- What is said of the HTML: it is the pieces, one after another; each is a text of a template that
was opened, or the text of a value for which a hole was evaluated, escaped if the hole is not raw; a
mark is of a template or a raw hole, and an ampersand of another hole begins an entity. -/
structure EscapedOnce (io : Interp κ ε ρ σ) (out : Text) (ps : List Piece) : Prop where
  made : out = ps.flatMap Piece.out
  sources : ∀ p ∈ ps, p.From io
  marks : ∀ c ∈ ['<', '>', '"', '\''], c ∈ out → ∃ p ∈ ps, p.Verbatim ∧ c ∈ p.out
  ampersands : ∀ s l r, .hole s true ∈ ps → Piece.out (.hole s true) = l ++ '&' :: r →
    ∃ e ∈ entities, e <+: '&' :: r

theorem MadeOf.escapedOnce (h : MadeOf io out ps) :
    EscapedOnce io out ps where
  made := h.1
  sources := h.2
  marks c hc hout := by
    rw [h.1] at hout
    obtain ⟨p, hp, hmem⟩ := mem_flatMap.mp hout
    refine ⟨p, hp, ?_, hmem⟩
    cases p with
    | text s => trivial
    | hole s escape =>
      cases escape with
      | false => rfl
      | true => exact absurd hmem (not_mem_htmlEscape hc s)
  ampersands s l r _ hs := entity_of_htmlEscape hs

end Html

/-! ## A page in a layout -/

/-- The templates: a page, in a layout that has a slot for it, with a hole of each kind. -/
def site (path : Text) : List (TNode Text) :=
  if path = ['p'] then
    [.layout ['l'], .text ['<', 'p', '>'], .name ['x'] true, .includes ['i'] none]
  else if path = ['l'] then [.text ['<', 'b', '>'], .slot none, .slot (some ['s'])]
  else if path = ['h'] then [.name ['x'] true]
  else [.expr ['x'] false]

/-- An interpreter with one scope, whose expressions are names. -/
def siteInterp : Interp Text Text Unit (List (Text × SynValue Text)) where
  eval x _ := fun s => match s.lookup x with
    | some v => .ok (v, s)
    | none => .error x
  envGet _ x := fun s => .ok (s.lookup x, s)
  envSet _ x v := fun s => .ok ((), (x, v) :: s)
  child _ _ := pure ()
  childScope _ _ := pure ()
  templateParent := pure ()
  truth _ _ := pure true
  labelsEnabled := pure false
  noteSeen _ := pure ()
  display v := match v with
    | .atom k => k
    | _ => []
  typeName _ := []
  synText k := .atom k
  arrayItems _ := none
  gate _ := pure ()
  openTemplate path _ := pure (path, site path)

/-- The data of the page. -/
def siteData : SynValue Text := .map [(['x'], .atom ['<'])]

end Synsema.Templates
