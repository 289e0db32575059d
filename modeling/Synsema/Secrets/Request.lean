import Synsema.Secrets.Outgoing
import Synsema.Lib.Journal

/-!
# What a request carries

A request is its URL and, in any order, query parameters, headers and bodies (`assemble`).  What its
functions take from secrets, they take through `admit`: in the terms of `Journal`, each of them is
careful (`careful_assembleParts`), so that the request depends on the secrets that were admitted
alone, each of which was allowed to go where the request goes.
-/

namespace Synsema.Secrets

open Text Capscope Capability Bytesutil List
open Except (bind_eq_ok)

namespace Outgoing

/-- May a secret go out with the request, in a header or elsewhere? -/
def Allowed (o : Outgoing) (e : SecretInner × Bool) : Prop :=
  match e.1.bound with
  | none => e.2 = true
  | some b => o.goesTo b = true ∧ o.safe = true

/-- A request takes more secrets, each of which it may, and stays where it goes. -/
structure Grows (o : Outgoing) (new : List (SecretInner × Bool)) (o' : Outgoing) : Prop where
  scheme : o'.scheme = o.scheme
  dest : o'.dest = o.dest
  host : o'.host = o.host
  admitted : o'.admitted = o.admitted ++ new
  allowed : ∀ e ∈ new, o.Allowed e
  names : ∀ n, n ∈ o'.names ↔ n ∈ o.names ∨ ∃ e ∈ new, n ∈ e.1.names

theorem Allowed.congr {o o' : Outgoing} {e : SecretInner × Bool} (hscheme : o'.scheme = o.scheme)
    (hdest : o'.dest = o.dest) (hhost : o'.host = o.host) (h : o'.Allowed e) : o.Allowed e := by
  unfold Allowed goesTo safe at h ⊢
  rwa [hscheme, hdest, hhost] at h

/-- What a request admits. -/
def journal : Journal Outgoing (SecretInner × Bool) where
  moves := Grows
  refl o :=
    { scheme := rfl
      dest := rfl
      host := rfl
      admitted := (append_nil _).symm
      allowed := fun _ he => nomatch he
      names := fun n => by simp }
  trans {o t r a b} h₁ h₂ :=
    { scheme := h₂.scheme.trans h₁.scheme
      dest := h₂.dest.trans h₁.dest
      host := h₂.host.trans h₁.host
      admitted := by rw [h₂.admitted, h₁.admitted, append_assoc]
      allowed := fun e he => by
        cases mem_append.mp he with
        | inl hea => exact h₁.allowed e hea
        | inr heb => exact (h₂.allowed e heb).congr h₁.scheme h₁.dest h₁.host
      names := fun n => by
        rw [h₂.names, h₁.names, or_assoc]
        simp only [mem_append, or_and_right, exists_or] }

/-- A computation on what a request carries is careful. -/
abbrev Careful {α : Type} (f : Material → Outgoing → Except Text (α × Outgoing)) : Prop :=
  journal.Careful Prod.fst f

theorem check_eq_ok {o : Outgoing} {s : SecretInner} {what : Text} {inHeader : Bool} :
    o.check s what inHeader = .ok () ↔ o.Allowed (s, inHeader) := by
  unfold check Allowed
  cases s.bound with
  | none => cases inHeader <;> cases s.fromConfig <;> simp
  | some b =>
    cases hto : o.goesTo b with
    | false => simp [hto]
    | true => cases o.safe <;> simp [hto]

theorem careful_admitSecret (s : SecretInner) (what : Text) (inHeader : Bool) :
    Careful fun ρ o => o.admitSecret ρ s what inHeader := by
  intro ρ o t o' h
  obtain ⟨⟨⟩, hcheck, h⟩ := bind_eq_ok.mp h
  obtain ⟨text, htext, h⟩ := bind_eq_ok.mp h
  cases h
  refine ⟨[(s, inHeader)], ⟨rfl, rfl, rfl, rfl, ?_, ?_⟩, fun ρ' hρ => ?_⟩
  · intro e he
    rw [mem_singleton.mp he]
    exact check_eq_ok.mp hcheck
  · intro n
    simp [mem_pushNew]
  · have hread : secretText ρ' s o.who what = .ok t := by
      rw [secretText_eq_ok, hρ _ (mem_singleton_self _)]
      exact secretText_eq_ok.mp htext
    exact bind_eq_ok.mpr ⟨(), hcheck, bind_eq_ok.mpr ⟨t, hread, rfl⟩⟩

end Outgoing

open Outgoing

/-! ## Careful functions -/

section Careful

variable (w : Writing)

mutual

theorem careful_materializeBody : ∀ v : Val, Careful fun ρ o => materializeBody ρ v o
  | Val.secret s => (careful_admitSecret s "the body" false).map Val.text
  | Val.list xs =>
    ((careful_materializeList xs).map Val.list).ite _ (Journal.Careful.pure (Val.list xs))
  | Val.map kvs =>
    ((careful_materializeMap kvs).map Val.map).ite _ (Journal.Careful.pure (Val.map kvs))
  | Val.nothing => Journal.Careful.pure Val.nothing
  | Val.text t => Journal.Careful.pure (Val.text t)
  | Val.number t => Journal.Careful.pure (Val.number t)
  | Val.bool b => Journal.Careful.pure (Val.bool b)
  | Val.bytes b => Journal.Careful.pure (Val.bytes b)
  | Val.labelled v => Journal.Careful.pure (Val.labelled v)
  | Val.other n t => Journal.Careful.pure (Val.other n t)

theorem careful_materializeList : ∀ xs : List Val, Careful fun ρ o => materializeList ρ xs o
  | [] => Journal.Careful.pure []
  | x :: xs => (careful_materializeBody x).bind fun y =>
      (careful_materializeList xs).map fun ys => y :: ys

theorem careful_materializeMap :
    ∀ kvs : List (Text × Val), Careful fun ρ o => materializeMap ρ kvs o
  | [] => Journal.Careful.pure []
  | (k, x) :: kvs => (careful_materializeBody x).bind fun y =>
      (careful_materializeMap kvs).map fun ys => (k, y) :: ys

end

theorem careful_edgeText (what : Text) (v : Val) :
    Careful fun _ o => v.edgeText w o.who what >>= fun t => .ok (t, o) := by
  intro ρ o t o' h
  obtain ⟨t', ht, h⟩ := bind_eq_ok.mp h
  cases h
  exact ⟨[], journal.refl o, fun _ _ => bind_eq_ok.mpr ⟨t, ht, rfl⟩⟩

theorem careful_fieldText (what : Text) (inHeader : Bool) (v : Val) :
    Careful fun ρ o => fieldText w ρ what inHeader v o := by
  cases v with
  | secret s => exact careful_admitSecret s what inHeader
  | _ => exact careful_edgeText w what _

theorem careful_fieldPairs (kind : Text) (inHeader : Bool) :
    ∀ kvs : List (Text × Val), Careful fun ρ o => fieldPairs w ρ kind inHeader kvs o
  | [] => Journal.Careful.pure []
  | (k, v) :: kvs => (careful_fieldText w (kind ++ w.debug k) inHeader v).bind fun t =>
      (careful_fieldPairs kind inHeader kvs).map fun pairs => (k, t) :: pairs

theorem careful_pairsTo (kind : Text) (inHeader : Bool) (v : Option Val) :
    Careful fun ρ o => pairsTo w ρ kind inHeader v o := by
  cases v with
  | none => exact Journal.Careful.pure none
  | some v =>
    cases v with
    | map kvs => exact (careful_fieldPairs w kind inHeader kvs).map some
    | _ => exact Journal.Careful.pure none

theorem careful_bodyArgTo (v : Option Val) : Careful fun ρ o => bodyArgTo w ρ v o := by
  cases v with
  | none => exact Journal.Careful.pure (none, none)
  | some v =>
    cases v with
    | nothing => exact Journal.Careful.pure (none, none)
    | text t => exact Journal.Careful.pure (some (utf8 t), none)
    | bytes b => exact Journal.Careful.pure (some b, none)
    | secret s =>
      exact (careful_admitSecret s "the body" false).map fun t => (some (utf8 t), none)
    | map kvs =>
      exact (careful_materializeBody (.map kvs)).map fun m =>
        (some (utf8 (w.dumpsSyn m)), some "application/json".toList)
    | list xs =>
      exact (careful_materializeBody (.list xs)).map fun m =>
        (some (utf8 (w.dumpsSyn m)), some "application/json".toList)
    | _ => exact Journal.Careful.pure (some _, none)

theorem careful_formBodyTo (v : Val) : Careful fun ρ o => formBodyTo w ρ v o := by
  cases v with
  | map kvs => exact (careful_fieldPairs w "form field " false kvs).map formText
  | _ => exact Journal.Careful.error (formError _)

end Careful

/-! ## Requests -/

/-- A part of a request, as the program gives it. -/
inductive Part where
  | query (v : Option Val)
  | headers (v : Option Val)
  | body (v : Option Val)
  | form (v : Val)

/-- A part of a request, as it goes out. -/
inductive Piece where
  | query (pairs : Option (List (Text × Text)))
  | headers (pairs : Option (List (Text × Text)))
  | body (content : Option Bytes) (contentType : Option Text)
  | form (content : Bytes)

/-- One part is assembled. -/
def assemblePart (w : Writing) (ρ : Material) : Part → Outgoing → Except Text (Piece × Outgoing)
  | .query v, o => do
    let (pairs, o) ← mapPairsTo w ρ v o
    return (.query pairs, o)
  | .headers v, o => do
    let (pairs, o) ← headerPairsTo w ρ v o
    return (.headers pairs, o)
  | .body v, o => do
    let (b, o) ← bodyArgTo w ρ v o
    return (.body b.1 b.2, o)
  | .form v, o => do
    let (b, o) ← formBodyTo w ρ v o
    return (.form b, o)

/-- The parts are assembled one after the other. -/
def assembleParts (w : Writing) (ρ : Material) : List Part → Outgoing →
    Except Text (List Piece × Outgoing)
  | [], o => .ok ([], o)
  | p :: ps, o => do
    let (piece, o) ← assemblePart w ρ p o
    let (pieces, o) ← assembleParts w ρ ps o
    return (piece :: pieces, o)

/-- A request that goes out. -/
structure Assembled where
  publicUrl : Text
  real : Text
  pieces : List Piece
  out : Outgoing

/-- A request is assembled: its URL first. -/
def assemble (w : Writing) (ρ : Material) (url : Val) (who : Text) (parts : List Part) :
    Except Text Assembled := do
  let (publicUrl, real, out) ← requestUrl w ρ url who
  let (pieces, out) ← assembleParts w ρ parts out
  return { publicUrl, real, pieces, out }

theorem careful_assemblePart (w : Writing) (p : Part) :
    Careful fun ρ o => assemblePart w ρ p o := by
  cases p with
  | query v => exact (careful_pairsTo w "query parameter " false v).map Piece.query
  | headers v => exact (careful_pairsTo w "header " true v).map Piece.headers
  | body v => exact (careful_bodyArgTo w v).map fun b => Piece.body b.1 b.2
  | form v => exact (careful_formBodyTo w v).map Piece.form

theorem careful_assembleParts (w : Writing) :
    ∀ ps : List Part, Careful fun ρ o => assembleParts w ρ ps o
  | [] => Journal.Careful.pure []
  | p :: ps => (careful_assemblePart w p).bind fun piece =>
      (careful_assembleParts w ps).map fun pieces => piece :: pieces

end Synsema.Secrets
