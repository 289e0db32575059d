import Synsema.Capscope.Hosts
import Synsema.Lib.Except

/-!
# Secrets

`SecretInner` (`synsema-core/src/secret.rs`), and the secrets made of others: `+`
(`interpreter.rs`, `secret_concat`) and `derived_secret` (`synsema-stdlib/src/secrets.rs`), which
`bearer` and `basic` call.

What a secret holds is apart from it (`Material`), as everything but `secret_text` and `+` shows its
name alone.  A secret that is `Made` has origins, and goes only where each of them may
(`Origin.covers`); its public prefix is what its text begins with (`Made.text_eq`).
-/

namespace Synsema.Secrets

open Text Capscope List
open Except (bind_eq_ok)

/-- The elements of a list that a list does not contain yet, pushed in order. -/
def pushNew (out : List Text) (xs : List Text) : List Text :=
  xs.foldl (fun out x => if out.contains x then out else out ++ [x]) out

theorem mem_pushNew {out xs : List Text} {x : Text} : x ∈ pushNew out xs ↔ x ∈ out ∨ x ∈ xs := by
  induction xs generalizing out with
  | nil => simp [pushNew]
  | cons y xs ih =>
    have hstep : pushNew out (y :: xs) = pushNew (if out.contains y then out else out ++ [y]) xs :=
      rfl
    rw [hstep, ih]
    by_cases hy : y ∈ out
    · rw [if_pos (contains_iff_mem.mpr hy), List.mem_cons]
      constructor
      · rintro (h | h)
        · exact .inl h
        · exact .inr (.inr h)
      · rintro (h | rfl | h)
        · exact .inl h
        · exact .inl hy
        · exact .inr h
    · rw [if_neg (fun h => hy (contains_iff_mem.mp h)), mem_append, mem_singleton,
        List.mem_cons, or_assoc]

/-- A secret, without what it holds.  Of the texts of its parts only the names are read here. -/
structure SecretInner where
  id : Nat
  name : Text
  isSealed : Bool
  bound : Option (List Text)
  publicPrefix : Option Text
  parts : List Text
  fromConfig : Bool
deriving DecidableEq

/-- The text that each secret holds; none where it holds bytes that are no text. -/
abbrev Material := SecretInner → Option Text

/-- `expose_bytes_checked`, for a secret that is sealed. -/
def sealedError (who : Text) (s : SecretInner) : Text :=
  who ++ ": secret(" ++ s.name ++ ") is sealed: the attested identity key stays inside the process. It can be used for the ECDH handshake (and, inside the engine, for MAC/signature primitives that cannot reverse it); it is never exported, encrypted, derived, used as chain key material, or turned into a wallet"

def secretText (ρ : Material) (s : SecretInner) (who what : Text) : Except Text Text :=
  if s.isSealed then .error (sealedError who s)
  else
    match ρ s with
    | some t => .ok t
    | none => .error (who ++ ": " ++ what ++ " is secret(" ++ s.name ++
        "), which holds bytes that are not UTF-8 text; it cannot go out as text")

namespace SecretInner

/-- The names of `atoms`: its parts, or itself where it has a text. -/
def atoms (ρ : Material) (s : SecretInner) : List Text :=
  if s.parts ≠ [] then s.parts
  else if s.isSealed then []
  else if (ρ s).isSome then [s.name]
  else []

/-- The names of the secrets it is made of. -/
def names (s : SecretInner) : List Text := if s.parts = [] then [s.name] else pushNew [] s.parts

end SecretInner

/-! ## Where two secrets may both go -/

/-- The hosts of a list that a host of another covers. -/
def coveredBy (a b : List Text) : List Text := a.filter fun h => b.any fun p => boundHostCovers p h

def intersectBound (a b : List Text) : List Text := pushNew (pushNew [] (coveredBy a b)) (coveredBy b a)

variable {a b : List Text} {c : Option (List Text)} {ρ : Material} {s : SecretInner} {t : Text}

theorem mem_intersectBound {h : Text} :
    h ∈ intersectBound a b ↔
      (h ∈ a ∧ ∃ p ∈ b, boundHostCovers p h) ∨
        (h ∈ b ∧ ∃ p ∈ a, boundHostCovers p h) := by
  simp [intersectBound, mem_pushNew, coveredBy]

/-- Is a destination covered by one of the hosts? -/
def CoveredIn (hosts : List Text) (dest : Text) : Prop := ∃ p ∈ hosts, boundHostCovers p dest = true

variable {dest who n : Text} {o : SecretInner}

theorem CoveredIn.left (h : CoveredIn (intersectBound a b) dest) : CoveredIn a dest := by
  obtain ⟨p, hp, hdest⟩ := h
  rcases mem_intersectBound.mp hp with ⟨ha, -⟩ | ⟨-, q, hq, hcov⟩
  · exact ⟨p, ha, hdest⟩
  · exact ⟨q, hq, boundHostCovers_trans hcov hdest⟩

theorem CoveredIn.right (h : CoveredIn (intersectBound a b) dest) : CoveredIn b dest := by
  obtain ⟨p, hp, hdest⟩ := h
  rcases mem_intersectBound.mp hp with ⟨-, q, hq, hcov⟩ | ⟨hb, -⟩
  · exact ⟨q, hq, boundHostCovers_trans hcov hdest⟩
  · exact ⟨p, hb, hdest⟩

/-! ## `+` -/

/-- What is added to a secret: a secret, a value that joins as text, or one that does not. -/
inductive Operand where
  | secret (s : SecretInner)
  | plain (t : Text)
  | other (typeName : Text) (isNothing : Bool)

namespace Operand

/-- The secret, where it is one. -/
def secret? : Operand → Option SecretInner
  | .secret s => some s
  | .plain _ | .other _ _ => none

/-- How the other operand is called in an error. -/
def named : Operand → Text
  | .secret s => "secret(" ++ s.name ++ ")"
  | .plain _ | .other _ _ => "a secret"

/-- The text of an operand, and its name where it is a secret. -/
def part (ρ : Material) (v o : Operand) : Except Text (Text × Option Text) :=
  match v with
  | .secret s =>
    if s.isSealed then
      .error ("Cannot add secret(" ++ s.name ++
        "): it is sealed (the attested identity key never becomes text)")
    else
      match ρ s with
      | some t => .ok (t, some s.name)
      | none => .error ("Cannot add secret(" ++ s.name ++
          "): it holds bytes that are not UTF-8 text, and `+` joins text")
  | .plain t => .ok (t, none)
  | .other typeName isNothing =>
    .error ("Cannot add " ++ o.named ++ " and " ++ typeName ++
      " — convert it on purpose: text(x)" ++
      if isNothing then " (a missing env var or map key?)".toList else [])

/-- The names of the secrets it brings. -/
def atoms (ρ : Material) (o : Operand) : List Text := o.secret?.elim [] (SecretInner.atoms ρ)

end Operand

/-- The hosts of two bindings, or the error of two that have none in common. -/
def bothBound (clash : List Text → List Text → Text) :
    Option (List Text) → Option (List Text) → Except Text (Option (List Text))
  | some a, some b =>
    if intersectBound a b = [] then .error (clash a b) else .ok (some (intersectBound a b))
  | some a, none => .ok (some a)
  | none, b => .ok b

/-- The public text before the first secret. -/
def joinedPrefix (l r : Operand) (lp : Text) : Option Text :=
  match l.secret?, r.secret? with
  | some s, _ => s.publicPrefix
  | none, some s => some (lp ++ s.publicPrefix.getD [])
  | none, none => none

/-- Two secrets that no request can carry both. -/
def addClash (l r : Operand) (a b : List Text) : Text :=
  "Cannot add secret(" ++ l.secret?.elim [] SecretInner.name ++ ") and secret(" ++
    r.secret?.elim [] SecretInner.name ++ "): the first may only go to [" ++
    join ", " a ++ "], the second only to [" ++ join ", " b ++
    "] — no request can carry both"

/-- `secret_concat`: the secret, and the text it holds. -/
def secretConcat (ρ : Material) (id : Nat) (l r : Operand) : Except Text (SecretInner × Text) := do
  let (lp, ln) ← l.part ρ r
  let (rp, rn) ← r.part ρ l
  let bound ← bothBound (addClash l r) (l.secret?.bind SecretInner.bound)
    (r.secret?.bind SecretInner.bound)
  return ({ id
            name := (ln <|> rn).getD "derived"
            isSealed := false
            bound
            publicPrefix := joinedPrefix l r lp
            parts := l.atoms ρ ++ r.atoms ρ
            fromConfig := (l.secret?.toList ++ r.secret?.toList).all SecretInner.fromConfig },
          lp ++ rp)

/-! ## `derived_secret` -/

/-- Two sources that no request can carry both. -/
def sourceClash (who : Text) (prev now : List Text) : Text :=
  who ++ ": its secrets are bound to different hosts ([" ++ join ", " prev ++
    "] and [" ++ join ", " now ++ "]); no request can carry both"

/-- The hosts of the sources of a secret, one after the other. -/
def sourcesBound (who : Text) : Option (List Text) → List SecretInner →
    Except Text (Option (List Text))
  | b, [] => .ok b
  | b, s :: rest => do
    let next ← bothBound (sourceClash who) b s.bound
    sourcesBound who next rest

def derivedSecret (ρ : Material) (id : Nat) (name : Text) (sources : List SecretInner)
    (who : Text) : Except Text SecretInner := do
  let bound ← sourcesBound who none sources
  return { id
           name
           isSealed := false
           bound
           publicPrefix := none
           parts := sources.flatMap (SecretInner.atoms ρ)
           fromConfig := sources.all SecretInner.fromConfig }

/-! ## How secrets are made -/

/-- The secrets of a program: those it reads or seals, those it adds, and those `bearer` and `basic`
make of secrets whose text they read. -/
inductive Made (ρ : Material) : SecretInner → Prop where
  | origin {s : SecretInner} (hparts : s.parts = []) (hpre : s.publicPrefix = none) : Made ρ s
  | concat {s : SecretInner} {id : Nat} {l r : Operand} {t : Text}
      (h : secretConcat ρ id l r = .ok (s, t)) (hs : ρ s = some t)
      (hl : ∀ s', l = .secret s' → Made ρ s') (hr : ∀ s', r = .secret s' → Made ρ s') : Made ρ s
  | derived {s : SecretInner} {id : Nat} {name who : Text} {sources : List SecretInner}
      (h : derivedSecret ρ id name sources who = .ok s)
      (hsources : ∀ s' ∈ sources, Made ρ s') : Made ρ s

/-- The secrets a secret is made of, through any number of steps. -/
inductive Origin (ρ : Material) : SecretInner → SecretInner → Prop where
  | self {s : SecretInner} (hparts : s.parts = []) : Origin ρ s s
  | left {s s' o : SecretInner} {id : Nat} {r : Operand} {t : Text}
      (h : secretConcat ρ id (.secret s') r = .ok (s, t)) (ho : Origin ρ s' o) : Origin ρ s o
  | right {s s' o : SecretInner} {id : Nat} {l : Operand} {t : Text}
      (h : secretConcat ρ id l (.secret s') = .ok (s, t)) (ho : Origin ρ s' o) : Origin ρ s o
  | derived {s s' o : SecretInner} {id : Nat} {name who readWho what t : Text}
      {sources : List SecretInner} (h : derivedSecret ρ id name sources who = .ok s)
      (hs' : s' ∈ sources) (hread : secretText ρ s' readWho what = .ok t)
      (ho : Origin ρ s' o) : Origin ρ s o

/-! ## Bindings -/

/-- A binding goes nowhere that another does not go. -/
def Narrows (c a : Option (List Text)) : Prop :=
  ∀ ha, a = some ha → ∃ hc, c = some hc ∧ ∀ dest, CoveredIn hc dest → CoveredIn ha dest

theorem Narrows.refl (a : Option (List Text)) : Narrows a a := fun ha h => ⟨ha, h, fun _ => id⟩

theorem Narrows.none (c : Option (List Text)) : Narrows c none := fun _ h => nomatch h

theorem Narrows.trans {b a : Option (List Text)} (h₁ : Narrows c b) (h₂ : Narrows b a) :
    Narrows c a := by
  intro ha h
  obtain ⟨hb, hbound, hcov⟩ := h₂ ha h
  obtain ⟨hc, hcbound, hcov'⟩ := h₁ hb hbound
  exact ⟨hc, hcbound, fun dest hdest => hcov dest (hcov' dest hdest)⟩

theorem narrows_of_bothBound {clash : List Text → List Text → Text} {a b : Option (List Text)}
    (h : bothBound clash a b = .ok c) : Narrows c a ∧ Narrows c b := by
  cases a with
  | none =>
    cases h
    exact ⟨.none _, .refl _⟩
  | some a =>
    cases b with
    | none =>
      cases h
      exact ⟨.refl _, .none _⟩
    | some b =>
      simp only [bothBound] at h
      split at h
      · cases h
      · cases h
        constructor
        · rintro ha ⟨⟩
          exact ⟨_, rfl, fun _ hdest => hdest.left⟩
        · rintro hb ⟨⟩
          exact ⟨_, rfl, fun _ hdest => hdest.right⟩

theorem narrows_of_sourcesBound {sources : List SecretInner} {b : Option (List Text)}
    (h : sourcesBound who b sources = .ok c) : Narrows c b ∧ ∀ s ∈ sources, Narrows c s.bound := by
  induction sources generalizing b with
  | nil =>
    cases h
    exact ⟨.refl _, fun _ hs => nomatch hs⟩
  | cons s rest ih =>
    obtain ⟨next, hnext, hrest⟩ := bind_eq_ok.mp h
    obtain ⟨hc, hall⟩ := ih hrest
    have hboth := narrows_of_bothBound hnext
    refine ⟨hc.trans hboth.1, fun s' hs' => ?_⟩
    cases List.mem_cons.mp hs' with
    | inl heq => exact heq ▸ hc.trans hboth.2
    | inr hmem => exact hall s' hmem

/-! ## What `+` and `derived_secret` make -/

theorem secretConcat_eq_ok {id : Nat} {l r : Operand} (h : secretConcat ρ id l r = .ok (s, t)) :
    ∃ lp ln rp rn, l.part ρ r = .ok (lp, ln) ∧ r.part ρ l = .ok (rp, rn) ∧ t = lp ++ rp ∧
      s.publicPrefix = joinedPrefix l r lp ∧ s.parts = l.atoms ρ ++ r.atoms ρ ∧
      Narrows s.bound (l.secret?.bind SecretInner.bound) ∧
      Narrows s.bound (r.secret?.bind SecretInner.bound) := by
  obtain ⟨⟨lp, ln⟩, hl, h⟩ := bind_eq_ok.mp h
  obtain ⟨⟨rp, rn⟩, hr, h⟩ := bind_eq_ok.mp h
  obtain ⟨bound, hb, h⟩ := bind_eq_ok.mp h
  cases h
  obtain ⟨hnl, hnr⟩ := narrows_of_bothBound hb
  exact ⟨lp, ln, rp, rn, hl, hr, rfl, rfl, rfl, hnl, hnr⟩

theorem Operand.part_secret {o : Operand} {p : Text × Option Text}
    (h : (Operand.secret s).part ρ o = .ok p) : s.isSealed = false ∧ ρ s = some p.1 := by
  simp only [Operand.part] at h
  split at h
  · cases h
  · rename_i hsealed
    refine ⟨Bool.eq_false_iff.mpr hsealed, ?_⟩
    split at h
    · rename_i hρ
      cases h
      exact hρ
    · cases h

theorem secretText_eq_ok {what : Text} :
    secretText ρ s who what = .ok t ↔ s.isSealed = false ∧ ρ s = some t := by
  unfold secretText
  split
  · rename_i hsealed
    simp [hsealed]
  · rename_i hsealed
    cases ρ s <;> simp [Bool.eq_false_iff.mpr hsealed]

theorem SecretInner.mem_atoms (hsealed : s.isSealed = false) (ht : ρ s = some t) (hn : n ∈ s.names)
    : n ∈ s.atoms ρ := by
  unfold atoms
  unfold names at hn
  by_cases hparts : s.parts = []
  · rw [if_pos hparts] at hn
    simpa [hparts, hsealed, ht] using hn
  · rw [if_neg hparts, mem_pushNew] at hn
    simpa [hparts] using hn

theorem SecretInner.mem_names (hn : n ∈ s.parts) : n ∈ s.names := by
  rw [names, if_neg (ne_nil_of_mem hn), mem_pushNew]
  exact .inr hn

/-! ## Origins -/

theorem Origin.narrows (h : Origin ρ s o) : Narrows s.bound o.bound := by
  induction h with
  | self => exact .refl _
  | left h ho ih =>
    obtain ⟨lp, ln, rp, rn, -, -, -, -, -, hl, -⟩ := secretConcat_eq_ok h
    exact hl.trans ih
  | right h ho ih =>
    obtain ⟨lp, ln, rp, rn, -, -, -, -, -, -, hr⟩ := secretConcat_eq_ok h
    exact hr.trans ih
  | derived h hs' hread ho ih =>
    obtain ⟨bound, hb, h⟩ := bind_eq_ok.mp h
    cases h
    exact ((narrows_of_sourcesBound hb).2 _ hs').trans ih

theorem Origin.names (h : Origin ρ s o) : ∀ n ∈ o.names, n ∈ s.names := by
  induction h with
  | self => exact fun _ hn => hn
  | left h ho ih =>
    obtain ⟨lp, ln, rp, rn, hl, -, -, -, hparts, -, -⟩ := secretConcat_eq_ok h
    intro n hn
    obtain ⟨hsealed, hρ⟩ := Operand.part_secret hl
    apply SecretInner.mem_names
    rw [hparts]
    exact mem_append_left _ (SecretInner.mem_atoms hsealed hρ (ih n hn))
  | right h ho ih =>
    obtain ⟨lp, ln, rp, rn, -, hr, -, -, hparts, -, -⟩ := secretConcat_eq_ok h
    intro n hn
    obtain ⟨hsealed, hρ⟩ := Operand.part_secret hr
    apply SecretInner.mem_names
    rw [hparts]
    exact mem_append_right _ (SecretInner.mem_atoms hsealed hρ (ih n hn))
  | derived h hs' hread ho ih =>
    obtain ⟨bound, hb, h⟩ := bind_eq_ok.mp h
    cases h
    intro n hn
    obtain ⟨hsealed, hρ⟩ := secretText_eq_ok.mp hread
    apply SecretInner.mem_names
    exact mem_flatMap.mpr ⟨_, hs', SecretInner.mem_atoms hsealed hρ (ih n hn)⟩

theorem Made.text_eq (h : Made ρ s) {p : Text} (hp : s.publicPrefix = some p) (ht : ρ s = some t) :
    ∃ rest, t = p ++ rest := by
  induction h generalizing p t with
  | origin hparts hpre =>
    rw [hpre] at hp
    cases hp
  | derived h hsources ih =>
    obtain ⟨bound, hb, h⟩ := bind_eq_ok.mp h
    cases h
    cases hp
  | @concat s id l r t' h hs hl hr ihl ihr =>
    obtain ⟨lp, ln, rp, rn, hlp, hrp, rfl, hpre, -, -, -⟩ := secretConcat_eq_ok h
    rw [hs] at ht
    cases ht
    rw [hpre] at hp
    cases l with
    | secret sl =>
      obtain ⟨-, hρ⟩ := Operand.part_secret hlp
      obtain ⟨rest, rfl⟩ := ihl sl rfl hp hρ
      exact ⟨rest ++ rp, by rw [append_assoc]⟩
    | plain tl =>
      cases r with
      | secret sr =>
        obtain ⟨-, hρ⟩ := Operand.part_secret hrp
        cases hpre : sr.publicPrefix with
        | none =>
          simp only [joinedPrefix, Operand.secret?, hpre, Option.getD_none, append_nil,
            Option.some.injEq] at hp
          exact ⟨rp, by rw [hp]⟩
        | some q =>
          simp only [joinedPrefix, Operand.secret?, hpre, Option.getD_some, Option.some.injEq] at hp
          obtain ⟨rest, rfl⟩ := ihr sr rfl hpre hρ
          exact ⟨rest, by rw [← hp, append_assoc]⟩
      | plain tr | other n b => cases hp
    | other n b => cases hlp

end Synsema.Secrets
