import Synsema.Abi.Atomic
import Synsema.Eip712.Model
import Synsema.Lib.DepthFirst

/-!
# The text of a type

`collect` is a depth-first search along the references from struct to struct, and what `encode_type`
writes is read back to one list of definitions.
-/

namespace Synsema.Eip712

open Text List
open Abi hiding SynValue
open Blockchain (Stop)
open DepthFirst (Searched Visits)
open Relation (ReflTransGen TransGen)

section Search

variable {debug : Text → Text} {defs : StructDefs}

/-- The first struct has a field of the second, or of arrays of it. -/
def Refs (defs : StructDefs) (a b : Text) : Prop :=
  ∃ fields, defs.lookup a = some fields ∧ ∃ f ∈ fields, structRef f.2 = some b

/-- There is a struct of that name. -/
def Defined (defs : StructDefs) (name : Text) : Prop := (defs.lookup name).isSome = true

/-- What a search adds leads from where it began to structs that there are. -/
def Collects (defs : StructDefs) (seen stack : List Text) (B : Set Text) (seen' : List Text) :
    Prop :=
  Visits (Refs defs) seen stack B seen' ∧ ∀ a ∈ seen', a ∈ seen ∨ Defined defs a

/-- What `collect` does with a field of a struct that it has entered. -/
def collectField (debug : Text → Text) (defs : StructDefs) (levels : Nat) (name : Text)
    (stack seen : List Text) (f : Text × AbiType) : Except Stop (List Text) :=
  match structRef f.2 with
  | none => .ok seen
  | some r =>
    if (defs.lookup r).isSome then collect debug defs levels r seen (stack ++ [name])
    else fail (fname ++ ": type " ++ debug name ++
      " references undefined type " ++ debug r)

variable {levels : Nat} {name primary : Text} {seen stack seen' : List Text}

theorem collect_succ {fields : List (Text × AbiType)} (hstack : name ∉ stack) (hseen : name ∉ seen)
    (hfields : defs.lookup name = some fields) :
    collect debug defs (levels + 1) name seen stack =
      fields.foldlM (collectField debug defs levels name stack) (seen ++ [name]) := by
  rw [collect, if_neg hstack, if_neg hseen, hfields]
  rfl

variable {B : Set Text}

theorem Collects.of_done (h : Searched (Refs defs) seen stack)
    (hB : ∀ b ∈ B, DepthFirst.Done seen stack b) : Collects defs seen stack B seen :=
  ⟨.of_done h hB, fun _ ha => .inl ha⟩

theorem Collects.union {seen'' : List Text} {C : Set Text} (h : Collects defs seen stack B seen')
    (h' : Collects defs seen' stack C seen'') : Collects defs seen stack (B ∪ C) seen'' := by
  refine ⟨h.1.union h'.1, fun a ha => ?_⟩
  rcases h'.2 a ha with ha | ha
  · exact h.2 a ha
  · exact .inr ha

theorem collectField_ok
    {f : Text × AbiType}
    (ih : ∀ {r seen'}, Defined defs r →
      collect debug defs levels r seen (stack ++ [name]) = .ok seen' →
        Collects defs seen (stack ++ [name]) {r} seen')
    (h : Searched (Refs defs) seen (stack ++ [name]))
    (hrun : collectField debug defs levels name stack seen f = .ok seen') :
    Collects defs seen (stack ++ [name]) { b | structRef f.2 = some b } seen' := by
  rw [collectField] at hrun
  cases href : structRef f.2 with
  | none =>
    rw [href] at hrun
    cases hrun
    exact .of_done h nofun
  | some r =>
    rw [href] at hrun
    dsimp only at hrun
    by_cases hr : (defs.lookup r).isSome = true
    · rw [if_pos hr] at hrun
      have hset : { b | some r = some b } = ({r} : Set Text) := by
        ext b
        exact ⟨fun hb => (Option.some.inj hb).symm, fun hb => by rw [hb]; rfl⟩
      rw [hset]
      exact ih hr hrun
    · rw [if_neg hr] at hrun
      cases hrun

theorem collect_ok (hname : Defined defs name) (h : Searched (Refs defs) seen stack)
    (hrun : collect debug defs levels name seen stack = .ok seen') :
    Collects defs seen stack {name} seen' := by
  induction levels generalizing name seen stack seen' with
  | zero => cases hrun
  | succ levels ih =>
    by_cases hstack : name ∈ stack
    · rw [collect, if_pos hstack] at hrun
      cases hrun
    by_cases hseen : name ∈ seen
    · rw [collect, if_neg hstack, if_pos hseen] at hrun
      cases hrun
      refine .of_done h ?_
      rintro b rfl
      exact ⟨hseen, hstack⟩
    obtain ⟨fields, hfields⟩ := Option.isSome_iff_exists.mp hname
    rw [collect_succ hstack hseen hfields] at hrun
    -- the fields one after another, on the stack with the struct
    have hloop : ∀ {fs : List (Text × AbiType)} {seen : List Text},
        Searched (Refs defs) seen (stack ++ [name]) →
        fs.foldlM (collectField debug defs levels name stack) seen = .ok seen' →
        Collects defs seen (stack ++ [name]) { b | ∃ f ∈ fs, structRef f.2 = some b } seen' := by
      intro fs
      induction fs with
      | nil =>
        intro seen h hrun
        cases hrun
        exact .of_done h nofun
      | cons f fs ihfs =>
        intro seen h hrun
        rw [foldlM_cons] at hrun
        obtain ⟨mid, hmid, hrun⟩ := Except.bind_eq_ok.mp hrun
        have hfirst := collectField_ok (fun hr => ih hr h) h hmid
        have hset : { b | ∃ g ∈ f :: fs, structRef g.2 = some b } =
            { b | structRef f.2 = some b } ∪ { b | ∃ g ∈ fs, structRef g.2 = some b } := by
          ext b
          simp only [Set.mem_ofPred_eq, Set.mem_union, List.mem_cons, exists_eq_or_imp]
        rw [hset]
        exact hfirst.union (ihfs hfirst.1.searched hrun)
    obtain ⟨hvisits, hdefs⟩ := hloop (h.enter hseen) hrun
    have hset : { b | ∃ f ∈ fields, structRef f.2 = some b } = { b | Refs defs name b } := by
      ext b
      constructor
      · intro hb
        exact ⟨fields, hfields, hb⟩
      · rintro ⟨fields', hfields', hb⟩
        obtain rfl := Option.some.inj (hfields.symm.trans hfields')
        exact hb
    rw [hset] at hvisits
    refine ⟨hvisits.of_next hstack, fun a ha => ?_⟩
    rcases hdefs a ha with ha | ha
    · rcases mem_append.mp ha with ha | ha
      · exact .inl ha
      · obtain rfl := mem_singleton.mp ha
        exact .inr hname
    · exact .inr ha

theorem collect_ends (hname : Defined defs name) :
    Ends (collect debug defs levels name seen stack) := by
  induction levels generalizing name seen stack with
  | zero => exact fail_ends
  | succ levels ih =>
    by_cases hstack : name ∈ stack
    · rw [collect, if_pos hstack]
      exact fail_ends
    by_cases hseen : name ∈ seen
    · rw [collect, if_neg hstack, if_pos hseen]
      exact ok_ends
    obtain ⟨fields, hfields⟩ := Option.isSome_iff_exists.mp hname
    rw [collect_succ hstack hseen hfields]
    generalize seen ++ [name] = seen'
    clear hfields
    induction fields generalizing seen' with
    | nil => exact ok_ends
    | cons f fs ihfs =>
      rw [foldlM_cons]
      refine bind_ends ?_ fun seen _ => ihfs seen
      rw [collectField]
      cases structRef f.2 with
      | none => exact ok_ends
      | some r =>
        dsimp only
        by_cases hr : (defs.lookup r).isSome = true
        · rw [if_pos hr]
          exact ih hr
        · rw [if_neg hr]
          exact fail_ends

/-- The struct and all that it refers to, in the order of the text of its type. -/
structure Listed (defs : StructDefs) (primary : Text) (deps : List Text) : Prop where
  sorted : deps.Pairwise (· < ·)
  mem : ∀ n, n ∈ deps ↔ TransGen (Refs defs) primary n
  defined : ∀ n ∈ primary :: deps, Defined defs n
  acyclic : ∀ n ∈ primary :: deps, ¬ TransGen (Refs defs) n n

/-- The texts of the structs of these names. -/
def structTexts (defs : StructDefs) (names : List Text) : Text :=
  names.flatMap fun n => structText n ((defs.lookup n).getD [])

theorem encodeType_ok {text : Text} (hp : Defined defs primary)
    (h : encodeType debug defs primary = .ok text) :
    ∃ deps, Listed defs primary deps ∧ text = structTexts defs (primary :: deps) := by
  obtain ⟨seen, hseen, h⟩ := Except.bind_eq_ok.mp h
  obtain rfl := Except.ok.inj h
  obtain ⟨hvisits, hdefs⟩ := collect_ok hp DepthFirst.searched_nil hseen
  obtain ⟨hnodup, hmem, hacyclic⟩ := hvisits.whole
  have hprimary : primary ∈ seen := (hmem primary).mpr .refl
  have hdeps : ∀ n, n ∈ (seen.filter fun n => n ≠ primary).insertionSort (· ≤ ·) ↔
      n ∈ seen ∧ n ≠ primary := by
    intro n
    rw [mem_insertionSort, mem_filter, decide_eq_true_eq]
  have hsub : ∀ n ∈ primary :: (seen.filter fun n => n ≠ primary).insertionSort (· ≤ ·),
      n ∈ seen := by
    intro n hn
    rcases List.mem_cons.mp hn with rfl | hn
    · exact hprimary
    · exact ((hdeps n).mp hn).1
  refine ⟨(seen.filter fun n => n ≠ primary).insertionSort (· ≤ ·), ⟨?_, ?_, ?_, ?_⟩, rfl⟩
  · have hle := pairwise_insertionSort (· ≤ ·) (seen.filter fun n => n ≠ primary)
    have hne : ((seen.filter fun n => n ≠ primary).insertionSort (· ≤ ·)).Nodup :=
      (perm_insertionSort _ _).nodup_iff.mpr (hnodup.filter _)
    exact hle.imp₂ (fun a b hab hne => lt_of_le_of_ne hab hne) hne
  · intro n
    rw [hdeps, hmem]
    constructor
    · rintro ⟨hreach, hne⟩
      rcases Relation.reflTransGen_iff_eq_or_transGen.mp hreach with rfl | htrans
      · exact absurd rfl hne
      · exact htrans
    · intro htrans
      refine ⟨htrans.to_reflTransGen, ?_⟩
      rintro rfl
      exact hacyclic n hprimary htrans
  · intro n hn
    rcases hdefs n (hsub n hn) with hnil | hdef
    · exact absurd hnil not_mem_nil
    · exact hdef
  · intro n hn
    exact hacyclic n (hsub n hn)

theorem encodeType_ends (hp : Defined defs primary) : Ends (encodeType debug defs primary) :=
  bind_ends (collect_ends hp) fun _ _ => ok_ends

theorem Listed.mem_cons {n : Text} {deps : List Text} (h : Listed defs primary deps) :
    n ∈ primary :: deps ↔ ReflTransGen (Refs defs) primary n := by
  rw [List.mem_cons, h.mem, Relation.reflTransGen_iff_eq_or_transGen]

end Search

/-! ## Reading the text back -/

section Injective

variable {debug : Text → Text}

/-- A field with an identifier for its name, of a type without tuples. -/
structure FieldOk (debug : Text → Text) (f : Text × AbiType) : Prop where
  name : f.1.all isIdent = true
  type : TypeOk debug fname f.2

/-- A struct with a name that stands for one, and such fields. -/
structure DefOk (debug : Text → Text) (d : Text × List (Text × AbiType)) : Prop where
  name : IsName debug fname d.1
  fields : ∀ f ∈ d.2, FieldOk debug f

variable {c : Char}

theorem not_mem_ident {s : Text} (h : s.all isIdent) (hc : isIdent c = false) :
    c ∉ s := fun hmem => Bool.false_ne_true (hc.symm.trans (all_eq_true.mp h c hmem))

variable {t : AbiType} {f : Text × AbiType} {r r' : Text} {fs gs : List (Text × AbiType)}

theorem not_mem_display (h : TypeOk debug fname t) (hc : isIdent c = false) (hopen : c ≠ '[')
    (hclose : c ≠ ']') : c ∉ t.display := by
  intro hmem
  rcases display_chars h c hmem with hident | rfl | rfl
  · exact Bool.false_ne_true (hc.symm.trans hident)
  · exact hopen rfl
  · exact hclose rfl

theorem not_mem_fieldText (h : FieldOk debug f) (hc : isIdent c = false) (hopen : c ≠ '[')
    (hclose : c ≠ ']') (hblank : c ≠ ' ') : c ∉ fieldText f := by
  rw [fieldText, mem_append, List.mem_cons, not_or, not_or]
  exact ⟨not_mem_display h.type hc hopen hclose, hblank, not_mem_ident h.name hc⟩

theorem display_injective {u : AbiType} (ht : TypeOk debug fname t) (hu : TypeOk debug fname u)
    (h : t.display = u.display) : t = u := by
  have hread := parseSingleType_display ht
  rw [h, parseSingleType_display hu] at hread
  exact (Except.ok.inj hread).symm

theorem append_cons_inj {l l' : Text} (hl : c ∉ l) (hl' : c ∉ l') (h : l ++ c :: r = l' ++ c :: r')
    : l = l' ∧ r = r' := by
  have hsplit := splitOnce_append hl r
  rw [h, splitOnce_append hl' r'] at hsplit
  obtain ⟨rfl, rfl⟩ := Prod.mk.inj (Option.some.inj hsplit)
  exact ⟨rfl, rfl⟩

theorem fieldText_injective {g : Text × AbiType} (hf : FieldOk debug f) (hg : FieldOk debug g)
    (h : fieldText f = fieldText g) : f = g := by
  obtain ⟨htype, hname⟩ := append_cons_inj
    (not_mem_display hf.type (by decide) (by decide) (by decide))
    (not_mem_display hg.type (by decide) (by decide) (by decide)) h
  exact Prod.ext hname (display_injective hf.type hg.type htype)

theorem fieldText_ne_nil (f : Text × AbiType) : fieldText f ≠ [] := by
  intro h
  exact cons_ne_nil _ _ (append_eq_nil_iff.mp h).2

theorem map_fieldText_injective (hfs : ∀ f ∈ fs, FieldOk debug f) (hgs : ∀ g ∈ gs, FieldOk debug g)
    (h : fs.map fieldText = gs.map fieldText) : fs = gs := by
  induction fs generalizing gs with
  | nil => exact (map_eq_nil_iff.mp h.symm).symm
  | cons f fs ih =>
    cases gs with
    | nil => cases h
    | cons g gs =>
      obtain ⟨hf, hfs⟩ := forall_mem_cons.mp hfs
      obtain ⟨hg, hgs⟩ := forall_mem_cons.mp hgs
      obtain ⟨hfirst, hrest⟩ := cons.inj h
      rw [fieldText_injective hf hg hfirst, ih hfs hgs hrest]

theorem join_fieldText_injective (hfs : ∀ f ∈ fs, FieldOk debug f) (hgs : ∀ g ∈ gs, FieldOk debug g)
    (h : join [','] (fs.map fieldText) = join [','] (gs.map fieldText)) : fs = gs := by
  have hsplit : ∀ {fs : List (Text × AbiType)}, (∀ f ∈ fs, FieldOk debug f) →
      (join [','] (fs.map fieldText)).splitOn ',' =
        if fs = [] then [[]] else fs.map fieldText := by
    intro fs hfs
    by_cases hnil : fs = []
    · rw [if_pos hnil, hnil]
      rfl
    · rw [if_neg hnil]
      refine splitOn_intercalate ',' ?_ (mt map_eq_nil_iff.mp hnil)
      intro l hl
      obtain ⟨f, hf, rfl⟩ := mem_map.mp hl
      exact not_mem_fieldText (hfs f hf) (by decide) (by decide) (by decide) (by decide)
  -- the text of a field is not empty
  have hne : ∀ {fs : List (Text × AbiType)}, fs.map fieldText ≠ [[]] := by
    intro fs hfs
    obtain ⟨f, -, -, hf, -⟩ := map_eq_cons_iff.mp hfs
    exact fieldText_ne_nil f hf
  have heq := congrArg (List.splitOn ',') h
  rw [hsplit hfs, hsplit hgs] at heq
  split_ifs at heq with hf hg hg
  · rw [hf, hg]
  · exact absurd heq.symm hne
  · exact absurd heq hne
  · exact map_fieldText_injective hfs hgs heq

theorem structText_append_inj {d e : Text × List (Text × AbiType)} (hd : DefOk debug d)
    (he : DefOk debug e) (h : structText d.1 d.2 ++ r = structText e.1 e.2 ++ r') :
    d = e ∧ r = r' := by
  have hbody : ∀ {d : Text × List (Text × AbiType)}, DefOk debug d →
      ')' ∉ join [','] (d.2.map fieldText) := by
    intro d hd hmem
    rcases mem_join hmem with hcomma | ⟨l, hl, hmem⟩
    · exact absurd hcomma (by decide)
    obtain ⟨f, hf, rfl⟩ := mem_map.mp hl
    revert hmem
    exact not_mem_fieldText (hd.fields f hf) (by decide) (by decide) (by decide) (by decide)
  rw [structText, structText, append_assoc, append_assoc, cons_append, cons_append, append_assoc,
    append_assoc] at h
  obtain ⟨hname, h⟩ := append_cons_inj (not_mem_ident hd.name.ident (by decide))
    (not_mem_ident he.name.ident (by decide)) h
  obtain ⟨hfields, hrest⟩ := append_cons_inj (hbody hd) (hbody he) h
  exact ⟨Prod.ext hname (join_fieldText_injective hd.fields he.fields hfields), hrest⟩

theorem structText_ne_nil (name : Text) (fields : List (Text × AbiType)) :
    structText name fields ≠ [] := by
  intro h
  exact cons_ne_nil _ _ (append_eq_nil_iff.mp h).2

theorem flatMap_structText_injective {ds es : List (Text × List (Text × AbiType))}
    (hds : ∀ d ∈ ds, DefOk debug d) (hes : ∀ e ∈ es, DefOk debug e)
    (h : (ds.flatMap fun d => structText d.1 d.2) = es.flatMap fun d => structText d.1 d.2) :
    ds = es := by
  induction ds generalizing es with
  | nil =>
    cases es with
    | nil => rfl
    | cons e es => exact absurd (append_eq_nil_iff.mp h.symm).1 (structText_ne_nil _ _)
  | cons d ds ih =>
    cases es with
    | nil => exact absurd (append_eq_nil_iff.mp h).1 (structText_ne_nil _ _)
    | cons e es =>
      obtain ⟨hd, hds⟩ := forall_mem_cons.mp hds
      obtain ⟨he, hes⟩ := forall_mem_cons.mp hes
      rw [flatMap_cons, flatMap_cons] at h
      obtain ⟨hfirst, hrest⟩ := structText_append_inj hd he h
      rw [hfirst, ih hds hes hrest]

end Injective

end Synsema.Eip712
