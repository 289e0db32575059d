import Synsema.Labels.Value
import Synsema.Lib.Except

/-!
# What the check decides

The private values of a value, in the order in which they stand in it, each with where it is and
with all the labels around it (`privates`).  Every traversal of `labels.rs` is a reading of this
list: the deep label is what is in some of them, the check finds the first that is not accepted, and
the shortcut asks whether there are any (`checkFlow_decides`).
-/

namespace Synsema.Labels

open Text List

/-- A step into a container. -/
inductive Step where
  | index (i : Nat)
  | key (k : Text)
  | value

/-- How a step is written in a path. -/
def Step.render : Step → Text
  | index i => '[' :: digits i ++ [']']
  | key k => '.' :: k
  | value => ".value"

/-- A path as text. -/
def render (steps : List Step) : Text := steps.flatMap Step.render

theorem render_snoc (steps : List Step) (s : Step) :
    render (steps ++ [s]) = render steps ++ s.render := by
  rw [render, render, flatMap_append, flatMap_singleton]

/-- A private value that was come upon: where, and all the labels around it and its own. -/
structure Found where
  steps : List Step
  label : Label

namespace SynValue

variable {κ : Type}

/-! ## Induction over values -/

@[elab_as_elim]
theorem induct {motive : SynValue κ → Prop} (atom : ∀ k, motive (.atom k))
    (secret : ∀ k, motive (.secret k))
    (list : ∀ vs : List (SynValue κ), (∀ v ∈ vs, motive v) → motive (.list (.values vs)))
    (unboxed : ∀ ks, motive (.list (.unboxed ks)))
    (map : ∀ m : List (Text × SynValue κ), (∀ e ∈ m, motive e.2) → motive (.map m))
    (envelope : ∀ status value, motive value → motive (.server (.envelope status value)))
    (node : ∀ m : List (Text × SynValue κ), (∀ e ∈ m, motive e.2) → motive (.server (.node m)))
    (content : ∀ inner, motive inner → motive (.server (.content inner)))
    (withHeaders : ∀ inner headers, motive inner → motive (.server (.withHeaders inner headers)))
    (other : ∀ k, motive (.server (.other k)))
    («private» : ∀ value label, motive value → motive (.private value label)) (v : SynValue κ) :
    motive v :=
  @SynValue.rec κ motive (fun l => motive (.list l)) (fun m => ∀ e ∈ m, motive e.2)
    (fun s => motive (.server s)) (fun vs => ∀ v ∈ vs, motive v) (fun e => motive e.2)
    atom secret (fun _ h => h) map (fun _ h => h) «private» list unboxed
    (fun _ h => absurd h not_mem_nil) (fun _ _ he hm => forall_mem_cons.mpr ⟨he, hm⟩)
    envelope node content withHeaders other
    (fun _ h => absurd h not_mem_nil) (fun _ _ hx hvs => forall_mem_cons.mpr ⟨hx, hvs⟩)
    (fun _ _ h => h) v

/-! ## The deep label -/

variable {vs : List (SynValue κ)} {m : List (Text × SynValue κ)} {v w : SynValue κ} {label : Label}

theorem mem_deepIntoList {p : Text}
    (h : ∀ v ∈ vs, ∀ acc, p ∈ v.deepInto acc ↔ p ∈ acc ∨ p ∈ v.labelDeep) (acc : Label) :
    p ∈ deepIntoList vs acc ↔ p ∈ acc ∨ ∃ v ∈ vs, p ∈ v.labelDeep := by
  induction vs generalizing acc with
  | nil => simp [deepIntoList]
  | cons v vs ih =>
    obtain ⟨hv, hvs⟩ := forall_mem_cons.mp h
    rw [deepIntoList, ih hvs, hv, or_assoc, exists_mem_cons_iff]

theorem mem_deepIntoMap {p : Text}
    (h : ∀ e ∈ m, ∀ acc, p ∈ e.2.deepInto acc ↔ p ∈ acc ∨ p ∈ e.2.labelDeep) (acc : Label) :
    p ∈ deepIntoMap m acc ↔ p ∈ acc ∨ ∃ e ∈ m, p ∈ e.2.labelDeep := by
  induction m generalizing acc with
  | nil => simp [deepIntoMap]
  | cons e m ih =>
    obtain ⟨hv, hm⟩ := forall_mem_cons.mp h
    rw [deepIntoMap, ih hm, hv, or_assoc, exists_mem_cons_iff]

theorem mem_deepInto {p : Text} (v : SynValue κ) (acc : Label) :
    p ∈ v.deepInto acc ↔ p ∈ acc ∨ p ∈ v.labelDeep := by
  induction v using induct generalizing acc with
  | atom k | secret k | unboxed ks | other k => exact (or_iff_left (SortedSet.not_mem_empty p)).symm
  | list vs ih => simp [labelDeep, deepInto, mem_deepIntoList ih]
  | map m ih | node m ih => simp [labelDeep, deepInto, mem_deepIntoMap ih]
  | envelope status value ih | content inner ih | withHeaders inner headers ih => exact ih acc
  | «private» value label ih =>
    have hdeep : p ∈ (SynValue.private value label).labelDeep ↔
        p ∈ label ∨ p ∈ value.labelDeep := by
      change p ∈ value.deepInto (SortedSet.empty.union label) ↔ _
      rw [ih, SortedSet.empty_union]
    change p ∈ value.deepInto (acc.union label) ↔ _
    rw [ih, SortedSet.mem_union, hdeep, or_assoc]

section LabelDeep

variable {p : Text}

theorem mem_labelDeep_private {value : SynValue κ} {label : Label} :
    p ∈ (SynValue.private value label).labelDeep ↔ p ∈ label ∨ p ∈ value.labelDeep := by
  rw [labelDeep, deepInto, mem_deepInto, SortedSet.empty_union]

theorem mem_labelDeep_list {vs : List (SynValue κ)} :
    p ∈ (SynValue.list (.values vs)).labelDeep ↔ ∃ v ∈ vs, p ∈ v.labelDeep := by
  rw [labelDeep, deepInto, mem_deepIntoList fun v _ => mem_deepInto v,
    or_iff_right (SortedSet.not_mem_empty p)]

variable {m : List (Text × SynValue κ)}

theorem mem_labelDeep_map :
    p ∈ (SynValue.map m).labelDeep ↔ ∃ e ∈ m, p ∈ e.2.labelDeep := by
  rw [labelDeep, deepInto, mem_deepIntoMap fun e _ => mem_deepInto e.2,
    or_iff_right (SortedSet.not_mem_empty p)]

theorem mem_labelDeep_node :
    p ∈ (SynValue.server (.node m)).labelDeep ↔ ∃ e ∈ m, p ∈ e.2.labelDeep :=
  mem_labelDeep_map

end LabelDeep

/-! ## The private values, in order -/

mutual

/-- The private values, with the steps to this value and the labels around it. -/
@[grind] def privates : SynValue κ → List Step → Label → List Found
  | .private value label, steps, ctx =>
    ⟨steps, ctx.union label⟩ :: privates value steps (ctx.union label)
  | .list (.values vs), steps, ctx => privatesList vs 0 steps ctx
  | .list (.unboxed _), _, _ => []
  | .map m, steps, ctx => privatesMap m steps ctx
  | .server (.envelope _ value), steps, ctx => privates value (steps ++ [.value]) ctx
  | .server (.node m), steps, ctx => privatesMap m steps ctx
  | .server (.content inner), steps, ctx => privates inner steps ctx
  | .server (.withHeaders inner _), steps, ctx => privates inner steps ctx
  | .server (.other _), _, _ => []
  | .atom _, _, _ => []
  | .secret _, _, _ => []

/-- The same, of the values of a list from the place `i` on. -/
@[grind] def privatesList : List (SynValue κ) → Nat → List Step → Label → List Found
  | [], _, _, _ => []
  | x :: vs, i, steps, ctx =>
    privates x (steps ++ [.index i]) ctx ++ privatesList vs (i + 1) steps ctx

/-- The same, of the values of a map. -/
@[grind] def privatesMap : List (Text × SynValue κ) → List Step → Label → List Found
  | [], _, _ => []
  | (k, x) :: m, steps, ctx =>
    privates x (steps ++ [.key k]) ctx ++ privatesMap m steps ctx

end

/-- A value stands in another, behind some steps and within some labels. -/
inductive Within : SynValue κ → List Step → Label → SynValue κ → Prop where
  | here (v : SynValue κ) : Within v [] .empty v
  | «private» {value w : SynValue κ} {label ctx : Label} {steps : List Step}
      (h : Within value steps ctx w) : Within (.private value label) steps (label.union ctx) w
  | list {vs : List (SynValue κ)} {i : Nat} {v w : SynValue κ} {steps : List Step} {ctx : Label}
      (hi : vs[i]? = some v) (h : Within v steps ctx w) :
      Within (.list (.values vs)) (.index i :: steps) ctx w
  | map {m : List (Text × SynValue κ)} {k : Text} {v w : SynValue κ} {steps : List Step}
      {ctx : Label} (hk : (k, v) ∈ m) (h : Within v steps ctx w) :
      Within (.map m) (.key k :: steps) ctx w
  | envelope {status : Int} {value w : SynValue κ} {steps : List Step} {ctx : Label}
      (h : Within value steps ctx w) :
      Within (.server (.envelope status value)) (.value :: steps) ctx w
  | node {m : List (Text × SynValue κ)} {k : Text} {v w : SynValue κ} {steps : List Step}
      {ctx : Label} (hk : (k, v) ∈ m) (h : Within v steps ctx w) :
      Within (.server (.node m)) (.key k :: steps) ctx w
  | content {inner w : SynValue κ} {steps : List Step} {ctx : Label}
      (h : Within inner steps ctx w) : Within (.server (.content inner)) steps ctx w
  | withHeaders {inner w : SynValue κ} {headers : List (Text × Text)} {steps : List Step}
      {ctx : Label} (h : Within inner steps ctx w) :
      Within (.server (.withHeaders inner headers)) steps ctx w

/-- A private value of a value: where, and the labels around it and its own. -/
def IsFound (v : SynValue κ) (f : Found) : Prop :=
  ∃ ctx value label, Within v f.steps ctx (.private value label) ∧ f.label = ctx.union label

section IsFound

variable {f : Found}

variable {k : κ} {value inner : SynValue κ} {m : List (Text × SynValue κ)}

theorem not_isFound_atom : ¬ IsFound (.atom k) f := by
  obtain ⟨steps, eff⟩ := f
  rintro ⟨ctx, value, label, h, -⟩
  cases h

theorem not_isFound_secret : ¬ IsFound (.secret k) f := by
  obtain ⟨steps, eff⟩ := f
  rintro ⟨ctx, value, label, h, -⟩
  cases h

theorem not_isFound_unboxed {ks : List κ} : ¬ IsFound (.list (.unboxed ks)) f := by
  obtain ⟨steps, eff⟩ := f
  rintro ⟨ctx, value, label, h, -⟩
  cases h

theorem not_isFound_other : ¬ IsFound (.server (.other k)) f := by
  obtain ⟨steps, eff⟩ := f
  rintro ⟨ctx, value, label, h, -⟩
  cases h

theorem isFound_private {label : Label} :
    IsFound (.private value label) f ↔
      f = ⟨[], label⟩ ∨ ∃ g, IsFound value g ∧ f = ⟨g.steps, label.union g.label⟩ := by
  constructor
  · obtain ⟨steps, eff⟩ := f
    rintro ⟨ctx, value', label', h, rfl⟩
    cases h with
    | here => exact .inl (by rw [SortedSet.empty_union])
    | @«private» _ _ _ ctx _ h =>
      exact .inr ⟨⟨steps, ctx.union label'⟩, ⟨_, _, _, h, rfl⟩, by rw [SortedSet.union_assoc]⟩
  · rintro (rfl | ⟨g, ⟨ctx, value', label', h, hg⟩, rfl⟩)
    · exact ⟨_, _, _, .here _, by rw [SortedSet.empty_union]⟩
    · exact ⟨_, _, _, .private h, by rw [hg, SortedSet.union_assoc]⟩

theorem isFound_list {vs : List (SynValue κ)} : IsFound (.list (.values vs)) f ↔
    ∃ i v g, vs[i]? = some v ∧ IsFound v g ∧ f = ⟨.index i :: g.steps, g.label⟩ := by
  constructor
  · obtain ⟨steps, eff⟩ := f
    rintro ⟨ctx, value, label, h, rfl⟩
    cases h with
    | @list _ i v _ steps _ hi h => exact ⟨i, v, ⟨steps, _⟩, hi, ⟨_, _, _, h, rfl⟩, rfl⟩
  · rintro ⟨i, v, g, hi, ⟨ctx, value, label, h, hg⟩, rfl⟩
    exact ⟨_, _, _, .list hi h, hg⟩

theorem isFound_map : IsFound (.map m) f ↔
    ∃ k v g, (k, v) ∈ m ∧ IsFound v g ∧ f = ⟨.key k :: g.steps, g.label⟩ := by
  constructor
  · obtain ⟨steps, eff⟩ := f
    rintro ⟨ctx, value, label, h, rfl⟩
    cases h with
    | @map _ k v _ steps _ hk h => exact ⟨k, v, ⟨steps, _⟩, hk, ⟨_, _, _, h, rfl⟩, rfl⟩
  · rintro ⟨k, v, g, hk, ⟨ctx, value, label, h, hg⟩, rfl⟩
    exact ⟨_, _, _, .map hk h, hg⟩

theorem isFound_node : IsFound (.server (.node m)) f ↔
    ∃ k v g, (k, v) ∈ m ∧ IsFound v g ∧ f = ⟨.key k :: g.steps, g.label⟩ := by
  constructor
  · obtain ⟨steps, eff⟩ := f
    rintro ⟨ctx, value, label, h, rfl⟩
    cases h with
    | @node _ k v _ steps _ hk h => exact ⟨k, v, ⟨steps, _⟩, hk, ⟨_, _, _, h, rfl⟩, rfl⟩
  · rintro ⟨k, v, g, hk, ⟨ctx, value, label, h, hg⟩, rfl⟩
    exact ⟨_, _, _, .node hk h, hg⟩

theorem isFound_envelope {status : Int} :
    IsFound (.server (.envelope status value)) f ↔
      ∃ g, IsFound value g ∧ f = ⟨.value :: g.steps, g.label⟩ := by
  constructor
  · obtain ⟨steps, eff⟩ := f
    rintro ⟨ctx, value, label, h, rfl⟩
    cases h with
    | @envelope _ _ _ steps _ h => exact ⟨⟨steps, _⟩, ⟨_, _, _, h, rfl⟩, rfl⟩
  · rintro ⟨g, ⟨ctx, value, label, h, hg⟩, rfl⟩
    exact ⟨_, _, _, .envelope h, hg⟩

theorem isFound_content :
    IsFound (.server (.content inner)) f ↔ IsFound inner f := by
  constructor
  · obtain ⟨steps, eff⟩ := f
    rintro ⟨ctx, value, label, h, hf⟩
    cases h with
    | content h => exact ⟨_, _, _, h, hf⟩
  · rintro ⟨ctx, value, label, h, hf⟩
    exact ⟨_, _, _, .content h, hf⟩

theorem isFound_withHeaders {headers : List (Text × Text)} :
    IsFound (.server (.withHeaders inner headers)) f ↔ IsFound inner f := by
  constructor
  · obtain ⟨steps, eff⟩ := f
    rintro ⟨ctx, value, label, h, hf⟩
    cases h with
    | withHeaders h => exact ⟨_, _, _, h, hf⟩
  · rintro ⟨ctx, value, label, h, hf⟩
    exact ⟨_, _, _, .withHeaders h, hf⟩

end IsFound

variable {steps : List Step} {ctx : Label} {any : Bool}

theorem mem_privatesList {f : Found}
    (h : ∀ v ∈ vs, ∀ steps, f ∈ v.privates steps ctx ↔
      ∃ g, IsFound v g ∧ f = ⟨steps ++ g.steps, ctx.union g.label⟩) (i : Nat) :
    f ∈ privatesList vs i steps ctx ↔ ∃ j v g, vs[j]? = some v ∧ IsFound v g ∧
      f = ⟨steps ++ .index (i + j) :: g.steps, ctx.union g.label⟩ := by
  induction vs generalizing i with
  | nil => simp [privatesList]
  | cons v vs ih =>
    obtain ⟨hv, hvs⟩ := forall_mem_cons.mp h
    rw [privatesList, mem_append, hv, ih hvs]
    constructor
    · rintro (⟨g, hg, rfl⟩ | ⟨j, w, g, hj, hg, rfl⟩)
      · exact ⟨0, v, g, rfl, hg, by simp⟩
      · exact ⟨j + 1, w, g, hj, hg, by rw [Nat.add_right_comm, Nat.add_assoc]⟩
    · rintro ⟨j, w, g, hj, hg, rfl⟩
      cases j with
      | zero =>
        obtain rfl := Option.some.inj hj
        exact .inl ⟨g, hg, by simp⟩
      | succ j => exact .inr ⟨j, w, g, hj, hg, by rw [Nat.add_right_comm, Nat.add_assoc]⟩

theorem mem_privatesMap
    {f : Found} (h : ∀ e ∈ m, ∀ steps, f ∈ e.2.privates steps ctx ↔
      ∃ g, IsFound e.2 g ∧ f = ⟨steps ++ g.steps, ctx.union g.label⟩) :
    f ∈ privatesMap m steps ctx ↔ ∃ k v g, (k, v) ∈ m ∧ IsFound v g ∧
      f = ⟨steps ++ .key k :: g.steps, ctx.union g.label⟩ := by
  induction m with
  | nil => simp [privatesMap]
  | cons e m ih =>
    obtain ⟨k, v⟩ := e
    obtain ⟨hv, hm⟩ := forall_mem_cons.mp h
    rw [privatesMap, mem_append, hv, ih hm]
    constructor
    · rintro (⟨g, hg, rfl⟩ | ⟨k', w, g, hk, hg, rfl⟩)
      · exact ⟨k, v, g, mem_cons_self, hg, by simp⟩
      · exact ⟨k', w, g, mem_cons_of_mem _ hk, hg, rfl⟩
    · rintro ⟨k', w, g, hk, hg, rfl⟩
      rcases List.mem_cons.mp hk with he | hk
      · obtain ⟨rfl, rfl⟩ := Prod.mk.inj he
        exact .inl ⟨g, hg, by simp⟩
      · exact .inr ⟨k', w, g, hk, hg, rfl⟩

theorem mem_privates {f : Found} :
    f ∈ v.privates steps ctx ↔ ∃ g, IsFound v g ∧ f = ⟨steps ++ g.steps, ctx.union g.label⟩ := by
  induction v using induct generalizing steps ctx with
  | atom k => exact iff_of_false not_mem_nil fun ⟨g, hg, _⟩ => not_isFound_atom hg
  | secret k => exact iff_of_false not_mem_nil fun ⟨g, hg, _⟩ => not_isFound_secret hg
  | unboxed ks => exact iff_of_false not_mem_nil fun ⟨g, hg, _⟩ => not_isFound_unboxed hg
  | other k => exact iff_of_false not_mem_nil fun ⟨g, hg, _⟩ => not_isFound_other hg
  | list vs ih =>
    rw [privates, mem_privatesList fun v hv steps => ih v hv]
    constructor
    · rintro ⟨j, v, g, hj, hg, rfl⟩
      exact ⟨_, isFound_list.mpr ⟨j, v, g, hj, hg, rfl⟩, by rw [Nat.zero_add]⟩
    · rintro ⟨_, hf, rfl⟩
      obtain ⟨j, v, g, hj, hg, rfl⟩ := isFound_list.mp hf
      exact ⟨j, v, g, hj, hg, by rw [Nat.zero_add]⟩
  | map m ih =>
    rw [privates, mem_privatesMap fun e he steps => ih e he]
    constructor
    · rintro ⟨k, v, g, hk, hg, rfl⟩
      exact ⟨_, isFound_map.mpr ⟨k, v, g, hk, hg, rfl⟩, rfl⟩
    · rintro ⟨_, hf, rfl⟩
      obtain ⟨k, v, g, hk, hg, rfl⟩ := isFound_map.mp hf
      exact ⟨k, v, g, hk, hg, rfl⟩
  | node m ih =>
    rw [privates, mem_privatesMap fun e he steps => ih e he]
    constructor
    · rintro ⟨k, v, g, hk, hg, rfl⟩
      exact ⟨_, isFound_node.mpr ⟨k, v, g, hk, hg, rfl⟩, rfl⟩
    · rintro ⟨_, hf, rfl⟩
      obtain ⟨k, v, g, hk, hg, rfl⟩ := isFound_node.mp hf
      exact ⟨k, v, g, hk, hg, rfl⟩
  | envelope status value ih =>
    rw [privates, ih]
    constructor
    · rintro ⟨g, hg, rfl⟩
      exact ⟨_, isFound_envelope.mpr ⟨g, hg, rfl⟩, by rw [append_assoc]; rfl⟩
    · rintro ⟨_, hf, rfl⟩
      obtain ⟨g, hg, rfl⟩ := isFound_envelope.mp hf
      exact ⟨g, hg, by rw [append_assoc]; rfl⟩
  | content inner ih =>
    rw [privates, ih]
    exact exists_congr fun g => and_congr_left' isFound_content.symm
  | withHeaders inner headers ih =>
    rw [privates, ih]
    exact exists_congr fun g => and_congr_left' isFound_withHeaders.symm
  | «private» value label ih =>
    rw [privates, List.mem_cons, ih]
    constructor
    · rintro (rfl | ⟨g, hg, rfl⟩)
      · exact ⟨_, isFound_private.mpr (.inl rfl), by rw [append_nil]⟩
      · exact ⟨_, isFound_private.mpr (.inr ⟨g, hg, rfl⟩), by rw [SortedSet.union_assoc]⟩
    · rintro ⟨_, hf, rfl⟩
      rcases isFound_private.mp hf with rfl | ⟨g, hg, rfl⟩
      · exact .inl (by rw [append_nil])
      · exact .inr ⟨g, hg, by rw [SortedSet.union_assoc]⟩

theorem mem_labelDeep {p : Text} : p ∈ v.labelDeep ↔ ∃ f, IsFound v f ∧ p ∈ f.label := by
  induction v using induct with
  | atom k => exact iff_of_false (SortedSet.not_mem_empty p) fun ⟨f, hf, _⟩ => not_isFound_atom hf
  | secret k =>
    exact iff_of_false (SortedSet.not_mem_empty p) fun ⟨f, hf, _⟩ => not_isFound_secret hf
  | unboxed ks =>
    exact iff_of_false (SortedSet.not_mem_empty p) fun ⟨f, hf, _⟩ => not_isFound_unboxed hf
  | other k => exact iff_of_false (SortedSet.not_mem_empty p) fun ⟨f, hf, _⟩ => not_isFound_other hf
  | list vs ih =>
    rw [mem_labelDeep_list]
    constructor
    · rintro ⟨v, hv, hp⟩
      obtain ⟨g, hg, hp⟩ := (ih v hv).mp hp
      obtain ⟨i, hi⟩ := mem_iff_getElem?.mp hv
      exact ⟨_, isFound_list.mpr ⟨i, v, g, hi, hg, rfl⟩, hp⟩
    · rintro ⟨_, hf, hp⟩
      obtain ⟨i, v, g, hi, hg, rfl⟩ := isFound_list.mp hf
      have hv := mem_of_getElem? hi
      exact ⟨v, hv, (ih v hv).mpr ⟨g, hg, hp⟩⟩
  | map m ih =>
    rw [mem_labelDeep_map]
    constructor
    · rintro ⟨⟨k, v⟩, he, hp⟩
      obtain ⟨g, hg, hp⟩ := (ih _ he).mp hp
      exact ⟨_, isFound_map.mpr ⟨k, v, g, he, hg, rfl⟩, hp⟩
    · rintro ⟨_, hf, hp⟩
      obtain ⟨k, v, g, he, hg, rfl⟩ := isFound_map.mp hf
      exact ⟨_, he, (ih _ he).mpr ⟨g, hg, hp⟩⟩
  | node m ih =>
    rw [mem_labelDeep_node]
    constructor
    · rintro ⟨⟨k, v⟩, he, hp⟩
      obtain ⟨g, hg, hp⟩ := (ih _ he).mp hp
      exact ⟨_, isFound_node.mpr ⟨k, v, g, he, hg, rfl⟩, hp⟩
    · rintro ⟨_, hf, hp⟩
      obtain ⟨k, v, g, he, hg, rfl⟩ := isFound_node.mp hf
      exact ⟨_, he, (ih _ he).mpr ⟨g, hg, hp⟩⟩
  | envelope status value ih =>
    refine ih.trans ?_
    constructor
    · rintro ⟨g, hg, hp⟩
      exact ⟨_, isFound_envelope.mpr ⟨g, hg, rfl⟩, hp⟩
    · rintro ⟨_, hf, hp⟩
      obtain ⟨g, hg, rfl⟩ := isFound_envelope.mp hf
      exact ⟨g, hg, hp⟩
  | content inner ih =>
    exact ih.trans (exists_congr fun g => and_congr_left' isFound_content.symm)
  | withHeaders inner headers ih =>
    exact ih.trans (exists_congr fun g => and_congr_left' isFound_withHeaders.symm)
  | «private» value label ih =>
    rw [mem_labelDeep_private, ih]
    constructor
    · rintro (hp | ⟨g, hg, hp⟩)
      · exact ⟨_, isFound_private.mpr (.inl rfl), hp⟩
      · exact ⟨_, isFound_private.mpr (.inr ⟨g, hg, rfl⟩), SortedSet.mem_union.mpr (.inr hp)⟩
    · rintro ⟨_, hf, hp⟩
      rcases isFound_private.mp hf with rfl | ⟨g, hg, rfl⟩
      · exact .inl hp
      · exact (SortedSet.mem_union.mp hp).imp_right fun hp => ⟨g, hg, hp⟩

/-! ## The check finds the first that is not accepted -/

/-- What the check says of some private values: the first that is not accepted, if there is one. -/
@[grind] def verdict (accepted : Label) (root : Text) (fs : List Found) : Except LabelViolation Unit :=
  match fs.find? fun f => !f.label.subset accepted with
  | none => .ok ()
  | some f => .error ⟨root ++ render f.steps, f.label, accepted⟩

variable {accepted : Label} {root : Text}

theorem verdict_cons (f : Found) (fs : List Found) : verdict accepted root (f :: fs) =
    if !f.label.subset accepted then .error ⟨root ++ render f.steps, f.label, accepted⟩
    else verdict accepted root fs := by
  rw [verdict, find?_cons]
  cases f.label.subset accepted with
  | true | false => rfl

theorem verdict_append (fs gs : List Found) : verdict accepted root (fs ++ gs) =
    verdict accepted root fs >>= fun _ => verdict accepted root gs := by
  induction fs with
  | nil => rfl
  | cons f fs ih =>
    rw [cons_append, verdict_cons, verdict_cons]
    by_cases h : (!f.label.subset accepted) = true
    · rw [if_pos h, if_pos h]
      rfl
    · rw [if_neg h, if_neg h, ih]

theorem checkList_eq
    (h : ∀ v ∈ vs, ∀ steps, checkInto accepted v (root ++ render steps) ctx =
      verdict accepted root (v.privates steps ctx)) (i : Nat) :
    checkList accepted vs i (root ++ render steps) ctx =
      verdict accepted root (privatesList vs i steps ctx) := by
  induction vs generalizing i with
  | nil => rfl
  | cons v vs ih =>
    obtain ⟨hv, hvs⟩ := forall_mem_cons.mp h
    have hpath : root ++ render steps ++ ('[' :: digits i ++ [']']) =
        root ++ render (steps ++ [.index i]) := by
      rw [render_snoc, append_assoc]
      rfl
    rw [checkList, privatesList, verdict_append, hpath, hv, ih hvs]

theorem checkMap_eq
    (h : ∀ e ∈ m, ∀ steps, checkInto accepted e.2 (root ++ render steps) ctx =
      verdict accepted root (e.2.privates steps ctx)) :
    checkMap accepted m (root ++ render steps) ctx =
      verdict accepted root (privatesMap m steps ctx) := by
  induction m with
  | nil => rfl
  | cons e m ih =>
    obtain ⟨k, v⟩ := e
    obtain ⟨hv, hm⟩ := forall_mem_cons.mp h
    have hpath : root ++ render steps ++ '.' :: k = root ++ render (steps ++ [.key k]) := by
      rw [render_snoc, append_assoc]
      rfl
    rw [checkMap, privatesMap, verdict_append, hpath, hv, ih hm]

example : render [.key "a", .index 0] = ".a[0]" := by decide +kernel

theorem checkInto_eq (v : SynValue κ) (steps : List Step) (ctx : Label) :
    checkInto accepted v (root ++ render steps) ctx =
      verdict accepted root (v.privates steps ctx) := by
  induction v using induct generalizing steps ctx with
  | atom k | secret k | unboxed ks | other k => rfl
  | list vs ih => exact checkList_eq (fun v hv steps => ih v hv steps ctx) 0
  | map m ih | node m ih => exact checkMap_eq fun e he steps => ih e he steps ctx
  | envelope status value ih =>
    have hpath : root ++ render steps ++ ".value" =
        root ++ render (steps ++ [.value]) := by
      rw [render_snoc, append_assoc]
      rfl
    rw [checkInto, privates, hpath, ih]
  | content inner ih | withHeaders inner headers ih => exact ih steps ctx
  | «private» value label ih =>
    rw [checkInto, privates, verdict_cons]
    by_cases h : (!(ctx.union label).subset accepted) = true
    · rw [if_pos h, if_pos h]
    · rw [if_neg h, if_neg h, ih]

theorem checkInto_root (v : SynValue κ) : checkInto accepted v root .empty =
    verdict accepted root (v.privates [] .empty) := by
  rw [← checkInto_eq, render, flatMap_nil, append_nil]

/-! ## The shortcut -/

theorem holdsPrivateList_iff :
    holdsPrivateList vs ↔ ∃ v ∈ vs, v.holdsPrivate = true := by
  induction vs with
  | nil => simp [holdsPrivateList]
  | cons v vs ih => rw [holdsPrivateList, Bool.or_eq_true, ih, exists_mem_cons_iff]

theorem holdsPrivateMap_iff :
    holdsPrivateMap m ↔ ∃ e ∈ m, e.2.holdsPrivate = true := by
  induction m with
  | nil => simp [holdsPrivateMap]
  | cons e m ih => rw [holdsPrivateMap, Bool.or_eq_true, ih, exists_mem_cons_iff]

theorem Within.holdsPrivate (h : Within v steps ctx w) (hw : w.holdsPrivate) :
    v.holdsPrivate = true := by
  induction h with
  | here v => exact hw
  | «private» h ih => rfl
  | list hi h ih => exact holdsPrivateList_iff.mpr ⟨_, mem_of_getElem? hi, ih hw⟩
  | map hk h ih | node hk h ih => exact holdsPrivateMap_iff.mpr ⟨_, hk, ih hw⟩
  | envelope h ih | content h ih | withHeaders h ih => exact ih hw

theorem privates_eq_nil (h : v.holdsPrivate = false) (steps : List Step) (ctx : Label) :
    v.privates steps ctx = [] := by
  refine eq_nil_iff_forall_not_mem.mpr fun f hf => ?_
  obtain ⟨g, ⟨ctx, value, label, hg, -⟩, -⟩ := mem_privates.mp hf
  exact Bool.eq_false_iff.mp h (hg.holdsPrivate rfl)

/-- The values of a process, with what `ANY_PRIVATE` is: the private ones come from `labelled`. -/
inductive Built : Bool → SynValue κ → Prop where
  | atom {any : Bool} (k : κ) : Built any (.atom k)
  | secret {any : Bool} (k : κ) : Built any (.secret k)
  | list {any : Bool} {vs : List (SynValue κ)} (h : ∀ v ∈ vs, Built any v) :
      Built any (.list (.values vs))
  | unboxed {any : Bool} (ks : List κ) : Built any (.list (.unboxed ks))
  | map {any : Bool} {m : List (Text × SynValue κ)} (h : ∀ e ∈ m, Built any e.2) :
      Built any (.map m)
  | envelope {any : Bool} {status : Int} {value : SynValue κ} (h : Built any value) :
      Built any (.server (.envelope status value))
  | node {any : Bool} {m : List (Text × SynValue κ)} (h : ∀ e ∈ m, Built any e.2) :
      Built any (.server (.node m))
  | content {any : Bool} {inner : SynValue κ} (h : Built any inner) :
      Built any (.server (.content inner))
  | withHeaders {any : Bool} {inner : SynValue κ} {headers : List (Text × Text)}
      (h : Built any inner) : Built any (.server (.withHeaders inner headers))
  | other {any : Bool} (k : κ) : Built any (.server (.other k))
  | labelled {any any' : Bool} {value v : SynValue κ} {label : Label} (h : Built any value)
      (hv : (labelled value label).run any = (v, any')) : Built any' v
  -- other values have been made in the meantime
  | later {any : Bool} {v : SynValue κ} (h : Built any v) : Built true v

theorem Built.anyPrivate (h : Built any v) (hv : v.holdsPrivate) : any = true := by
  induction h with
  | atom k | secret k | unboxed ks | other k => cases hv
  | list h ih =>
    obtain ⟨w, hw, hv⟩ := holdsPrivateList_iff.mp hv
    exact ih w hw hv
  | map h ih | node h ih =>
    obtain ⟨e, he, hv⟩ := holdsPrivateMap_iff.mp hv
    exact ih e he hv
  | envelope h ih | content h ih | withHeaders h ih => exact ih hv
  | labelled h hrun ih => exact (congrArg Prod.snd hrun).symm
  | later h ih => rfl

theorem checkFlow_eq (h : Built any v) (accepted : List Text) (root : Text) :
    checkFlow any v accepted root =
      verdict (labelFrom accepted) root (v.privates [] .empty) := by
  rw [checkFlow, checkInto_root]
  by_cases hv : v.holdsPrivate = true
  · rw [h.anyPrivate hv, hv]
    rfl
  · rw [Bool.not_eq_true] at hv
    rw [hv, privates_eq_nil hv, Bool.not_false, Bool.or_true]
    rfl

/-! ## Taking labels off -/

mutual

/-- A value without its private wrappers. -/
@[grind] def bare : SynValue κ → SynValue κ
  | .private value _ => bare value
  | .list (.values vs) => .list (.values (bareList vs))
  | .list (.unboxed ks) => .list (.unboxed ks)
  | .map m => .map (bareMap m)
  | .server (.envelope status value) => .server (.envelope status (bare value))
  | .server (.node m) => .server (.node (bareMap m))
  | .server (.content inner) => .server (.content (bare inner))
  | .server (.withHeaders inner headers) => .server (.withHeaders (bare inner) headers)
  | .server (.other k) => .server (.other k)
  | .atom k => .atom k
  | .secret k => .secret k

/-- The same, of the values of a list. -/
def bareList : List (SynValue κ) → List (SynValue κ)
  | [] => []
  | x :: vs => bare x :: bareList vs

/-- The same, of the values of a map. -/
def bareMap : List (Text × SynValue κ) → List (Text × SynValue κ)
  | [] => []
  | (k, x) :: m => (k, bare x) :: bareMap m

end

theorem hasLabelDeep_eq_false : v.hasLabelDeep = false ↔ v.labelDeep = .empty := by
  rw [hasLabelDeep, Bool.not_eq_false', SortedSet.isEmpty_iff]

theorem labelDeep_eq_empty : v.labelDeep = .empty ↔ ∀ p, p ∉ v.labelDeep := by
  constructor
  · intro h p
    rw [h]
    exact SortedSet.not_mem_empty p
  · exact fun h => SortedSet.ext fun p => iff_of_false (h p) (SortedSet.not_mem_empty p)

theorem stripList_eq (vs : List (SynValue κ)) : stripList vs = vs.map stripDeep := by
  induction vs with
  | nil => rfl
  | cons v vs ih => rw [stripList, ih, map_cons]

theorem stripMap_eq (m : List (Text × SynValue κ)) :
    stripMap m = m.map fun e => (e.1, e.2.stripDeep) := by
  induction m with
  | nil => rfl
  | cons e m ih => rw [stripMap, ih, map_cons]

theorem bareList_eq (vs : List (SynValue κ)) : bareList vs = vs.map bare := by
  induction vs with
  | nil => rfl
  | cons v vs ih => rw [bareList, ih, map_cons]

theorem bareMap_eq (m : List (Text × SynValue κ)) : bareMap m = m.map fun e => (e.1, e.2.bare) := by
  induction m with
  | nil => rfl
  | cons e m ih => rw [bareMap, ih, map_cons]

theorem stripMap_spec
    (h : ∀ e ∈ m, e.2.stripDeep.labelDeep = .empty ∧ e.2.stripDeep.bare = e.2.bare) :
    (SynValue.map (stripMap m)).labelDeep = .empty ∧ bareMap (stripMap m) = bareMap m := by
  constructor
  · refine labelDeep_eq_empty.mpr fun p hp => ?_
    obtain ⟨e, he, hp⟩ := mem_labelDeep_map.mp hp
    rw [stripMap_eq] at he
    obtain ⟨e', he', rfl⟩ := mem_map.mp he
    exact labelDeep_eq_empty.mp (h e' he').1 p hp
  · rw [bareMap_eq, bareMap_eq, stripMap_eq, map_map]
    exact map_congr_left fun e he => Prod.ext rfl (h e he).2

theorem stripDeep_spec (v : SynValue κ) :
    v.stripDeep.labelDeep = .empty ∧ v.stripDeep.bare = v.bare := by
  have hplain : ∀ {v : SynValue κ}, v.hasLabelDeep = false →
      v.stripDeep.labelDeep = .empty ∧ v.stripDeep.bare = v.bare := by
    intro v h
    rw [stripDeep.eq_def, h, Bool.not_false, if_pos rfl]
    exact ⟨hasLabelDeep_eq_false.mp h, rfl⟩
  induction v using induct with
  | atom k | secret k | unboxed ks | other k => exact hplain rfl
  | list vs ih =>
    cases h : (SynValue.list (.values vs)).hasLabelDeep with
    | false => exact hplain h
    | true =>
      rw [stripDeep, h, Bool.not_true, if_neg Bool.false_ne_true, stripList_eq]
      constructor
      · refine labelDeep_eq_empty.mpr fun p hp => ?_
        obtain ⟨w, hw, hp⟩ := mem_labelDeep_list.mp hp
        obtain ⟨v, hv, rfl⟩ := mem_map.mp hw
        exact labelDeep_eq_empty.mp (ih v hv).1 p hp
      · rw [bare, bare, bareList_eq, bareList_eq, map_map]
        exact congrArg _ (congrArg _ (map_congr_left fun v hv => (ih v hv).2))
  | map m ih =>
    cases h : (SynValue.map m).hasLabelDeep with
    | false => exact hplain h
    | true =>
      rw [stripDeep, h, Bool.not_true, if_neg Bool.false_ne_true, bare, bare]
      exact (stripMap_spec ih).imp_right fun h => congrArg _ h
  | node m ih =>
    cases h : (SynValue.server (.node m)).hasLabelDeep with
    | false => exact hplain h
    | true =>
      rw [stripDeep, h, Bool.not_true, if_neg Bool.false_ne_true, bare, bare]
      exact (stripMap_spec ih).imp_right fun h => congrArg _ (congrArg _ h)
  | envelope status value ih =>
    cases h : (SynValue.server (.envelope status value)).hasLabelDeep with
    | false => exact hplain h
    | true =>
      rw [stripDeep, h, Bool.not_true, if_neg Bool.false_ne_true, bare, bare, ih.2]
      exact ⟨ih.1, rfl⟩
  | content inner ih =>
    cases h : (SynValue.server (.content inner)).hasLabelDeep with
    | false => exact hplain h
    | true =>
      rw [stripDeep, h, Bool.not_true, if_neg Bool.false_ne_true, bare, bare, ih.2]
      exact ⟨ih.1, rfl⟩
  | withHeaders inner headers ih =>
    cases h : (SynValue.server (.withHeaders inner headers)).hasLabelDeep with
    | false => exact hplain h
    | true =>
      rw [stripDeep, h, Bool.not_true, if_neg Bool.false_ne_true, bare, bare, ih.2]
      exact ⟨ih.1, rfl⟩
  | «private» value label ih =>
    cases h : (SynValue.private value label).hasLabelDeep with
    | false => exact hplain h
    | true =>
      rw [stripDeep, h, Bool.not_true, if_neg Bool.false_ne_true, bare]
      exact ih

/-! ## The deep label decides -/

/-- The check lets a value out just if its deep label is accepted.  Otherwise it tells the first
private value, in the order in which they stand, whose labels are not all accepted: where it is, and
these labels.  What is stripped has no labels in it, and the shape is the same. -/
theorem checkFlow_decides {any : Bool} {v : SynValue κ} (hv : Built any v) (accepted : List Text)
    (root : Text) :
    (checkFlow any v accepted root = .ok () ↔ ∀ p ∈ v.labelDeep, p ∈ labelFrom accepted) ∧
    (∀ e, checkFlow any v accepted root = .error e →
      ∃ before f after, v.privates [] .empty = before ++ f :: after ∧
        (∀ g ∈ before, ∀ p ∈ g.label, p ∈ labelFrom accepted) ∧
        IsFound v f ∧ e.path = root ++ render f.steps ∧ e.label = f.label ∧
        ¬ (∀ p ∈ e.label, p ∈ labelFrom accepted) ∧ e.accepted = labelFrom accepted) ∧
    (∀ f, f ∈ v.privates [] .empty ↔ IsFound v f) ∧
    checkFlow any v accepted root = checkInto (labelFrom accepted) v root .empty ∧
    v.stripDeep.labelDeep = .empty ∧ v.stripDeep.bare = v.bare := by
  have hmem : ∀ f, f ∈ v.privates [] .empty ↔ IsFound v f := by
    intro f
    refine mem_privates.trans ⟨?_, fun hf => ⟨f, hf, ?_⟩⟩
    · rintro ⟨g, hg, rfl⟩
      rwa [SortedSet.empty_union, nil_append]
    · rw [SortedSet.empty_union, nil_append]
  have hrefuse : ∀ f : Found, (!f.label.subset (labelFrom accepted)) = true ↔
      ¬ ∀ p ∈ f.label, p ∈ labelFrom accepted := by
    intro f
    rw [Bool.not_eq_true', ← SortedSet.subset_iff, Bool.not_eq_true]
  have hcheck := checkFlow_eq hv accepted root
  refine ⟨?_, fun e he => ?_, hmem, ?_, stripDeep_spec v⟩
  · rw [hcheck, verdict]
    cases hfind : (v.privates [] .empty).find? fun f => !f.label.subset (labelFrom accepted) with
    | none =>
      refine iff_of_true rfl fun p hp => ?_
      obtain ⟨f, hf, hp⟩ := mem_labelDeep.mp hp
      have hok := find?_eq_none.mp hfind f ((hmem f).mpr hf)
      exact not_not.mp (mt (hrefuse f).mpr hok) p hp
    | some f =>
      refine iff_of_false nofun fun h => ?_
      have hf := (find?_eq_some_iff_append.mp hfind).1
      refine (hrefuse f).mp hf fun p hp => h p ?_
      exact mem_labelDeep.mpr ⟨f, (hmem f).mp (mem_of_find?_eq_some hfind), hp⟩
  · rw [hcheck, verdict] at he
    revert he
    cases hfind : (v.privates [] .empty).find? fun f => !f.label.subset (labelFrom accepted) with
    | none => nofun
    | some f =>
      intro he
      obtain rfl := Except.error.inj he
      obtain ⟨hf, before, after, hsplit, hbefore⟩ := find?_eq_some_iff_append.mp hfind
      refine ⟨before, f, after, hsplit, fun g hg => ?_, (hmem f).mp ?_, rfl, rfl,
        (hrefuse f).mp hf, rfl⟩
      · have hok := hbefore g hg
        rw [Bool.not_not] at hok
        exact SortedSet.subset_iff.mp hok
      · exact mem_of_find?_eq_some hfind
  · rw [hcheck, checkInto_root]

/-- A list in the label `a`, with a value in the label `b`. -/
def nested : SynValue Unit :=
  .private (.list (.values [.atom (), .private (.atom ()) (labelFrom ["b"])]))
    (labelFrom ["a"])

theorem checkFlow_decides_nested :
    (checkFlow true nested ["a"] "r" = .ok () ↔
      ∀ p ∈ nested.labelDeep, p ∈ labelFrom ["a"]) ∧
    nested.stripDeep.labelDeep = .empty := by
  have hinner : Built true (.private (.atom ()) (labelFrom ["b"])) :=
    .labelled (Built.atom () : Built true _) rfl
  have hbuilt : Built true nested :=
    .labelled (Built.list (forall_mem_cons.mpr
      ⟨.atom (), forall_mem_singleton.mpr hinner⟩)) rfl
  have h := checkFlow_decides hbuilt ["a"] "r"
  exact ⟨h.1, h.2.2.2.2.1⟩

example : (match checkFlow true nested ["a"] "r" with
    | .ok _ => none
    | .error e => some (e.path, e.label.elems)) = some ("r[1]".toList, ["a".toList, "b".toList]) := by
  decide

end SynValue

end Synsema.Labels
