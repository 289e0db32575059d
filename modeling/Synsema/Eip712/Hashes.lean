import Synsema.Abi.Faithful
import Synsema.Eip712.TypeText

/-!
# Hashes of typed data

What it is for a value of a type to have a hash (`Hashes`), apart from how it is computed: each
struct is hashed behind the hash of the text of its type, each array as the words of its items.

As long as no two of what is hashed collide, the hash of a struct fixes its definition and all that
it refers to, and its value but for how integers and addresses are written (`Hashes.same`).
-/

namespace Synsema.Eip712

open Text Bytesutil List
open Abi hiding SynValue
open Blockchain (Stop)
open Relation (ReflTransGen TransGen)

/-! ## Values of a type -/

/-- The types of what is neither a list nor a map. -/
def IsFlat : AbiType → Prop
  | .array _ | .fixedArray _ _ | .struct _ => False
  | _ => True

/-- The map has the fields of a struct, and no other keys. -/
def HasFields (fields : List (Text × AbiType)) (m : SynMap) : Prop :=
  ∀ key, (m.lookup key).isSome = true ↔ ∃ f ∈ fields, f.1 = key

/-- The value has the declared fields and no others, at every level. -/
inductive Exact (defs : StructDefs) : AbiType → SynValue → Prop
  | flat {t : AbiType} {v : SynValue} (ht : IsFlat t) : Exact defs t v
  | array {t : AbiType} {items : List SynValue} (h : ∀ v ∈ items, Exact defs t v) :
      Exact defs (.array t) (.list items)
  | fixedArray {t : AbiType} {k : Nat} {items : List SynValue} (hk : items.length = k)
      (h : ∀ v ∈ items, Exact defs t v) : Exact defs (.fixedArray t k) (.list items)
  | struct {name : Text} {fields : List (Text × AbiType)} {m : SynMap}
      (hdef : defs.lookup name = some fields) (hkeys : HasFields fields m)
      (h : ∀ f ∈ fields, ∀ v, m.lookup f.1 = some v → Exact defs f.2 v) :
      Exact defs (.struct name) (.map m)

section Same

variable (keccak : Bytes → Word) (defs : StructDefs)

/-- The values are the same one of the type: an integer may be a number of another kind, and an
address may be written in another way. -/
inductive Same : AbiType → SynValue → SynValue → Prop
  | uint {n : Nat} {k l : Number} {i : Int} (hk : asBigint k = some i) (hl : asBigint l = some i) :
      Same (.uint n) (.number k) (.number l)
  | int {n : Nat} {k l : Number} {i : Int} (hk : asBigint k = some i) (hl : asBigint l = some i) :
      Same (.int n) (.number k) (.number l)
  | address {v w : SynValue} {a : Bytes} (hv : Denotes (fun b => (keccak b).1) v.atom a)
      (hw : Denotes (fun b => (keccak b).1) w.atom a) : Same .address v w
  | bool {b : Bool} : Same .bool (.bool b) (.bool b)
  | fixedBytes {b : Bytes} : Same (.fixedBytes b.length) (.bytes b) (.bytes b)
  | bytes {b : Bytes} : Same .bytes (.bytes b) (.bytes b)
  | string {s : Text} : Same .string (.text s) (.text s)
  | array {t : AbiType} {vs ws : List SynValue} (hlen : vs.length = ws.length)
      (h : ∀ i h₁ h₂, Same t (vs.get ⟨i, h₁⟩) (ws.get ⟨i, h₂⟩)) :
      Same (.array t) (.list vs) (.list ws)
  | fixedArray {t : AbiType} {k : Nat} {vs ws : List SynValue} (hk : vs.length = k)
      (hlen : vs.length = ws.length) (h : ∀ i h₁ h₂, Same t (vs.get ⟨i, h₁⟩) (ws.get ⟨i, h₂⟩)) :
      Same (.fixedArray t k) (.list vs) (.list ws)
  | struct {name : Text} {fields : List (Text × AbiType)} {m m' : SynMap}
      (hdef : defs.lookup name = some fields) (hkeys : HasFields fields m)
      (hkeys' : HasFields fields m')
      (h : ∀ f ∈ fields, ∀ v w, m.lookup f.1 = some v → m'.lookup f.1 = some w → Same f.2 v w) :
      Same (.struct name) (.map m) (.map m')

end Same

/-! ## Hashes -/

section Hashes

variable (keccak : Bytes → Word) (S : Set Bytes) (defs : StructDefs)

/-- The text that is hashed for the type of a struct. -/
def typeBytes (name : Text) (deps : List Text) : Bytes := utf8 (structTexts defs (name :: deps))

/-- The value has the word at the type, and what is hashed for it is in `S`. -/
inductive Hashes : AbiType → SynValue → Bytes → Prop
  | atomic {t : AbiType} {v : SynValue} {path : Text} {w : Bytes}
      (h : encodeAtomic (fun b => (keccak b).1) fname t v.atom path = .ok w) : Hashes t v w
  | string {s : Text} {w : Bytes} (hS : utf8 s ∈ S) (hw : (keccak (utf8 s)).1 = w) :
      Hashes .string (.text s) w
  | bytes {b w : Bytes} (hS : b ∈ S) (hw : (keccak b).1 = w) : Hashes .bytes (.bytes b) w
  | array {t : AbiType} {items : List SynValue} {words : List Bytes} {w : Bytes}
      (hlen : items.length = words.length)
      (h : ∀ i h₁ h₂, Hashes t (items.get ⟨i, h₁⟩) (words.get ⟨i, h₂⟩))
      (hS : words.flatten ∈ S) (hw : (keccak words.flatten).1 = w) :
      Hashes (.array t) (.list items) w
  | fixedArray {t : AbiType} {k : Nat} {items : List SynValue} {words : List Bytes} {w : Bytes}
      (hk : items.length = k) (hlen : items.length = words.length)
      (h : ∀ i h₁ h₂, Hashes t (items.get ⟨i, h₁⟩) (words.get ⟨i, h₂⟩))
      (hS : words.flatten ∈ S) (hw : (keccak words.flatten).1 = w) :
      Hashes (.fixedArray t k) (.list items) w
  | struct {name : Text} {fields : List (Text × AbiType)} {deps : List Text} {m : SynMap}
      {words : List Bytes} {w : Bytes} (hdef : defs.lookup name = some fields)
      (hlisted : Listed defs name deps) (hkeys : HasFields fields m)
      (hlen : fields.length = words.length)
      (h : ∀ i h₁ h₂ v, m.lookup (fields.get ⟨i, h₁⟩).1 = some v →
        Hashes (fields.get ⟨i, h₁⟩).2 v (words.get ⟨i, h₂⟩))
      (htype : typeBytes defs name deps ∈ S)
      (hS : (keccak (typeBytes defs name deps)).1 ++ words.flatten ∈ S)
      (hw : (keccak ((keccak (typeBytes defs name deps)).1 ++ words.flatten)).1 = w) :
      Hashes (.struct name) (.map m) w

end Hashes

/-! ## Words -/

section Words

variable {debug : Text → Text} {keccak : Bytes → Word} {S : Set Bytes} {defs : StructDefs}

theorem length_encodeAtomic {k : Bytes → Bytes} {t : AbiType} {v : Abi.SynValue} {path : Text}
    {w : Bytes} (ht : TypeOk debug fname t) (h : encodeAtomic k fname t v path = .ok w) :
    w.length = 32 := by
  cases t with
  | uint n =>
    obtain ⟨_, m, rfl, -, hm, rfl⟩ := encodeAtomic_uint.mp h
    exact length_magWord (hm.trans_le (Nat.pow_le_pow_right (by decide) ht.2.1))
  | int n =>
    obtain ⟨_, i, rfl, -, hi, rfl⟩ := encodeAtomic_int.mp h
    have hle : (2 : Int) ^ (n - 1) ≤ 2 ^ 255 :=
      pow_le_pow_right₀ (by decide) (by have := ht.2.1; omega)
    exact (signed_intWord ⟨by omega, by omega⟩).1
  | address =>
    obtain ⟨a, ha, hw⟩ := Except.bind_eq_ok.mp h
    obtain rfl := pure_ok.mp hw
    rw [length_append, length_replicate, (addr20_ok.mp ha).length_eq]
  | bool =>
    cases v with
    | bool b =>
      cases h
      rfl
    | _ => cases h
  | fixedBytes k =>
    cases v with
    | bytes b =>
      rw [encodeAtomic, if_fail_ok, not_not] at h
      obtain ⟨rfl, ⟨⟩⟩ := h
      rw [length_append, length_replicate, Nat.add_sub_cancel' ht.2]
    | _ => cases h
  | _ => cases h

theorem Hashes.length_eq {t : AbiType} {v : SynValue} {w : Bytes} (ht : TypeOk debug fname t)
    (h : Hashes keccak S defs t v w) : w.length = 32 := by
  cases h with
  | atomic h => exact length_encodeAtomic ht h
  | string _ hw | bytes _ hw | array _ _ _ hw | fixedArray _ _ _ _ hw
  | struct _ _ _ _ _ _ _ hw => exact hw ▸ (keccak _).2

theorem flatten_words_injective {ws ws' : List Bytes} (hws : ∀ w ∈ ws, w.length = 32)
    (hws' : ∀ w ∈ ws', w.length = 32) (h : ws.flatten = ws'.flatten) : ws = ws' := by
  induction ws generalizing ws' with
  | nil =>
    cases ws' with
    | nil => rfl
    | cons w' ws' =>
      have hw' := (forall_mem_cons.mp hws').1
      rw [(append_eq_nil_iff.mp h.symm).1] at hw'
      cases hw'
  | cons w ws ih =>
    obtain ⟨hw, hws⟩ := forall_mem_cons.mp hws
    cases ws' with
    | nil =>
      rw [(append_eq_nil_iff.mp h).1] at hw
      cases hw
    | cons w' ws' =>
      obtain ⟨hw', hws'⟩ := forall_mem_cons.mp hws'
      obtain ⟨hfirst, hrest⟩ := append_inj h (hw.trans hw'.symm)
      rw [hfirst, ih hws hws' hrest]

end Words

/-! ## Declared fields -/

theorem Hashes.exact {keccak : Bytes → Word} {S : Set Bytes} {defs : StructDefs} {t : AbiType}
    {v : SynValue} {w : Bytes} (h : Hashes keccak S defs t v w) : Exact defs t v := by
  induction h with
  | @atomic t v path w h =>
    cases t with
    | array t | fixedArray t k | struct name => cases h
    | _ => exact .flat trivial
  | string hS hw | bytes hS hw => exact .flat trivial
  | array hlen h hS hw ih =>
    refine .array fun v hv => ?_
    obtain ⟨⟨i, hi⟩, rfl⟩ := get_of_mem hv
    exact ih i hi (hlen ▸ hi)
  | fixedArray hk hlen h hS hw ih =>
    refine .fixedArray hk fun v hv => ?_
    obtain ⟨⟨i, hi⟩, rfl⟩ := get_of_mem hv
    exact ih i hi (hlen ▸ hi)
  | struct hdef hlisted hkeys hlen h htype hS hw ih =>
    refine .struct hdef hkeys fun f hf v hv => ?_
    obtain ⟨⟨i, hi⟩, rfl⟩ := get_of_mem hf
    exact ih i hi (hlen ▸ hi) v hv

/-! ## Without collisions -/

section Injective

variable {debug : Text → Text} {keccak : Bytes → Word} {S : Set Bytes} {defs defs' : StructDefs}

variable {name : Text} {fields : List (Text × AbiType)} {t : AbiType} {w : Bytes}

theorem mem_of_lookup (h : defs.lookup name = some fields) : (name, fields) ∈ defs := by
  obtain ⟨l₁, l₂, rfl, -⟩ := lookup_eq_some_iff.mp h
  exact mem_append_right _ mem_cons_self

theorem structTexts_injective {names names' : List Text} (hdefs : ∀ d ∈ defs, DefOk debug d)
    (hdefs' : ∀ d ∈ defs', DefOk debug d) (hnames : ∀ n ∈ names, Defined defs n)
    (hnames' : ∀ n ∈ names', Defined defs' n)
    (h : structTexts defs names = structTexts defs' names') :
    names = names' ∧ ∀ n ∈ names, defs.lookup n = defs'.lookup n := by
  have hok : ∀ {defs : StructDefs} {names : List Text}, (∀ d ∈ defs, DefOk debug d) →
      (∀ n ∈ names, Defined defs n) →
        ∀ d ∈ names.map fun n => (n, (defs.lookup n).getD []), DefOk debug d := by
    intro defs names hdefs hnames d hd
    obtain ⟨n, hn, rfl⟩ := mem_map.mp hd
    obtain ⟨fields, hfields⟩ := Option.isSome_iff_exists.mp (hnames n hn)
    rw [hfields]
    exact hdefs _ (mem_of_lookup hfields)
  have hmap : names.map (fun n => (n, (defs.lookup n).getD [])) =
      names'.map fun n => (n, (defs'.lookup n).getD []) := by
    refine flatMap_structText_injective (hok hdefs hnames) (hok hdefs' hnames') ?_
    rw [flatMap_map, flatMap_map]
    exact h
  have hnames_eq := congrArg (List.map Prod.fst) hmap
  rw [map_map, map_map] at hnames_eq
  have heq : names = names' := by simpa [Function.comp_def] using hnames_eq
  subst heq
  refine ⟨rfl, fun n hn => ?_⟩
  have hget := (Prod.mk.inj (map_inj_left.mp hmap n hn)).2
  obtain ⟨fields, hfields⟩ := Option.isSome_iff_exists.mp (hnames n hn)
  obtain ⟨fields', hfields'⟩ := Option.isSome_iff_exists.mp (hnames' n hn)
  rw [hfields, hfields'] at hget ⊢
  exact congrArg some hget

theorem Listed.of_typeBytes {name' : Text} {deps deps' : List Text}
    (hdefs : ∀ d ∈ defs, DefOk debug d) (hdefs' : ∀ d ∈ defs', DefOk debug d)
    (hl : Listed defs name deps) (hl' : Listed defs' name' deps')
    (h : typeBytes defs name deps = typeBytes defs' name' deps') :
    name = name' ∧ ∀ n, ReflTransGen (Refs defs) name n → defs.lookup n = defs'.lookup n := by
  obtain ⟨hnames, hlookup⟩ :=
    structTexts_injective hdefs hdefs' hl.defined hl'.defined (utf8_injective h)
  exact ⟨(cons.inj hnames).1, fun n hn => hlookup n (hl.mem_cons.mpr hn)⟩

theorem same_of_encodeAtomic {v v' : SynValue} {path path' : Text} (ht : TypeOk debug fname t)
    (h : encodeAtomic (fun b => (keccak b).1) fname t v.atom path = .ok w)
    (h' : encodeAtomic (fun b => (keccak b).1) fname t v'.atom path' = .ok w) :
    Same keccak defs t v v' := by
  have hnumber : ∀ {v : SynValue} {k : Number}, v.atom = .number k → v = .number k := by
    intro v k hv
    cases v with
    | number l =>
      cases hv
      rfl
    | _ => cases hv
  cases t with
  | uint n =>
    obtain ⟨k, m, hv, hk, -, hw⟩ := encodeAtomic_uint.mp h
    obtain ⟨k', m', hv', hk', -, hw'⟩ := encodeAtomic_uint.mp h'
    have hm : m = m' := by rw [← beNat_magWord m, hw, ← hw', beNat_magWord]
    rw [hnumber hv, hnumber hv']
    exact .uint hk (hm ▸ hk')
  | int n =>
    obtain ⟨k, i, hv, hk, hi, hw⟩ := encodeAtomic_int.mp h
    obtain ⟨k', i', hv', hk', hi', hw'⟩ := encodeAtomic_int.mp h'
    have hle : (2 : Int) ^ (n - 1) ≤ 2 ^ 255 :=
      pow_le_pow_right₀ (by decide) (by have := ht.2.1; omega)
    have hii : i = i' := by
      rw [← (signed_intWord (i := i) ⟨by omega, by omega⟩).2, hw, ← hw',
        (signed_intWord (i := i') ⟨by omega, by omega⟩).2]
    rw [hnumber hv, hnumber hv']
    exact .int hk (hii ▸ hk')
  | address =>
    obtain ⟨a, ha, hw⟩ := Except.bind_eq_ok.mp h
    obtain ⟨a', ha', hw'⟩ := Except.bind_eq_ok.mp h'
    have haa : a = a' :=
      append_cancel_left ((pure_ok.mp hw).trans (pure_ok.mp hw').symm)
    exact .address (addr20_ok.mp ha) (addr20_ok.mp (haa ▸ ha'))
  | bool =>
    cases v with
    | bool b =>
      cases v' with
      | bool b' =>
        cases h
        have hbit : b = b' := by
          cases b <;> cases b' <;> first | rfl | cases h'
        rw [hbit]
        exact .bool
      | _ => cases h'
    | _ => cases h
  | fixedBytes k =>
    cases v with
    | bytes b =>
      cases v' with
      | bytes b' =>
        rw [SynValue.atom, encodeAtomic, if_fail_ok, not_not] at h h'
        obtain ⟨rfl, hw⟩ := h
        obtain ⟨hlen, hw'⟩ := h'
        have hb := (Except.ok.inj hw).trans (Except.ok.inj hw').symm
        rw [(append_inj hb hlen.symm).1.symm]
        exact .fixedBytes
      | _ => cases h'
    | _ => cases h
  | _ => cases h

theorem fieldsOk_of_lookup (hdefs : ∀ d ∈ defs, DefOk debug d) (h : defs.lookup name = some fields)
    : ∀ f ∈ fields, TypeOk debug fname f.2 :=
  fun f hf => ((hdefs _ (mem_of_lookup h)).fields f hf).type

theorem length_of_fields {m : SynMap} {words : List Bytes}
    (hfields : ∀ f ∈ fields, TypeOk debug fname f.2) (hkeys : HasFields fields m)
    (hlen : fields.length = words.length)
    (h : ∀ i h₁ h₂ v, m.lookup (fields.get ⟨i, h₁⟩).1 = some v →
      Hashes keccak S defs (fields.get ⟨i, h₁⟩).2 v (words.get ⟨i, h₂⟩)) :
    ∀ w ∈ words, w.length = 32 := by
  intro w hw
  obtain ⟨⟨i, hi⟩, rfl⟩ := get_of_mem hw
  have hmem := get_mem fields ⟨i, hlen ▸ hi⟩
  obtain ⟨v, hv⟩ := Option.isSome_iff_exists.mp ((hkeys _).mpr ⟨_, hmem, rfl⟩)
  exact (h i (hlen ▸ hi) hi v hv).length_eq (hfields _ hmem)

theorem same_items {items items' : List SynValue} {words words' : List Bytes}
    (ht : TypeOk debug fname t) (hinj : Set.InjOn keccak S)
    (hlen : items.length = words.length)
    (h : ∀ i h₁ h₂, Hashes keccak S defs t (items.get ⟨i, h₁⟩) (words.get ⟨i, h₂⟩))
    (hS : words.flatten ∈ S) (hw : (keccak words.flatten).1 = w)
    (hlen' : items'.length = words'.length)
    (h' : ∀ i h₁ h₂, Hashes keccak S defs' t (items'.get ⟨i, h₁⟩) (words'.get ⟨i, h₂⟩))
    (hS' : words'.flatten ∈ S) (hw' : (keccak words'.flatten).1 = w)
    (ih : ∀ i h₁ h₂ v', Hashes keccak S defs' t v' (words.get ⟨i, h₂⟩) →
      Same keccak defs t (items.get ⟨i, h₁⟩) v') :
    items.length = items'.length ∧
      ∀ i h₁ h₂, Same keccak defs t (items.get ⟨i, h₁⟩) (items'.get ⟨i, h₂⟩) := by
  have hwords : words = words' := by
    refine flatten_words_injective ?_ ?_ (hinj hS hS' (Subtype.ext (hw.trans hw'.symm)))
    · intro word hword
      obtain ⟨⟨i, hi⟩, rfl⟩ := get_of_mem hword
      exact (h i (hlen ▸ hi) hi).length_eq ht
    · intro word hword
      obtain ⟨⟨i, hi⟩, rfl⟩ := get_of_mem hword
      exact (h' i (hlen' ▸ hi) hi).length_eq ht
  subst hwords
  exact ⟨hlen.trans hlen'.symm, fun i h₁ h₂ => ih i h₁ (hlen ▸ h₁) _ (h' i h₂ (hlen ▸ h₁))⟩

theorem Hashes.same (hdefs : ∀ d ∈ defs, DefOk debug d) (hdefs' : ∀ d ∈ defs', DefOk debug d)
    (hinj : Set.InjOn keccak S) {v v' : SynValue} (ht : TypeOk debug fname t)
    (h : Hashes keccak S defs t v w) (h' : Hashes keccak S defs' t v' w) :
    Same keccak defs t v v' := by
  induction h generalizing v' with
  | atomic h =>
    cases h' with
    | atomic h' => exact same_of_encodeAtomic ht h h'
    | _ => cases h
  | string hS hw =>
    cases h' with
    | atomic h' => cases h'
    | string hS' hw' =>
      rw [utf8_injective (hinj hS hS' (Subtype.ext (hw.trans hw'.symm)))]
      exact .string
  | bytes hS hw =>
    cases h' with
    | atomic h' => cases h'
    | bytes hS' hw' =>
      rw [hinj hS hS' (Subtype.ext (hw.trans hw'.symm))]
      exact .bytes
  | @array t _ _ _ hlen h hS hw ih =>
    have hitem : TypeOk debug fname t := ht
    cases h' with
    | atomic h' => cases h'
    | array hlen' h' hS' hw' =>
      obtain ⟨hitems, hsame⟩ := same_items hitem hinj hlen h hS hw hlen' h' hS' hw'
        fun i h₁ h₂ _ hv => ih i h₁ h₂ hitem hv
      exact .array hitems hsame
  | fixedArray hk hlen h hS hw ih =>
    cases h' with
    | atomic h' => cases h'
    | fixedArray hk' hlen' h' hS' hw' =>
      obtain ⟨hitems, hsame⟩ := same_items ht.1 hinj hlen h hS hw hlen' h' hS' hw'
        fun i h₁ h₂ _ hv => ih i h₁ h₂ ht.1 hv
      exact .fixedArray hk hitems hsame
  | @struct name fields deps m words w hdef hlisted hkeys hlen h htype hS hw ih =>
    cases h' with
    | atomic h' => cases h'
    | @struct _ fields' deps' m' words' _ hdef' hlisted' hkeys' hlen' h' htype' hS' hw' =>
      obtain ⟨hfirst, hrest⟩ := append_inj (hinj hS hS' (Subtype.ext (hw.trans hw'.symm)))
        ((keccak _).2.trans (keccak _).2.symm)
      have htext := hinj htype htype' (Subtype.ext hfirst)
      -- the two structs are defined in the same way
      have hlookup := (hlisted.of_typeBytes hdefs hdefs' hlisted' htext).2 name .refl
      obtain rfl := Option.some.inj (hdef.symm.trans (hlookup.trans hdef'))
      have hfields := fieldsOk_of_lookup hdefs hdef
      have hwords : words = words' := by
        refine flatten_words_injective ?_ ?_ hrest
        · exact length_of_fields hfields hkeys hlen h
        · exact length_of_fields hfields hkeys' hlen' h'
      subst hwords
      refine .struct hdef hkeys hkeys' fun f hf v v' hv hv' => ?_
      obtain ⟨⟨i, hi⟩, rfl⟩ := get_of_mem hf
      exact ih i hi (hlen ▸ hi) v hv (hfields _ hf) (h' i hi (hlen ▸ hi) v' hv')

end Injective

end Synsema.Eip712
