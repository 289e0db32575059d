import Synsema.Eip712.Hashes

/-!
# What a digest binds

`encode_712_value`, `hash_struct` and `domain_separator` give hashes of typed data, the domain as a
struct of its own.  An EIP-712 digest fixes the domain, the definitions of the primary type and of
all that it refers to, and the message (`eip712_binds`).
-/

namespace Synsema.Eip712

open Text Bytesutil List
open Except (bind_eq_ok)
open Abi hiding SynValue encodeItems Encoder
open Blockchain (Stop)
open Relation (ReflTransGen TransGen)
open Asking (Gives gives_pure gives_lift gives_ask gives_bind result_bind)

section Runs

variable {debug : Text → Text} {keccak : Bytes → Word} {S : Set Bytes} {defs : StructDefs}

variable {w : Bytes} {path name : Text} {i : Nat} {m : List (Text × Encoder)} {entries : SynMap}
  {fields : List (Text × AbiType)} {v domain types : SynValue}

theorem gives_digest {b : Bytes} :
    Gives S (digest keccak b) w ↔ (keccak b).1 = w ∧ b ∈ S := gives_ask

theorem not_gives_refuse {α : Type} {message : Text} {a : α} :
    ¬ Gives S (refuse message) a := fun h => nomatch h.1

/-! ## Values -/

/-- What the encoder gives is the hash of the value. -/
def Encodes (keccak : Bytes → Word) (S : Set Bytes) (defs : StructDefs) (enc : Encoder)
    (v : SynValue) : Prop :=
  ∀ t path w, Gives S (enc t path) w → Hashes keccak S defs t v w

theorem encodeItems_gives {inner : AbiType} {encs : List Encoder} {items : List SynValue}
    (hitems : Forall₂ (Encodes keccak S defs) encs items)
    (h : Gives S (encodeItems inner path i encs) w) :
    ∃ words, w = words.flatten ∧ Forall₂ (Hashes keccak S defs inner) items words := by
  induction hitems generalizing i w with
  | nil =>
    obtain rfl := gives_pure.mp h
    exact ⟨[], rfl, .nil⟩
  | cons hv _ ih =>
    obtain ⟨word, hword, h⟩ := gives_bind.mp h
    obtain ⟨rest, hrest, h⟩ := gives_bind.mp h
    obtain rfl := gives_pure.mp h
    obtain ⟨words, rfl, hwords⟩ := ih hrest
    exact ⟨word :: words, rfl, .cons (hv _ _ _ hword) hwords⟩

/-- The encoders of the entries of a map. -/
def EncodesMap (keccak : Bytes → Word) (S : Set Bytes) (defs : StructDefs)
    (m : List (Text × Encoder)) (entries : SynMap) : Prop :=
  Forall₂ (fun e e' => e.1 = e'.1 ∧ Encodes keccak S defs e.2 e'.2) m entries

theorem EncodesMap.lookup {key : Text} {enc : Encoder} (h : EncodesMap keccak S defs m entries)
    (hkey : m.lookup key = some enc) :
    ∃ v, entries.lookup key = some v ∧ Encodes keccak S defs enc v := by
  induction h with
  | nil => cases hkey
  | @cons e e' m entries he _ ih =>
    rw [lookup_cons] at hkey ⊢
    rw [← he.1]
    cases hkeys : key == e.1 with
    | true =>
      rw [hkeys] at hkey
      cases hkey
      exact ⟨e'.2, rfl, he.2⟩
    | false =>
      rw [hkeys] at hkey
      exact ih hkey

theorem encodeFields_gives (hm : EncodesMap keccak S defs m entries)
    (h : Gives S (encodeFields debug name path m fields) w) :
    ∃ words, w = words.flatten ∧ Forall₂ (fun f word => ∃ v, entries.lookup f.1 = some v ∧
      Hashes keccak S defs f.2 v word) fields words := by
  induction fields generalizing w with
  | nil =>
    obtain rfl := gives_pure.mp h
    exact ⟨[], rfl, .nil⟩
  | cons f fields ih =>
    rw [encodeFields] at h
    cases henc : m.lookup f.1 with
    | none =>
      rw [henc] at h
      exact (not_gives_refuse h).elim
    | some enc =>
      rw [henc] at h
      obtain ⟨word, hword, h⟩ := gives_bind.mp h
      obtain ⟨rest, hrest, h⟩ := gives_bind.mp h
      obtain rfl := gives_pure.mp h
      obtain ⟨words, rfl, hwords⟩ := ih hrest
      obtain ⟨v, hv, hencodes⟩ := hm.lookup henc
      exact ⟨word :: words, rfl, .cons ⟨v, hv, hencodes _ _ _ hword⟩ hwords⟩

theorem exists_field_of_find? {key : Text}
    (hknown : (entries.find? fun e => !fields.any fun f => f.1 = e.1) = none)
    (hkey : (entries.lookup key).isSome) : ∃ f ∈ fields, f.1 = key := by
  obtain ⟨e, he, heq⟩ := lookup_isSome_iff.mp hkey
  have hnot := find?_eq_none.mp hknown e he
  rw [Bool.not_eq_true, Bool.not_eq_false', any_eq_true] at hnot
  obtain ⟨f, hf, hfe⟩ := hnot
  exact ⟨f, hf, (of_decide_eq_true hfe).trans (beq_iff_eq.mp heq).symm⟩

theorem hashes_struct {text : Text}
    {words : List Bytes} (hdef : defs.lookup name = some fields)
    (htext : encodeType debug defs name = .ok text)
    (hknown : ∀ key, (entries.lookup key).isSome → ∃ f ∈ fields, f.1 = key)
    (hwords : Forall₂ (fun f word => ∃ v, entries.lookup f.1 = some v ∧
      Hashes keccak S defs f.2 v word) fields words)
    (htype : utf8 text ∈ S) (hS : (keccak (utf8 text)).1 ++ words.flatten ∈ S)
    (hw : (keccak ((keccak (utf8 text)).1 ++ words.flatten)).1 = w) :
    Hashes keccak S defs (.struct name) (.map entries) w := by
  obtain ⟨deps, hlisted, rfl⟩ := encodeType_ok (Option.isSome_of_mem hdef) htext
  obtain ⟨hlen, hget⟩ := forall₂_iff_get.mp hwords
  refine .struct hdef hlisted (fun key => ⟨hknown key, ?_⟩) hlen ?_ htype hS hw
  · rintro ⟨f, hf, rfl⟩
    obtain ⟨⟨i, hi⟩, rfl⟩ := get_of_mem hf
    obtain ⟨v, hv, -⟩ := hget i hi (hlen ▸ hi)
    exact Option.isSome_of_mem hv
  · intro i h₁ h₂ v hv
    obtain ⟨v', hv', hhash⟩ := hget i h₁ h₂
    obtain rfl := Option.some.inj (hv.symm.trans hv')
    exact hhash

theorem hashStruct_gives (hm : ∀ entries, v = .map entries → EncodesMap keccak S defs m entries)
    (h : Gives S (hashStruct debug keccak defs name v path m) w) :
    Hashes keccak S defs (.struct name) v w := by
  rw [hashStruct] at h
  cases hdef : defs.lookup name with
  | none =>
    rw [hdef] at h
    exact (not_gives_refuse h).elim
  | some fields =>
    rw [hdef] at h
    cases v with
    | map entries =>
      dsimp only at h
      cases hknown : entries.find? fun e => !fields.any fun f => f.1 = e.1 with
      | some e =>
        rw [hknown] at h
        exact (not_gives_refuse h).elim
      | none =>
        rw [hknown] at h
        obtain ⟨text, htext, h⟩ := gives_bind.mp h
        obtain ⟨typeHash, hfirst, h⟩ := gives_bind.mp h
        obtain ⟨data, hdata, h⟩ := gives_bind.mp h
        obtain ⟨words, rfl, hwords⟩ := encodeFields_gives (hm entries rfl) hdata
        obtain ⟨rfl, htype⟩ := gives_digest.mp hfirst
        obtain ⟨hw, hS⟩ := gives_digest.mp h
        exact hashes_struct hdef (gives_lift.mp htext)
          (fun _ => exists_field_of_find? hknown) hwords htype hS hw
    | _ => exact (not_gives_refuse h).elim

theorem checkList_gives {u : Unit} (h : Gives S (checkList v path) u) :
    ∃ items, v = .list items := by
  cases v with
  | list items => exact ⟨items, rfl⟩
  | _ => exact (not_gives_refuse h).elim

theorem encodeWith_gives {encs : List Encoder}
    (hitems : ∀ items, v = .list items → Forall₂ (Encodes keccak S defs) encs items)
    (hm : ∀ entries, v = .map entries → EncodesMap keccak S defs m entries) :
    Encodes keccak S defs (encodeWith debug keccak defs v encs m) v := by
  intro t path w h
  cases t with
  | struct name => exact hashStruct_gives hm h
  | string =>
    cases v with
    | text s =>
      obtain ⟨hw, hS⟩ := gives_digest.mp h
      exact .string hS hw
    | _ => exact (not_gives_refuse h).elim
  | bytes =>
    cases v with
    | bytes b =>
      obtain ⟨hw, hS⟩ := gives_digest.mp h
      exact .bytes hS hw
    | _ => exact (not_gives_refuse h).elim
  | array inner =>
    obtain ⟨_, hlist, h⟩ := gives_bind.mp h
    obtain ⟨concat, hconcat, h⟩ := gives_bind.mp h
    obtain ⟨items, rfl⟩ := checkList_gives hlist
    obtain ⟨words, rfl, hwords⟩ := encodeItems_gives (hitems items rfl) hconcat
    obtain ⟨hw, hS⟩ := gives_digest.mp h
    obtain ⟨hlen, hget⟩ := forall₂_iff_get.mp hwords
    exact .array hlen hget hS hw
  | fixedArray inner k =>
    obtain ⟨_, hlist, hrest⟩ := gives_bind.mp h
    by_cases hk : encs.length ≠ k
    · rw [if_pos hk] at hrest
      exact (not_gives_refuse hrest).elim
    · rw [if_neg hk] at hrest
      obtain ⟨items, rfl⟩ := checkList_gives hlist
      obtain ⟨concat, hconcat, h⟩ := gives_bind.mp hrest
      obtain ⟨words, rfl, hwords⟩ := encodeItems_gives (hitems items rfl) hconcat
      obtain ⟨hw, hS⟩ := gives_digest.mp h
      obtain ⟨hlen, hget⟩ := forall₂_iff_get.mp hwords
      exact .fixedArray ((hitems items rfl).length_eq.symm.trans (not_not.mp hk)) hlen hget hS hw
  | _ => exact .atomic (gives_lift.mp h)

mutual

theorem encode712Value_gives : (v : SynValue) →
    Encodes keccak S defs (encode712Value debug keccak defs v) v
  | .list items => by
    rw [encode712Value]
    refine encodeWith_gives ?_ nofun
    rintro items' ⟨⟩
    exact itemEncoders_gives items
  | .map entries => by
    rw [encode712Value]
    refine encodeWith_gives nofun ?_
    rintro entries' ⟨⟩
    exact entryEncoders_gives entries
  | .bool b => encodeWith_gives nofun nofun
  | .number n => encodeWith_gives nofun nofun
  | .text t => encodeWith_gives nofun nofun
  | .bytes b => encodeWith_gives nofun nofun
  | .secret => encodeWith_gives nofun nofun
  | .other name => encodeWith_gives nofun nofun

theorem itemEncoders_gives : (items : List SynValue) →
    Forall₂ (Encodes keccak S defs) (itemEncoders debug keccak defs items) items
  | [] => .nil
  | v :: vs => .cons (encode712Value_gives v) (itemEncoders_gives vs)

theorem entryEncoders_gives : (entries : List (Text × SynValue)) →
    EncodesMap keccak S defs (entryEncoders debug keccak defs entries) entries
  | [] => .nil
  | (_, v) :: es => .cons ⟨rfl, encode712Value_gives v⟩ (entryEncoders_gives es)

end

/-! ## The domain -/

/-- The name of the struct of the domain. -/
def domainName : Text := "EIP712Domain"

theorem isName_domainName : IsName debug fname domainName where
  ne_nil := by decide
  ident := by decide
  struct := rfl

theorem encodeType_single (h : ∀ f ∈ fields, structRef f.2 = none) :
    encodeType debug [(name, fields)] name = .ok (structText name fields) := by
  have hlookup : List.lookup name [(name, fields)] = some fields := by
    rw [lookup_cons, beq_self_eq_true]
  have hloop : ∀ {fs : List (Text × AbiType)} {seen : List Text}, (∀ f ∈ fs, structRef f.2 = none) →
      fs.foldlM (collectField debug [(name, fields)] maxDepth name []) seen = .ok seen := by
    intro fs
    induction fs with
    | nil =>
      intro seen _
      rfl
    | cons f fs ih =>
      intro seen hfs
      obtain ⟨hf, hfs⟩ := forall_mem_cons.mp hfs
      rw [foldlM_cons, collectField, hf]
      exact ih hfs
  have hseen : collect debug [(name, fields)] (maxDepth + 1) name [] [] = .ok [name] := by
    rw [collect_succ not_mem_nil not_mem_nil hlookup]
    exact hloop h
  refine bind_eq_ok.mpr ⟨[name], hseen, ?_⟩
  have hfilter : [name].filter (fun n => n ≠ name) = [] := by
    rw [filter_cons_of_neg (by simp), filter_nil]
  rw [hfilter]
  change Except.ok (structText name ((List.lookup name [(name, fields)]).getD []) ++ []) = _
  rw [hlookup, append_nil]
  rfl

theorem domainFields_ok : ∀ f ∈ domainFields, FieldOk debug f ∧ structRef f.2 = none := by
  have hwidth : TypeOk debug fname (.uint 256) := ⟨by decide, le_rfl, rfl⟩
  have hsalt : TypeOk debug fname (.fixedBytes 32) := ⟨by decide, le_rfl⟩
  rw [domainFields, forall_mem_cons, forall_mem_cons, forall_mem_cons, forall_mem_cons,
    forall_mem_singleton]
  exact ⟨⟨⟨by decide, trivial⟩, rfl⟩, ⟨⟨by decide, trivial⟩, rfl⟩, ⟨⟨by decide, hwidth⟩, rfl⟩,
    ⟨⟨by decide, trivial⟩, rfl⟩, ⟨⟨by decide, hsalt⟩, rfl⟩⟩

theorem domainDefs_ok (h : fields.Sublist domainFields) :
    ∀ d ∈ [(domainName, fields)], DefOk debug d := by
  refine forall_mem_singleton.mpr ⟨isName_domainName, fun f hf => ?_⟩
  exact (domainFields_ok f (h.subset hf)).1

theorem domainWord_gives {t : AbiType} (h : Gives S (domainWord keccak t v path) w) :
    Hashes keccak S defs t v w := by
  cases t with
  | string =>
    cases v with
    | text s =>
      obtain ⟨hw, hS⟩ := gives_digest.mp h
      exact .string hS hw
    | _ => exact (not_gives_refuse h).elim
  | _ => exact .atomic (gives_lift.mp h)

theorem domainWords_gives {m : SynMap} (h : Gives S (domainWords keccak m fields) w) :
    ∃ words, w = words.flatten ∧ Forall₂ (fun f word => ∃ v, m.lookup f.1 = some v ∧
      Hashes keccak S defs f.2 v word) fields words := by
  induction fields generalizing w with
  | nil =>
    obtain rfl := gives_pure.mp h
    exact ⟨[], rfl, .nil⟩
  | cons f fields ih =>
    rw [domainWords] at h
    cases hv : m.lookup f.1 with
    | none =>
      rw [hv] at h
      cases gives_lift.mp h
    | some v =>
      rw [hv] at h
      obtain ⟨word, hword, h⟩ := gives_bind.mp h
      obtain ⟨rest, hrest, h⟩ := gives_bind.mp h
      obtain rfl := gives_pure.mp h
      obtain ⟨words, rfl, hwords⟩ := ih hrest
      exact ⟨word :: words, rfl, .cons ⟨v, hv, domainWord_gives hword⟩ hwords⟩

theorem domainSeparator_gives (h : Gives S (domainSeparator debug keccak defs domain) w) :
    ∃ fields, fields.Sublist domainFields ∧
      Hashes keccak S [(domainName, fields)] (.struct domainName) domain w := by
  cases domain with
  | map m =>
    dsimp only [domainSeparator] at h
    cases hknown : m.find? fun e => !domainFields.any fun f => f.1 = e.1 with
    | some e =>
      rw [hknown] at h
      exact (not_gives_refuse h).elim
    | none =>
      rw [hknown] at h
      dsimp only at h
      split_ifs at h with hdeclared
      · exact (not_gives_refuse h).elim
      · obtain ⟨typeHash, hfirst, h⟩ := gives_bind.mp h
        obtain ⟨data, hdata, h⟩ := gives_bind.mp h
        obtain ⟨words, rfl, hwords⟩ := domainWords_gives hdata
        obtain ⟨rfl, htype⟩ := gives_digest.mp hfirst
        obtain ⟨hw, hS⟩ := gives_digest.mp h
        have hflat : ∀ f ∈ domainFields.filter fun f => (m.lookup f.1).isSome,
            structRef f.2 = none := fun f hf =>
          (@domainFields_ok debug f (mem_filter.mp hf).1).2
        have htext := @encodeType_single debug domainName _ hflat
        refine ⟨domainFields.filter fun f => (m.lookup f.1).isSome, filter_sublist, ?_⟩
        refine hashes_struct ?_ htext ?_ hwords htype hS hw
        · rw [lookup_cons, beq_self_eq_true]
        · intro key hkey
          obtain ⟨f, hf, rfl⟩ := exists_field_of_find? hknown hkey
          exact ⟨f, mem_filter.mpr ⟨hf, hkey⟩, rfl⟩
  | _ => exact (not_gives_refuse h).elim

/-! ## Definitions -/

/-- The names of the fields of all structs are identifiers. -/
def FieldNames (debug : Text → Text) (types : SynValue) : Prop :=
  ∀ defs, parseTypes debug types = .ok defs → ∀ d ∈ defs, ∀ f ∈ d.2, f.1.all isIdent = true

theorem checkName_ok {u : Unit} (h : checkName debug name = .ok u) : IsName debug fname name := by
  rw [checkName] at h
  by_cases hname : name = "EIP712Domain"
  · rw [hname]
    exact isName_domainName
  · rw [if_neg hname] at h
    split at h
    · exact isName_of_parseType ‹_›
    · cases h

theorem parseField_ok {tname : Text} {f : Text × AbiType} (h : parseField debug tname i v = .ok f) :
    TypeOk debug fname f.2 := by
  cases v with
  | map fm =>
    dsimp only [parseField] at h
    split at h
    · cases h
    · cases h
    · obtain ⟨t, ht, h⟩ := bind_eq_ok.mp h
      rw [if_fail_ok, Bool.not_eq_true] at h
      obtain ⟨htuple, ⟨⟩⟩ := h
      exact parseSingleType_ok ht htuple
    · cases h
  | _ => cases h

theorem parseFields_ok {tname : Text} {l : List SynValue}
    (h : parseFields debug tname i l = .ok fields) : ∀ f ∈ fields, TypeOk debug fname f.2 := by
  induction l generalizing i fields with
  | nil =>
    cases h
    nofun
  | cons v l ih =>
    obtain ⟨f, hf, h⟩ := bind_eq_ok.mp h
    obtain ⟨fs, hfs, h⟩ := bind_eq_ok.mp h
    cases h
    exact forall_mem_cons.mpr ⟨parseField_ok hf, ih hfs⟩

theorem parseDef_ok {d : Text × List (Text × AbiType)} (h : parseDef debug name v = .ok d) :
    IsName debug fname d.1 ∧ ∀ f ∈ d.2, TypeOk debug fname f.2 := by
  obtain ⟨u, hname, h⟩ := bind_eq_ok.mp h
  cases v with
  | list l =>
    obtain ⟨fields, hfields, h⟩ := bind_eq_ok.mp h
    cases h
    exact ⟨checkName_ok hname, parseFields_ok hfields⟩
  | _ => cases h

theorem parseTypes_ok (hnames : FieldNames debug types) (h : parseTypes debug types = .ok defs) :
    ∀ d ∈ defs, DefOk debug d := by
  have hfields := hnames defs h
  cases types with
  | map m =>
    intro d hd
    obtain ⟨e, -, he⟩ := Except.exists_of_mem_mapM h hd
    obtain ⟨hname, htypes⟩ := parseDef_ok he
    exact ⟨hname, fun f hf => ⟨hfields d hd f hf, htypes f hf⟩⟩
  | _ => cases h

/-! ## The digest -/

theorem eip712Digest_gives {primary message : SynValue} {d : Bytes}
    (h : Gives S (eip712Digest debug keccak domain types primary message) d) :
    ∃ defs name fields dsep mhash, parseTypes debug types = .ok defs ∧ primary = .text name ∧
      Defined defs name ∧ fields.Sublist domainFields ∧
      Hashes keccak S [(domainName, fields)] (.struct domainName) domain dsep ∧
      Hashes keccak S defs (.struct name) message mhash ∧
      (keccak ([0x19, 0x01] ++ (dsep ++ mhash))).1 = d ∧ [0x19, 0x01] ++ (dsep ++ mhash) ∈ S := by
  obtain ⟨defs, hdefs, h⟩ := gives_bind.mp h
  cases primary with
  | text name =>
    dsimp only at h
    split_ifs at h with hdomain hdefined
    · exact (not_gives_refuse h).elim
    · exact (not_gives_refuse h).elim
    · obtain ⟨dsep, hdsep, h⟩ := gives_bind.mp h
      obtain ⟨mhash, hmhash, h⟩ := gives_bind.mp h
      obtain ⟨fields, hfields, hdsep⟩ := domainSeparator_gives hdsep
      obtain ⟨hd, hS⟩ := gives_digest.mp h
      exact ⟨defs, name, fields, dsep, mhash, gives_lift.mp hdefs, rfl,
        Bool.of_not_eq_false hdefined, hfields, hdsep, encode712Value_gives message _ _ _ hmhash,
        hd, hS⟩
  | _ => exact (not_gives_refuse h).elim

theorem Hashes.same_struct {defs' : StructDefs} {name' : Text} {v' : SynValue}
    (hdefs : ∀ d ∈ defs, DefOk debug d) (hdefs' : ∀ d ∈ defs', DefOk debug d)
    (hinj : Set.InjOn keccak S) (h : Hashes keccak S defs (.struct name) v w)
    (h' : Hashes keccak S defs' (.struct name') v' w) :
    name = name' ∧ ∀ n, ReflTransGen (Refs defs) name n → defs.lookup n = defs'.lookup n := by
  cases h with
  | atomic h => cases h
  | struct hdef hlisted hkeys hlen h htype hS hw =>
    cases h' with
    | atomic h' => cases h'
    | struct hdef' hlisted' hkeys' hlen' h' htype' hS' hw' =>
      have happend := hinj hS hS' (Subtype.ext (hw.trans hw'.symm))
      obtain ⟨hfirst, -⟩ := append_inj happend ((keccak _).2.trans (keccak _).2.symm)
      exact hlisted.of_typeBytes hdefs hdefs' hlisted' (hinj htype htype' (Subtype.ext hfirst))

/-! ## Errors -/

theorem intValue_ends {v : Abi.SynValue} {f : Text} : Ends (intValue v path f) := by
  cases v with
  | number k =>
    rw [intValue]
    cases asBigint k with
    | none => exact fail_ends
    | some i => exact ok_ends
  | _ => exact fail_ends

theorem addr20_ends {k : Bytes → Bytes} {v : Abi.SynValue} {f : Text} :
    Ends (addr20 k v path f) := by
  cases v with
  | bytes b => exact if_fail_ends fun _ => ok_ends
  | text s =>
    rw [addr20]
    cases stripHexPrefix s with
    | none => exact fail_ends
    | some hexs =>
      refine if_fail_ends fun _ => ?_
      cases hexPairs hexs with
      | none => exact fail_ends
      | some raw => exact if_fail_ends fun _ => ok_ends
  | _ => exact fail_ends

theorem domainWord_ends {f : Text × AbiType} (hf : f ∈ domainFields) :
    Ends (domainWord keccak f.2 v path).result := by
  have hstring : Ends (domainWord keccak .string v path).result := by
    cases v with
    | text s => exact ok_ends
    | _ => exact fail_ends
  have huint : Ends (domainWord keccak (.uint 256) v path).result :=
    bind_ends intValue_ends fun _ _ => if_fail_ends fun _ => if_fail_ends fun _ => ok_ends
  have haddress : Ends (domainWord keccak .address v path).result :=
    bind_ends addr20_ends fun _ _ => ok_ends
  have hbytes : Ends (domainWord keccak (.fixedBytes 32) v path).result := by
    cases v with
    | bytes b => exact if_fail_ends fun _ => ok_ends
    | _ => exact fail_ends
  rw [domainFields] at hf
  simp only [List.mem_cons, not_mem_nil, or_false] at hf
  rcases hf with rfl | rfl | rfl | rfl | rfl
  · exact hstring
  · exact hstring
  · exact huint
  · exact haddress
  · exact hbytes

theorem domainWords_ends {m : SynMap}
    (hfields : ∀ f ∈ fields, f ∈ domainFields ∧ (m.lookup f.1).isSome) :
    Ends (domainWords keccak m fields).result := by
  induction fields with
  | nil => exact ok_ends
  | cons f fields ih =>
    obtain ⟨⟨hf, hthere⟩, hfields⟩ := forall_mem_cons.mp hfields
    obtain ⟨v, hv⟩ := Option.isSome_iff_exists.mp hthere
    rw [domainWords, hv]
    dsimp only
    rw [result_bind]
    refine bind_ends (domainWord_ends hf) fun word _ => ?_
    rw [result_bind]
    exact bind_ends (ih hfields) fun _ _ => ok_ends

theorem domainSeparator_ends :
    Ends (domainSeparator debug keccak defs domain).result := by
  cases domain with
  | map m =>
    dsimp only [domainSeparator]
    cases m.find? fun e => !domainFields.any fun f => f.1 = e.1 with
    | some e => exact fail_ends
    | none =>
      dsimp only
      split_ifs
      · exact fail_ends
      · rw [result_bind]
        refine bind_ends ok_ends fun typeHash _ => ?_
        rw [result_bind]
        refine bind_ends (domainWords_ends fun f hf => ?_) fun _ _ => ok_ends
        exact mem_filter.mp hf
  | _ => exact fail_ends

theorem hashStruct_error {message : Text} (h : encodeType debug defs name = .error (.err message)) :
    ∃ message, (hashStruct debug keccak defs name v path m).result = .error (.err message) := by
  rw [hashStruct]
  cases defs.lookup name with
  | none => exact ⟨_, rfl⟩
  | some fields =>
    cases v with
    | map entries =>
      dsimp only
      cases entries.find? fun e => !fields.any fun f => f.1 = e.1 with
      | some e => exact ⟨_, rfl⟩
      | none =>
        dsimp only
        rw [result_bind, h]
        exact ⟨message, rfl⟩
    | _ => exact ⟨_, rfl⟩

theorem encode712Value_struct :
    ∃ m, encode712Value debug keccak defs v (.struct name) path =
      hashStruct debug keccak defs name v path m := by
  cases v with
  | map entries =>
    rw [encode712Value]
    exact ⟨_, rfl⟩
  | list items =>
    rw [encode712Value]
    exact ⟨[], rfl⟩
  | _ => exact ⟨[], rfl⟩

theorem encodeType_error {n : Text} (hname : Defined defs name)
    (hn : ReflTransGen (Refs defs) name n) (hbad : ¬ Defined defs n ∨ TransGen (Refs defs) n n) :
    ∃ message, encodeType debug defs name = .error (.err message) := by
  cases htext : encodeType debug defs name with
  | error e =>
    obtain ⟨message, rfl⟩ := encodeType_ends hname e htext
    exact ⟨message, rfl⟩
  | ok text =>
    obtain ⟨deps, hlisted, -⟩ := encodeType_ok hname htext
    have hmem := hlisted.mem_cons.mpr hn
    rcases hbad with hbad | hbad
    · exact absurd (hlisted.defined n hmem) hbad
    · exact absurd hbad (hlisted.acyclic n hmem)

theorem eip712Digest_error {message : SynValue} {text : Text}
    (hparse : parseTypes debug types = .ok defs)
    (htext : encodeType debug defs name = .error (.err text)) :
    ∃ e, (eip712Digest debug keccak domain types (.text name) message).result =
      .error (.err e) := by
  have hok : ∀ k : StructDefs → Except Stop Bytes,
      ((Asking.lift (.ok defs) : Hashing StructDefs).result >>= k) = k defs := fun _ => rfl
  rw [eip712Digest, result_bind, hparse, hok]
  dsimp only
  split_ifs with hdomain hdefined
  · exact ⟨_, rfl⟩
  · exact ⟨_, rfl⟩
  · rw [result_bind]
    cases hdsep : (domainSeparator debug keccak defs domain).result with
    | error e =>
      obtain ⟨text, rfl⟩ := domainSeparator_ends e hdsep
      exact ⟨text, rfl⟩
    | ok dsep =>
      obtain ⟨m, hm⟩ := @encode712Value_struct debug keccak defs "message" name message
      obtain ⟨e, he⟩ := @hashStruct_error debug keccak _ "message" _ m message _ htext
      refine ⟨e, ?_⟩
      change (_ >>= _ : Hashing Bytes).result = _
      rw [result_bind, hm, he]
      rfl

end Runs

/-! ## What a digest binds -/

/-- The arguments of `eip712_digest`. -/
structure TypedData where
  domain : SynValue
  types : SynValue
  primary : SynValue
  message : SynValue

/-- The call with these arguments. -/
def TypedData.digest (debug : Text → Text) (keccak : Bytes → Word) (x : TypedData) :
    Hashing Bytes :=
  eip712Digest debug keccak x.domain x.types x.primary x.message

/-- The same typed data: the domains have the same fields with the same values, the primary types
are one, with one definition of all that it refers to, and the messages are the same value of it. -/
structure SameData (debug : Text → Text) (keccak : Bytes → Word) (x y : TypedData) : Prop where
  primary : x.primary = y.primary
  domain : ∃ fields, fields.Sublist domainFields ∧
    Same keccak [(domainName, fields)] (.struct domainName) x.domain y.domain
  message : ∃ defs defs' name, parseTypes debug x.types = .ok defs ∧
    parseTypes debug y.types = .ok defs' ∧ x.primary = .text name ∧
    (∀ n, ReflTransGen (Refs defs) name n → defs.lookup n = defs'.lookup n) ∧
    Same keccak defs (.struct name) x.message y.message

/-- **An EIP-712 digest binds all that is signed.**  Of typed data with a digest, the text of the
primary type is that of the struct and of each that it refers to, once and in alphabetical order,
and the message has the declared fields and no others, at every level.  Two calls with one digest
are made with the same data, unless two of the texts and bytes that they hash collide.  A reference
to a struct that there is not, or in a cycle, ends the call with an error. -/
theorem eip712_binds (debug : Text → Text) (keccak : Bytes → Word) :
    (∀ (x : TypedData) (d : Bytes), (x.digest debug keccak).result = .ok d →
      ∃ defs name deps, parseTypes debug x.types = .ok defs ∧ x.primary = .text name ∧
        Listed defs name deps ∧
        encodeType debug defs name = .ok (structTexts defs (name :: deps)) ∧
        Exact defs (.struct name) x.message) ∧
    (∀ (x y : TypedData) (d : Bytes), FieldNames debug x.types → FieldNames debug y.types →
      (x.digest debug keccak).result = .ok d → (y.digest debug keccak).result = .ok d →
      Set.InjOn keccak
        { b | b ∈ (x.digest debug keccak).asked ∨ b ∈ (y.digest debug keccak).asked } →
      SameData debug keccak x y) ∧
    ∀ (x : TypedData) (defs : StructDefs) (name : Text), parseTypes debug x.types = .ok defs →
      x.primary = .text name → Defined defs name →
      Ends (encodeType debug defs name) ∧
        ∀ n, ReflTransGen (Refs defs) name n → ¬ Defined defs n ∨ TransGen (Refs defs) n n →
          ∃ e, (x.digest debug keccak).result = .error (.err e) := by
  refine ⟨?_, ?_, ?_⟩
  · intro x d hx
    obtain ⟨defs, name, -, -, mhash, hparse, hprimary, hname, -, -, hmessage, -, -⟩ :=
      eip712Digest_gives (Asking.gives_of_result hx)
    cases htext : encodeType debug defs name with
    | error e =>
      obtain ⟨text, rfl⟩ := encodeType_ends hname e htext
      obtain ⟨e, he⟩ := @eip712Digest_error debug keccak _ _ x.domain _ x.message _ hparse htext
      rw [TypedData.digest, hprimary, he] at hx
      cases hx
    | ok text =>
      obtain ⟨deps, hlisted, rfl⟩ := encodeType_ok hname htext
      exact ⟨defs, name, deps, hparse, hprimary, hlisted, htext, hmessage.exact⟩
  · intro x y d hnames hnames' hx hy hinj
    have hgives : Gives { b | b ∈ (x.digest debug keccak).asked ∨ b ∈ (y.digest debug keccak).asked }
        (x.digest debug keccak) d := ⟨hx, fun _ hb => .inl hb⟩
    have hgives' : Gives
        { b | b ∈ (x.digest debug keccak).asked ∨ b ∈ (y.digest debug keccak).asked }
        (y.digest debug keccak) d := ⟨hy, fun _ hb => .inr hb⟩
    obtain ⟨defs, name, fields, dsep, mhash, hparse, hprimary, hname, hfields, hdomain, hmessage,
      hd, hS⟩ := eip712Digest_gives hgives
    obtain ⟨defs', name', fields', dsep', mhash', hparse', hprimary', -, hfields', hdomain',
      hmessage', hd', hS'⟩ := eip712Digest_gives hgives'
    have hdefs := parseTypes_ok hnames hparse
    have hdefs' := parseTypes_ok hnames' hparse'
    obtain ⟨structFields, hlookup⟩ := Option.isSome_iff_exists.mp hname
    have hstruct : TypeOk debug fname (.struct name) := (hdefs _ (mem_of_lookup hlookup)).name
    have hdomainStruct : TypeOk debug fname (.struct domainName) := isName_domainName
    -- the two hashes behind the mark of the version are the same
    have hparts := append_cancel_left (hinj hS hS' (Subtype.ext (hd.trans hd'.symm)))
    obtain ⟨rfl, rfl⟩ := append_inj hparts
      ((hdomain.length_eq hdomainStruct).trans (hdomain'.length_eq hdomainStruct).symm)
    obtain ⟨rfl, hsame⟩ := hmessage.same_struct hdefs hdefs' hinj hmessage'
    refine ⟨hprimary.trans hprimary'.symm, ⟨fields, hfields, ?_⟩,
      defs, defs', name, hparse, hparse', hprimary, hsame, ?_⟩
    · exact hdomain.same (domainDefs_ok hfields) (domainDefs_ok hfields') hinj hdomainStruct hdomain'
    · exact hmessage.same hdefs hdefs' hinj hstruct hmessage'
  · intro x defs name hparse hprimary hname
    refine ⟨encodeType_ends hname, fun n hn hbad => ?_⟩
    obtain ⟨text, htext⟩ := encodeType_error hname hn hbad
    rw [TypedData.digest, hprimary]
    exact eip712Digest_error hparse htext

/-- A word that tells the length of what is hashed. -/
def lengthWord (b : Bytes) : Word := ⟨Captoken.beBytes 32 b.length, Captoken.Cur.length_beBytes 32 _⟩

/-- The definition of a field. -/
def sampleField (name type : String) : SynValue :=
  .map [("name", .text name.toList), ("type", .text type.toList)]

/-- A number and another, in a struct `A` of these fields. -/
def sampleData (fields : List SynValue) (x : Number) : TypedData where
  domain := .map [("chainId", .number (.int 1))]
  types := .map [("A", .list fields)]
  primary := .text "A"
  message := .map [("x", .number x), ("y", .number (.int 7))]

/-- Two fields of one byte. -/
def sampleFields : List SynValue := [sampleField "x" "uint8", sampleField "y" "uint8"]

theorem eip712_binds_sample :
    (∃ defs name deps, Listed defs name deps ∧
      encodeType id defs name = .ok (structTexts defs (name :: deps)) ∧
      Exact defs (.struct name) (sampleData sampleFields (.int 5)).message) ∧
    SameData id lengthWord (sampleData sampleFields (.int 5)) (sampleData sampleFields (.big 5)) ∧
    ∃ e, ((sampleData [sampleField "x" "B"] (.int 5)).digest id lengthWord).result =
      .error (.err e) := by
  have hx : ((sampleData sampleFields (.int 5)).digest id lengthWord).result =
      .ok (lengthWord (replicate 66 0)).1 := by decide +kernel
  have hy : ((sampleData sampleFields (.big 5)).digest id lengthWord).result =
      .ok (lengthWord (replicate 66 0)).1 := by decide +kernel
  have hasked : ((sampleData sampleFields (.big 5)).digest id lengthWord).asked =
      ((sampleData sampleFields (.int 5)).digest id lengthWord).asked := by decide +kernel
  have hinj : ∀ b ∈ ((sampleData sampleFields (.int 5)).digest id lengthWord).asked,
      ∀ b' ∈ ((sampleData sampleFields (.int 5)).digest id lengthWord).asked,
        lengthWord b = lengthWord b' → b = b' := by decide +kernel
  have hnames : FieldNames id (sampleData sampleFields (.int 5)).types := by
    intro defs hdefs
    cases hdefs
    decide
  refine ⟨?_, ?_, ?_⟩
  · obtain ⟨defs, name, deps, -, -, h⟩ :=
      (eip712_binds id lengthWord).1 (sampleData sampleFields (.int 5)) _ hx
    exact ⟨defs, name, deps, h⟩
  · refine (eip712_binds id lengthWord).2.1 _ _ _ hnames hnames hx hy ?_
    rintro b hb b' hb' heq
    rw [hasked] at hb hb'
    exact hinj b (hb.elim id id) b' (hb'.elim id id) heq
  · have href : Refs [("A", [("x", AbiType.struct "B")])] "A"
        "B" := ⟨_, rfl, _, mem_singleton_self _, rfl⟩
    exact ((eip712_binds id lengthWord).2.2 (sampleData [sampleField "x" "B"] (.int 5)) _ _ rfl rfl
      rfl).2 _ (.single href) (.inl Bool.false_ne_true)

end Synsema.Eip712
