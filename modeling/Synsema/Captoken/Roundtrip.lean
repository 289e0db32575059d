import Synsema.Captoken.Token

/-!
# The text of a token

The transport text of a token is read back as the token in its canonical form, in the order
in which the writer puts what it writes.
-/

namespace Synsema.Captoken

open Text Bytesutil Cur

/-! ## Sizes -/

/-- Is there room for the text? -/
def TextFits (t : Text) : Prop := (utf8 t).length < 2 ^ 16

instance (t : Text) : Decidable (TextFits t) := inferInstanceAs (Decidable (_ < _))

/-- Is there room for the permissions? -/
def CapsFit (caps : Caps) : Prop :=
  caps.length < 2 ^ 16 ∧
    ∀ p ∈ caps, TextFits p.1 ∧ p.2.length < 2 ^ 16 ∧ ∀ s ∈ p.2, TextFits s

instance (caps : Caps) : Decidable (CapsFit caps) := inferInstanceAs (Decidable (_ ∧ _))

/-- Is there room for the caveat? -/
def Caveat.Fits : Caveat → Prop
  | exp e => e < 2 ^ 63
  | aud t => TextFits t
  | ip t => TextFits t
  | method t => TextFits t
  | spend l => l.length < 2 ^ 16 ∧ ∀ p ∈ l, TextFits p.1 ∧ TextFits p.2
  | deterministic => True
  | llmTokens n => n < 2 ^ 64

instance (i : Caveat) : Decidable i.Fits := by
  cases i <;> unfold Caveat.Fits <;> infer_instance

/-- Is there room for the block? -/
def Block.Fits (b : Block) : Prop := CapsFit b.caps ∧ ∀ i ∈ b.caveats.items, i.Fits

instance (b : Block) : Decidable b.Fits := inferInstanceAs (Decidable (_ ∧ _))

/-- Is there room for the token? -/
structure Token.Fits (t : Token) : Prop where
  id : TextFits t.id
  sig : t.sig.length < 2 ^ 16
  nonempty : t.blocks ≠ []
  depth : t.blocks.length ≤ maxDepth
  blocks : ∀ b ∈ t.blocks, b.Fits

/-! ## The canonical form -/

/-- The caveats in their canonical form. -/
def Caveats.canonical (c : Caveats) : Caveats :=
  { c with exp := c.exp.map fun e => max e 0, spend := sortSpend c.spend }

/-- The block in its canonical form. -/
def Block.canonical (b : Block) : Block :=
  { caps := b.caps.canonical, caveats := b.caveats.canonical }

/-- The token in its canonical form. -/
def Token.canonical (t : Token) : Token := { t with blocks := t.blocks.map Block.canonical }

/-! ## Maps -/

variable {α β : Type} {i : Caveat} {c : Caveats} {t : Token}

theorem map_eq (key : α → Text) (value : α → Mp) (l : List α) :
    Mp.map (l.map fun a => (key a, value a)) = Mp.mapHead l.length ++
      ((l.insertionSort fun a b ↦ key a ≤ key b).map fun a ↦ Mp.str (key a) ++ value a).flatten := by
  have hsort : ((l.map fun a => (key a, value a)).insertionSort fun a b => a.1 ≤ b.1) =
      (l.insertionSort fun a b => key a ≤ key b).map fun a => (key a, value a) :=
    (List.map_insertionSort (fun a b : α => key a ≤ key b) (fun a b : Text × Mp => a.1 ≤ b.1)
      (fun a => (key a, value a)) l fun a _ b _ => Iff.rfl).symm
  unfold Mp.map Mp.entries
  rw [hsort, List.length_map, List.length_insertionSort, List.flatMap_def, List.map_map]
  rfl

theorem run_iterate {p : α → Cur α} {write : β → Bytes} {apply : α → β → α} {bs : List β}
    (h : ∀ b ∈ bs, ∀ a rest, (p a).run (write b ++ rest) = some (apply a b, rest)) (a : α)
    (rest : Bytes) :
    (iterate p bs.length a).run ((bs.map write).flatten ++ rest) =
      some (bs.foldl apply a, rest) := by
  induction bs generalizing a with
  | nil => rfl
  | cons b bs ih =>
    have hb := h b List.mem_cons_self a
    have hbs := ih (fun c hc => h c (List.mem_cons_of_mem b hc)) (apply a b)
    simp [iterate, hb, hbs]

/-! ## Permissions -/

theorem run_strs {ts : List Text} (h : ∀ t ∈ ts, TextFits t) (rest : Bytes) :
    (repeat_ str ts.length).run ((ts.map Mp.str).flatten ++ rest) = some (ts, rest) :=
  run_repeat_ (fun t ht rest => run_str (h t ht) rest) rest

theorem run_readScopes {name : Text} {scopes : List Text} (hname : TextFits name)
    (hlen : scopes.length < 2 ^ 16) (hscopes : ∀ s ∈ scopes, TextFits s) (rest : Bytes) :
    readScopes.run (Mp.str name ++ Mp.list (scopes.map Mp.str) ++ rest) =
      some ((name, scopes), rest) := by
  unfold readScopes Mp.list
  simp [List.append_assoc, run_str hname, run_listLen hlen, run_strs hscopes]

theorem capsToMp_eq (caps : Caps) : capsToMp caps = Mp.mapHead caps.canonical.length ++
    (caps.canonical.map fun p => Mp.str p.1 ++ Mp.list (p.2.map Mp.str)).flatten := by
  have key := map_eq Prod.fst (fun p : Text × List Text => Mp.list (p.2.map Mp.str))
    (caps.map fun p => (p.1, p.2.insertionSort (· ≤ ·)))
  rw [List.map_map] at key
  rw [capsToMp, Caps.canonical, List.length_insertionSort]
  exact key

theorem run_decodeCaps {caps : Caps} (h : CapsFit caps) (rest : Bytes) :
    decodeCaps.run (capsToMp caps ++ rest) = some (caps.canonical, rest) := by
  have hmem : ∀ p ∈ caps.canonical,
      TextFits p.1 ∧ p.2.length < 2 ^ 16 ∧ ∀ s ∈ p.2, TextFits s := by
    intro p hp
    rw [Caps.canonical, List.mem_insertionSort, List.mem_map] at hp
    obtain ⟨q, hq, rfl⟩ := hp
    obtain ⟨hname, hlen, hscopes⟩ := h.2 q hq
    refine ⟨hname, by simpa using hlen, fun s hs => hscopes s ?_⟩
    simpa using hs
  have hlen : caps.canonical.length < 2 ^ 16 := by simpa [Caps.canonical] using h.1
  unfold decodeCaps
  rw [capsToMp_eq, List.append_assoc]
  simp only [StateT.run_bind, run_mapLen hlen]
  exact run_repeat_ (fun p hp rest =>
    run_readScopes (hmem p hp).1 (hmem p hp).2.1 (hmem p hp).2.2 rest) rest

/-! ## Caveats -/

/-- The caveats with one more, in its canonical form. -/
def Caveats.set (c : Caveats) : Caveat → Caveats
  | .exp e => { c with exp := some (max e 0) }
  | .aud t => { c with aud := some t }
  | .ip t => { c with ip := some t }
  | .method t => { c with method := some t }
  | .spend l => { c with spend := sortSpend l }
  | .deterministic => { c with deterministic := true }
  | .llmTokens n => { c with llmTokens := some n }

theorem run_readLimit {p : Text × Text} (hunit : TextFits p.1) (hamount : TextFits p.2)
    (rest : Bytes) : readLimit.run (Mp.str p.1 ++ Mp.str p.2 ++ rest) = some (p, rest) := by
  unfold readLimit
  simp [List.append_assoc, run_str hunit, run_str hamount]

theorem spend_mp (l : List (Text × Text)) : (Caveat.spend l).mp =
    Mp.mapHead (sortSpend l).length ++
      ((sortSpend l).map fun p => Mp.str p.1 ++ Mp.str p.2).flatten := by
  have key := map_eq Prod.fst (fun p : Text × Text => Mp.str p.2)
    (l.insertionSort fun a b => a.1 < b.1 ∨ a.1 = b.1 ∧ a.2 ≤ b.2)
  rw [sortSpend, List.length_insertionSort]
  exact key

theorem run_spend {l : List (Text × Text)} (hlen : l.length < 2 ^ 16)
    (h : ∀ p ∈ l, TextFits p.1 ∧ TextFits p.2) (rest : Bytes) :
    readSpend.run ((Caveat.spend l).mp ++ rest) = some (sortSpend l, rest) := by
  have hmem : ∀ p ∈ sortSpend l, TextFits p.1 ∧ TextFits p.2 := by
    intro p hp
    apply h p
    simpa [sortSpend] using hp
  have hlen' : (sortSpend l).length < 2 ^ 16 := by simpa [sortSpend] using hlen
  unfold readSpend
  rw [spend_mp, List.append_assoc]
  simp only [StateT.run_bind, run_mapLen hlen']
  exact run_repeat_ (fun p hp rest => run_readLimit (hmem p hp).1 (hmem p hp).2 rest) rest

theorem bmod_max {e : Int} (h : e < 2 ^ 63) : (max e 0).bmod 18446744073709551616 = max e 0 := by
  rw [Int.bmod_def]
  omega

theorem textFits_key (i : Caveat) : TextFits i.key := by
  have hfits : ∀ k ∈ ["exp", "aud", "ip", "method", "spend", "deterministic", "llm_tokens"],
      TextFits k.toList := by decide
  apply hfits
  cases i <;> simp [Caveat.name]

theorem run_readCaveat (h : i.Fits) (c : Caveats) (rest : Bytes) :
    (readCaveat c).run (Mp.str i.key ++ i.mp ++ rest) = some (c.set i, rest) := by
  have hkey := textFits_key i
  unfold readCaveat
  rw [List.append_assoc]
  simp only [StateT.run_bind, run_str hkey, Option.bind_eq_bind, Option.bind_some]
  cases i with
  | exp e =>
    simp only [Caveat.Fits] at h
    have hlt : (max e 0).toNat < 2 ^ 64 := by omega
    simp [Caveat.key, Caveat.name, Caveat.mp, run_uint hlt, bmod_max h, Caveats.set]
  | aud t => simp [Caveat.key, Caveat.name, Caveat.mp, run_str (show TextFits t from h), Caveats.set]
  | ip t => simp [Caveat.key, Caveat.name, Caveat.mp, run_str (show TextFits t from h), Caveats.set]
  | method t => simp [Caveat.key, Caveat.name, Caveat.mp, run_str (show TextFits t from h), Caveats.set]
  | spend l => simp [Caveat.key, Caveat.name, run_spend h.1 h.2, Caveats.set]
  | deterministic => simp [Caveat.key, Caveat.name, Caveat.mp, run_uint (n := 1) (by decide), Caveats.set]
  | llmTokens n => simp [Caveat.key, Caveat.name, Caveat.mp, run_uint (show n < 2 ^ 64 from h), Caveats.set]

theorem set_comm {j : Caveat} (hi : i ∈ c.items) (hj : j ∈ c.items) (d : Caveats) :
    (d.set i).set j = (d.set j).set i := by
  have hkinds : ∀ i ∈ c.items, match i with
      | .exp e => c.exp = some e
      | .aud t => c.aud = some t
      | .ip t => c.ip = some t
      | .method t => c.method = some t
      | .spend l => c.spend = l
      | .deterministic => True
      | .llmTokens n => c.llmTokens = some n := by
    intro i hi
    simp only [Caveats.items, List.mem_append, Option.mem_toList, Option.map_eq_some_iff,
      List.mem_ite_nil_left, List.mem_ite_nil_right, List.mem_singleton] at hi
    rcases hi with (((((⟨e, he, rfl⟩ | ⟨t, ht, rfl⟩) | ⟨t, ht, rfl⟩) | ⟨t, ht, rfl⟩) |
      ⟨-, rfl⟩) | ⟨-, rfl⟩) | ⟨n, hn, rfl⟩
    · exact he
    · exact ht
    · exact ht
    · exact ht
    · exact rfl
    · exact trivial
    · exact hn
  have hi' := hkinds i hi
  have hj' := hkinds j hj
  cases i <;> cases j <;> simp_all [Caveats.set]

theorem foldl_toList (f : β → α → β) (b : β) (o : Option α) :
    o.toList.foldl f b = o.elim b (f b) := by
  cases o <;> rfl

theorem foldl_items (c : Caveats) : c.items.foldl Caveats.set .default = c.canonical := by
  obtain ⟨exp, aud, ip, method, spend, deterministic, llmTokens⟩ := c
  simp only [Caveats.items, List.foldl_append, foldl_toList]
  cases spend with
  | nil | cons p l =>
    cases exp <;> cases aud <;> cases ip <;> cases method <;> cases deterministic <;>
      cases llmTokens <;> rfl

theorem length_items (c : Caveats) : c.items.length ≤ 7 := by
  have hopt : ∀ {α : Type} (o : Option α), o.toList.length ≤ 1 := by
    intro α o
    cases o <;> simp
  have h₁ := hopt (c.exp.map Caveat.exp)
  have h₂ := hopt (c.aud.map Caveat.aud)
  have h₃ := hopt (c.ip.map Caveat.ip)
  have h₄ := hopt (c.method.map Caveat.method)
  have h₅ := hopt (c.llmTokens.map Caveat.llmTokens)
  simp only [Caveats.items, List.length_append]
  split <;> split <;> simp only [List.length_nil, List.length_singleton] <;> omega

theorem run_decodeCaveats (h : ∀ i ∈ c.items, i.Fits) (rest : Bytes) :
    decodeCaveats.run (caveatsToMp c ++ rest) = some (c.canonical, rest) := by
  have hmap := map_eq Caveat.key Caveat.mp c.items
  have hlen := length_items c
  have hread := run_iterate (fun i hi d rest =>
    run_readCaveat (h i ((List.mem_insertionSort fun i j => Caveat.key i ≤ Caveat.key j).mp hi))
      d rest) .default rest
  have hfold : (c.items.insertionSort fun i j => i.key ≤ j.key).foldl Caveats.set .default =
      c.items.foldl Caveats.set .default := by
    apply (List.perm_insertionSort _ _).foldl_eq'
    intro i hi j hj d
    exact set_comm ((List.mem_insertionSort _).mp hi) ((List.mem_insertionSort _).mp hj) d
  rw [List.length_insertionSort, hfold, foldl_items] at hread
  unfold decodeCaveats caveatsToMp
  rw [hmap, List.append_assoc]
  simp only [StateT.run_bind, run_mapLen (n := c.items.length) (by omega), Option.bind_eq_bind,
    Option.bind_some]
  exact hread

/-! ## Blocks and tokens -/

theorem blockToMp_eq (b : Block) : blockToMp b = Mp.mapHead 2 ++
    (Mp.str "c" ++ (capsToMp b.caps ++ (Mp.str "v" ++ caveatsToMp b.caveats))) := by
  have hsort : ([("c", capsToMp b.caps), ("v", caveatsToMp b.caveats)] :
      List (Text × Mp)).insertionSort (fun a b => a.1 ≤ b.1) =
      [("c".toList, capsToMp b.caps), ("v".toList, caveatsToMp b.caveats)] := rfl
  unfold blockToMp Mp.map Mp.entries
  rw [hsort]
  simp

theorem run_readBlock {b : Block} (h : b.Fits) (rest : Bytes) :
    readBlock.run (blockToMp b ++ rest) = some (b.canonical, rest) := by
  have hc : TextFits ['c'] := by decide
  have hv : TextFits ['v'] := by decide
  rw [blockToMp_eq]
  unfold readBlock
  simp [iterate, readBlockEntry, List.append_assoc, run_mapLen (n := 2) (by decide), run_str hc,
    run_str hv, run_decodeCaps h.1, run_decodeCaveats h.2, Block.canonical]

theorem run_blocks {bs : List Block} (h : ∀ b ∈ bs, b.Fits) (rest : Bytes) :
    (repeat_ readBlock bs.length).run ((bs.map blockToMp).flatten ++ rest) =
      some (bs.map Block.canonical, rest) := by
  induction bs with
  | nil => rfl
  | cons b bs ih =>
    have hb := run_readBlock (h b List.mem_cons_self)
    have hbs := ih fun c hc => h c (List.mem_cons_of_mem b hc)
    simp [repeat_, hb, hbs]

theorem tokenToMp_eq (t : Token) : tokenToMp t = Mp.mapHead 4 ++
    (Mp.str "b" ++ (Mp.listHead t.blocks.length ++ ((t.blocks.map blockToMp).flatten ++
    (Mp.str "i" ++ (Mp.str t.id ++ (Mp.str "s" ++ (Mp.bytes t.sig ++
    (Mp.str "z" ++ Mp.uint formatVersion)))))))) := by
  have hsort : ([("b", Mp.list (t.blocks.map blockToMp)), ("i", Mp.str t.id),
      ("s", Mp.bytes t.sig), ("z", Mp.uint formatVersion)] :
      List (Text × Mp)).insertionSort (fun a b => a.1 ≤ b.1) =
      [("b".toList, Mp.list (t.blocks.map blockToMp)), ("i".toList, Mp.str t.id),
        ("s", Mp.bytes t.sig), ("z", Mp.uint formatVersion)] := rfl
  unfold tokenToMp Mp.map Mp.entries
  rw [hsort]
  simp [Mp.list]

theorem run_readToken (h : t.Fits) : readToken.run (tokenToMp t) =
    some ({ blocks := some t.canonical.blocks, id := some t.id, sig := some t.sig,
            version := some formatVersion }, []) := by
  have hb : TextFits ['b'] := by decide
  have hi : TextFits ['i'] := by decide
  have hs : TextFits ['s'] := by decide
  have hz : TextFits ['z'] := by decide
  have hblocks : ∀ rest, (repeat_ readBlock t.blocks.length).run
      ((t.blocks.map blockToMp).flatten ++ rest) = some (t.canonical.blocks, rest) :=
    run_blocks h.blocks
  have hdepth : t.blocks.length < 2 ^ 16 := h.depth.trans_lt (by decide)
  have hversion : uint.run (Mp.uint formatVersion) = some (formatVersion, []) := by
    simpa using run_uint (n := formatVersion) (by decide) []
  rw [tokenToMp_eq]
  unfold readToken
  simp [iterate, readTokenEntry, run_mapLen (n := 4) (by decide), run_str hb, run_str hi,
    run_str hs, run_str hz, run_listLen hdepth, hblocks, run_str h.id, run_bytes h.sig, hversion,
    h.nonempty, not_lt.mpr h.depth]

theorem decodeToken_encodeToken (h : t.Fits) : decodeToken (encodeToken t) = some t.canonical := by
  unfold decodeToken encodeToken
  rw [trim_b64urlEncode, b64urlDecode_b64urlEncode]
  simp [run_readToken h, Token.canonical]

end Synsema.Captoken
