import Synsema.Captoken.Roundtrip

/-!
# What the reader has no room for

The writer has a form for texts, lists and maps of 2¹⁶ elements and more, and the reader has
none.  A token with such a part is written, and its text is not read back
(`decodeToken_encodeToken_eq_none`).
-/

namespace Synsema.Captoken

open Text Bytesutil Cur

namespace Cur

/-! ## Heads -/

theorem run_str_eq_none {t : Text} (h : ¬ TextFits t) (rest : Bytes) :
    str.run (Mp.str t ++ rest) = none := by
  have hlen : 2 ^ 16 ≤ (utf8 t).length := not_lt.mp h
  unfold Mp.str str strLen
  simp [show ¬ (utf8 t).length ≤ 31 by omega, show ¬ (utf8 t).length ≤ 0xff by omega,
    show ¬ (utf8 t).length ≤ 0xffff by omega, run_byte]

variable {n : Nat} {α : Type}

theorem run_mapLen_eq_none (h : ¬ n < 2 ^ 16) (rest : Bytes) :
    mapLen.run (Mp.mapHead n ++ rest) = none := by
  unfold Mp.mapHead mapLen
  simp [show ¬ n ≤ 15 by omega, show ¬ n ≤ 0xffff by omega, run_byte]

theorem run_listLen_eq_none (h : ¬ n < 2 ^ 16) (rest : Bytes) :
    listLen.run (Mp.listHead n ++ rest) = none := by
  unfold Mp.listHead listLen
  simp [show ¬ n ≤ 15 by omega, show ¬ n ≤ 0xffff by omega, run_byte]

/-! ## Repetitions -/

theorem run_repeat_eq_none {p : Cur α} {write : α → Bytes} {P : α → Prop} {as : List α}
    (hgood : ∀ a ∈ as, P a → ∀ rest, p.run (write a ++ rest) = some (a, rest))
    (hbad : ∀ a ∈ as, ¬ P a → ∀ rest, p.run (write a ++ rest) = none) (h : ¬ ∀ a ∈ as, P a)
    (rest : Bytes) : (repeat_ p as.length).run ((as.map write).flatten ++ rest) = none := by
  induction as with
  | nil => exact absurd (by simp) h
  | cons a as ih =>
    by_cases ha : P a
    · have hread := hgood a List.mem_cons_self ha
      have hrest := ih (fun b hb => hgood b (List.mem_cons_of_mem a hb))
        (fun b hb => hbad b (List.mem_cons_of_mem a hb)) fun has =>
          h (List.forall_mem_cons.mpr ⟨ha, has⟩)
      simp [repeat_, hread, hrest]
    · have hread := hbad a List.mem_cons_self ha
      simp [repeat_, hread]

theorem run_iterate_eq_none {β : Type} {p : α → Cur α} {write : β → Bytes} {apply : α → β → α}
    {P : β → Prop} {bs : List β}
    (hgood : ∀ b ∈ bs, P b → ∀ a rest, (p a).run (write b ++ rest) = some (apply a b, rest))
    (hbad : ∀ b ∈ bs, ¬ P b → ∀ a rest, (p a).run (write b ++ rest) = none) (h : ¬ ∀ b ∈ bs, P b)
    (a : α) (rest : Bytes) :
    (iterate p bs.length a).run ((bs.map write).flatten ++ rest) = none := by
  induction bs generalizing a with
  | nil => exact absurd (by simp) h
  | cons b bs ih =>
    by_cases hb : P b
    · have hread := hgood b List.mem_cons_self hb
      have hrest := ih (fun c hc => hgood c (List.mem_cons_of_mem b hc))
        (fun c hc => hbad c (List.mem_cons_of_mem b hc))
        (fun hbs => h (List.forall_mem_cons.mpr ⟨hb, hbs⟩)) (apply a b)
      simp [iterate, hread, hrest]
    · have hread := hbad b List.mem_cons_self hb
      simp [iterate, hread]

end Cur

/-! ## Permissions -/

/-- Is there room for a name and its scopes? -/
def ScopesFit (p : Text × List Text) : Prop :=
  TextFits p.1 ∧ p.2.length < 2 ^ 16 ∧ ∀ s ∈ p.2, TextFits s

theorem run_readScopes_eq_none {p : Text × List Text} (h : ¬ ScopesFit p) (rest : Bytes) :
    readScopes.run (Mp.str p.1 ++ Mp.list (p.2.map Mp.str) ++ rest) = none := by
  unfold readScopes Mp.list
  by_cases hname : TextFits p.1
  · by_cases hlen : p.2.length < 2 ^ 16
    · have hscopes := run_repeat_eq_none (P := TextFits) (fun t _ ht rest => run_str ht rest)
        (fun t _ ht rest => run_str_eq_none ht rest) (fun hall => h ⟨hname, hlen, hall⟩) rest
      simp [List.append_assoc, run_str hname, run_listLen hlen, hscopes]
    · simp [List.append_assoc, run_str hname, run_listLen_eq_none hlen]
  · simp [List.append_assoc, run_str_eq_none hname]

variable {caps : Caps} {t : Token}

theorem capsFit_canonical : CapsFit caps.canonical ↔ CapsFit caps := by
  simp only [CapsFit, Caps.canonical, List.mem_insertionSort, List.forall_mem_map,
    List.length_insertionSort, List.length_map]

theorem run_decodeCaps_eq_none (h : ¬ CapsFit caps) (rest : Bytes) :
    decodeCaps.run (capsToMp caps ++ rest) = none := by
  rw [← capsFit_canonical] at h
  unfold decodeCaps
  rw [capsToMp_eq, List.append_assoc]
  by_cases hlen : caps.canonical.length < 2 ^ 16
  · simp only [StateT.run_bind, run_mapLen hlen]
    exact run_repeat_eq_none (P := ScopesFit)
      (fun p _ hp rest => run_readScopes hp.1 hp.2.1 hp.2.2 rest)
      (fun p _ hp rest => run_readScopes_eq_none hp rest) (fun hall => h ⟨hlen, hall⟩) rest
  · simp [StateT.run_bind, run_mapLen_eq_none hlen]

/-! ## Caveats -/

/-- Is the number of the caveat one that 64 bits hold? -/
def Caveat.Small : Caveat → Prop
  | exp e => e < 2 ^ 63
  | llmTokens n => n < 2 ^ 64
  | _ => True

/-- Are there 64 bits for the numbers of the caveats? -/
def Caveats.Small (c : Caveats) : Prop := ∀ i ∈ c.items, i.Small

theorem run_readLimit_eq_none {p : Text × Text} (h : ¬ (TextFits p.1 ∧ TextFits p.2))
    (rest : Bytes) : readLimit.run (Mp.str p.1 ++ Mp.str p.2 ++ rest) = none := by
  unfold readLimit
  by_cases hunit : TextFits p.1
  · have hamount : ¬ TextFits p.2 := fun hp => h ⟨hunit, hp⟩
    simp [List.append_assoc, run_str hunit, run_str_eq_none hamount]
  · simp [List.append_assoc, run_str_eq_none hunit]

theorem run_spend_eq_none {l : List (Text × Text)} (h : ¬ (Caveat.spend l).Fits) (rest : Bytes) :
    readSpend.run ((Caveat.spend l).mp ++ rest) = none := by
  have hfits : (Caveat.spend l).Fits ↔ (sortSpend l).length < 2 ^ 16 ∧
      ∀ p ∈ sortSpend l, TextFits p.1 ∧ TextFits p.2 := by
    simp [Caveat.Fits, sortSpend]
  rw [hfits] at h
  unfold readSpend
  rw [spend_mp, List.append_assoc]
  by_cases hlen : (sortSpend l).length < 2 ^ 16
  · simp only [StateT.run_bind, run_mapLen hlen]
    exact run_repeat_eq_none (P := fun p => TextFits p.1 ∧ TextFits p.2)
      (fun p _ hp rest => run_readLimit hp.1 hp.2 rest)
      (fun p _ hp rest => run_readLimit_eq_none hp rest) (fun hall => h ⟨hlen, hall⟩) rest
  · simp [StateT.run_bind, run_mapLen_eq_none hlen]

theorem run_readCaveat_eq_none {i : Caveat} (hsmall : i.Small) (h : ¬ i.Fits) (c : Caveats)
    (rest : Bytes) : (readCaveat c).run (Mp.str i.key ++ i.mp ++ rest) = none := by
  have hkey := textFits_key i
  unfold readCaveat
  rw [List.append_assoc]
  simp only [StateT.run_bind, run_str hkey, Option.bind_eq_bind, Option.bind_some]
  cases i with
  | exp e => exact absurd hsmall h
  | aud t
  | ip t => simp [Caveat.key, Caveat.name, Caveat.mp, run_str_eq_none (show ¬ TextFits t from h)]
  | method t =>
    simp [Caveat.key, Caveat.name, Caveat.mp, run_str_eq_none (show ¬ TextFits t from h)]
  | spend l => simp [Caveat.key, Caveat.name, run_spend_eq_none h]
  | deterministic => exact absurd trivial h
  | llmTokens n => exact absurd hsmall h

theorem run_decodeCaveats_eq_none {c : Caveats} (hsmall : c.Small) (h : ¬ ∀ i ∈ c.items, i.Fits)
    (rest : Bytes) : decodeCaveats.run (caveatsToMp c ++ rest) = none := by
  have hmap := map_eq Caveat.key Caveat.mp c.items
  have hlen := length_items c
  have hmem {i : Caveat} : i ∈ c.items.insertionSort (fun i j => i.key ≤ j.key) ↔ i ∈ c.items :=
    List.mem_insertionSort _
  have hread := run_iterate_eq_none (p := readCaveat) (P := Caveat.Fits)
    (fun i _ hi d rest => run_readCaveat hi d rest)
    (fun i hi hfits d rest => run_readCaveat_eq_none (hsmall i (hmem.mp hi)) hfits d rest)
    (fun hall => h fun i hi => hall i (hmem.mpr hi)) .default rest
  rw [List.length_insertionSort] at hread
  unfold decodeCaveats caveatsToMp
  rw [hmap, List.append_assoc]
  simp only [StateT.run_bind, run_mapLen (n := c.items.length) (by omega), Option.bind_eq_bind,
    Option.bind_some]
  exact hread

/-! ## Blocks and tokens -/

theorem run_readBlock_eq_none {b : Block} (hsmall : b.caveats.Small) (h : ¬ b.Fits)
    (rest : Bytes) : readBlock.run (blockToMp b ++ rest) = none := by
  have hc : TextFits ['c'] := by decide
  have hv : TextFits ['v'] := by decide
  rw [blockToMp_eq]
  unfold readBlock
  by_cases hcaps : CapsFit b.caps
  · have hcaveats := run_decodeCaveats_eq_none hsmall fun hall => h ⟨hcaps, hall⟩
    simp [iterate, readBlockEntry, List.append_assoc, run_mapLen (n := 2) (by decide),
      run_str hc, run_str hv, run_decodeCaps hcaps, hcaveats]
  · simp [iterate, readBlockEntry, List.append_assoc, run_mapLen (n := 2) (by decide),
      run_str hc, run_decodeCaps_eq_none hcaps]

theorem run_blocks_eq_none {bs : List Block} (hsmall : ∀ b ∈ bs, b.caveats.Small)
    (h : ¬ ∀ b ∈ bs, b.Fits) (rest : Bytes) :
    (repeat_ readBlock bs.length).run ((bs.map blockToMp).flatten ++ rest) = none := by
  induction bs with
  | nil => exact absurd (by simp) h
  | cons b bs ih =>
    by_cases hb : b.Fits
    · have hread := run_readBlock hb
      have hrest := ih (fun c hc => hsmall c (List.mem_cons_of_mem b hc)) fun hbs =>
        h (List.forall_mem_cons.mpr ⟨hb, hbs⟩)
      simp [repeat_, hread, hrest]
    · have hread := run_readBlock_eq_none (hsmall b List.mem_cons_self) hb
      simp [repeat_, hread]

theorem run_readToken_eq_none (hne : t.blocks ≠ []) (hdepth : t.blocks.length ≤ maxDepth)
    (hsig : t.sig.length < 2 ^ 16) (hsmall : ∀ b ∈ t.blocks, b.caveats.Small) (h : ¬ t.Fits) :
    readToken.run (tokenToMp t) = none := by
  have hb : TextFits ['b'] := by decide
  have hi : TextFits ['i'] := by decide
  have hlen : t.blocks.length < 2 ^ 16 := hdepth.trans_lt (by decide)
  rw [tokenToMp_eq]
  unfold readToken
  by_cases hblocks : ∀ b ∈ t.blocks, b.Fits
  · have hid : ¬ TextFits t.id := fun hid => h ⟨hid, hsig, hne, hdepth, hblocks⟩
    simp [iterate, readTokenEntry, run_mapLen (n := 4) (by decide), run_str hb, run_str hi,
      run_listLen hlen, run_blocks hblocks, run_str_eq_none hid, hne, not_lt.mpr hdepth]
  · have hread := run_blocks_eq_none hsmall hblocks
    simp [iterate, readTokenEntry, run_mapLen (n := 4) (by decide), run_str hb,
      run_listLen hlen, hread, hne, not_lt.mpr hdepth]

theorem decodeToken_encodeToken_eq_none (hne : t.blocks ≠ []) (hdepth : t.blocks.length ≤ maxDepth)
    (hsig : t.sig.length < 2 ^ 16) (hsmall : ∀ b ∈ t.blocks, b.caveats.Small) (h : ¬ t.Fits) :
    decodeToken (encodeToken t) = none := by
  unfold decodeToken encodeToken
  rw [trim_b64urlEncode, b64urlDecode_b64urlEncode]
  simp [run_readToken_eq_none hne hdepth hsig hsmall h]

end Synsema.Captoken
