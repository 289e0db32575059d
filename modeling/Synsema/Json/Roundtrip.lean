import Synsema.Json.Accepts
import Synsema.Json.Numerals

/-!
# What is written is read back

A value that can be written is read back as it was: the text that is written is that of a tree
of the grammar, whose value it is (`exists_tree`).  The text for a script is the same tree with
other escapes, so that the two are handled at once, for any way to write the characters of the
texts (`Rewrite`).
-/

namespace Synsema.Json

open Text List

/-! ## Values that can be written -/

namespace SynValue

mutual

/-- What the numbers and the keys of a value keep to: a big integer has at most 4300 digits, a
float is finite, no map has a key twice. -/
def Encodable : SynValue → Prop
  | number (.big n _) => (digits n.natAbs).length ≤ 4300
  | number (.float x) => x.isFinite = true
  | floats xs => ∀ x ∈ xs, x.isFinite = true
  | list items => EncodableAll items
  | map entries => (entries.map Prod.fst).Nodup ∧ EncodableEntries entries
  | _ => True

/-- What the items keep to. -/
def EncodableAll : List SynValue → Prop
  | [] => True
  | v :: vs => Encodable v ∧ EncodableAll vs

/-- What the entries keep to. -/
def EncodableEntries : List (Text × SynValue) → Prop
  | [] => True
  | (_, v) :: es => Encodable v ∧ EncodableEntries es

end

mutual

/-- How many lists and maps are nested. -/
def depth : SynValue → Nat
  | list items => depthAll items + 1
  | ints _ | floats _ => 1
  | map entries => depthEntries entries + 1
  | _ => 0

/-- The depth of the deepest item. -/
def depthAll : List SynValue → Nat
  | [] => 0
  | v :: vs => max (depth v) (depthAll vs)

/-- The depth of the deepest entry. -/
def depthEntries : List (Text × SynValue) → Nat
  | [] => 0
  | (_, v) :: es => max (depth v) (depthEntries es)

end

mutual

/-- The floats of a value. -/
def floatsIn : SynValue → List F64
  | number (.float x) => [x]
  | floats xs => xs
  | list items => floatsInAll items
  | map entries => floatsInEntries entries
  | _ => []

/-- The floats of the items. -/
def floatsInAll : List SynValue → List F64
  | [] => []
  | v :: vs => floatsIn v ++ floatsInAll vs

/-- The floats of the entries. -/
def floatsInEntries : List (Text × SynValue) → List F64
  | [] => []
  | (_, v) :: es => floatsIn v ++ floatsInEntries es

end

end SynValue

/-! ## ASCII -/

/-- Only characters of ASCII. -/
def IsAscii (t : Text) : Prop := ∀ c ∈ t, c.toNat < 128

variable {t : Text} {c : Char} {s : List StrItem}

theorem isAscii_append {u : Text} : IsAscii (t ++ u) ↔ IsAscii t ∧ IsAscii u := by
  simp only [IsAscii, mem_append, or_imp, forall_and]

theorem isAscii_flatMap {α : Type} {l : List α} {f : α → Text} (h : ∀ a ∈ l, IsAscii (f a)) :
    IsAscii (l.flatMap f) := by
  intro c hc
  obtain ⟨a, ha, hc⟩ := mem_flatMap.mp hc
  exact h a ha c hc

/-- A character that a tag in a script could begin or end with, or an entity. -/
def isTagChar (c : Char) : Bool := c == '<' || c == '>' || c == '&'

/-- A character that stands outside of texts. -/
def IsTokenChar (c : Char) : Prop := c.toNat < 128 ∧ isTagChar c = false

instance (c : Char) : Decidable (IsTokenChar c) := inferInstanceAs (Decidable (_ ∧ _))

theorem isTokenChar_of_isDigit (hc : c.isDigit) : IsTokenChar c := by
  have h := Char.isDigit_iff_toNat.mp hc
  have h₉ : '9'.toNat = 57 := rfl
  refine ⟨by omega, ?_⟩
  have hne (x : Char) (hx : x.isDigit = false) : (c == x) = false := by
    rw [beq_eq_false_iff_ne]
    rintro rfl
    rw [hc] at hx
    cases hx
  rw [isTagChar, hne _ rfl, hne _ rfl, hne _ rfl]
  rfl

theorem isTokenChar_number (n : NumberToken) : ∀ c ∈ n.text, IsTokenChar c := by
  have hchars (ds : Digits) : ∀ c ∈ ds.chars, IsTokenChar c :=
    fun c hc => isTokenChar_of_isDigit (ds.isDigit c hc)
  intro c hc
  simp only [NumberToken.text, mem_append] at hc
  rcases hc with ((hc | hc) | hc) | hc
  · unfold NumberToken.signText at hc
    split at hc
    · rw [mem_singleton.mp hc]
      exact ⟨by decide, rfl⟩
    · cases hc
  · exact hchars _ c hc
  · unfold NumberToken.fracText at hc
    cases hf : n.frac with
    | none =>
      rw [hf] at hc
      cases hc
    | some f =>
      rw [hf] at hc
      rcases List.mem_cons.mp hc with rfl | hc
      · exact ⟨by decide, rfl⟩
      · exact hchars _ c hc
  · unfold NumberToken.expText at hc
    cases he : n.exp with
    | none =>
      rw [he] at hc
      cases hc
    | some e =>
      rw [he] at hc
      simp only [Option.elim, Exponent.text, cons_append, List.mem_cons, mem_append] at hc
      rcases hc with rfl | hc | hc
      · cases e.upper <;> exact ⟨by decide, rfl⟩
      · unfold Exponent.signText at hc
        split at hc
        · cases hc
        · rename_i neg _
          rw [mem_singleton.mp hc]
          cases neg <;> exact ⟨by decide, rfl⟩
      · exact hchars _ c hc

/-! ## Escapes -/

/-- A digit of four. -/
def hexDigit (n : Nat) : HexDigit :=
  ⟨Nat.digitChar (n % 16), by
    have h : ∀ k < 16, (Nat.digitChar k).isDigit = true ∨
        ('a' ≤ Nat.digitChar k ∧ Nat.digitChar k ≤ 'f') ∨
        ('A' ≤ Nat.digitChar k ∧ Nat.digitChar k ≤ 'F') := by decide
    exact h _ (Nat.mod_lt n (by decide))⟩

theorem hexDigit_value (n : Nat) : (hexDigit n).value = n % 16 := by
  have h : ∀ k < 16, (hexDigit k).value = k := by decide
  have hn := h _ (Nat.mod_lt n (by decide))
  rw [← hn]
  simp [hexDigit]

/-- The four digits that are written of a code unit. -/
def unit16 (n : Nat) : Unit16 :=
  ⟨hexDigit (n / 4096), hexDigit (n / 256), hexDigit (n / 16), hexDigit n⟩

theorem unit16_value {n : Nat} (hn : n < 65536) : (unit16 n).value = n := by
  simp only [Unit16.value, unit16, hexDigit_value]
  omega

/-- What a character is written with. -/
def items (c : Char) : List StrItem :=
  if c = '"' then [.escape .quote]
  else if c = '\\' then [.escape .backslash]
  else if c.toNat = 0x08 then [.escape .b]
  else if c.toNat = 0x09 then [.escape .t]
  else if c.toNat = 0x0a then [.escape .n]
  else if c.toNat = 0x0c then [.escape .f]
  else if c.toNat = 0x0d then [.escape .r]
  else if c.toNat < 0x20 then [.unicode (unit16 c.toNat)]
  else if c.toNat < 0x7f then
    if h : 0x20 ≤ c.toNat ∧ c ≠ '"' ∧ c ≠ '\\' then [.char c h] else []
  else if c.toNat ≤ 0xffff then [.unicode (unit16 c.toNat)]
  else
    let v := c.toNat - 0x10000
    [.unicode (unit16 (0xd800 + v / 1024)), .unicode (unit16 (0xdc00 + v % 1024))]

/-- What a character is written with, and the text of it: a letter, its code unit, itself, or
the two halves of a pair. -/
inductive Escaped (c : Char) : List StrItem → Text → Prop
  | short (e : Escape) (hc : c = e.char) : Escaped c [.escape e] ['\\', e.letter]
  | unit (hc : c.toNat ≤ 0xffff) :
      Escaped c [.unicode (unit16 c.toNat)] (['\\', 'u'] ++ hex4 c.toNat)
  | plain (hc : c.toNat < 0x7f) (h : 0x20 ≤ c.toNat ∧ c ≠ '"' ∧ c ≠ '\\') :
      Escaped c [.char c h] [c]
  | pair (hc : 0xffff < c.toNat) :
      Escaped c [.unicode (unit16 (0xd800 + (c.toNat - 0x10000) / 1024)),
        .unicode (unit16 (0xdc00 + (c.toNat - 0x10000) % 1024))]
        (['\\', 'u'] ++ hex4 (0xd800 + (c.toNat - 0x10000) / 1024) ++ ['\\', 'u'] ++
          hex4 (0xdc00 + (c.toNat - 0x10000) % 1024))

theorem escaped (c : Char) : Escaped c (items c) (escapeChar c) := by
  have hof {n : Nat} (h : c.toNat = n) : c = Char.ofNat n := by rw [← h, Char.ofNat_toNat]
  unfold items escapeChar
  by_cases h₁ : c = '"'
  · rw [if_pos h₁, if_pos h₁]
    exact .short .quote h₁
  rw [if_neg h₁, if_neg h₁]
  by_cases h₂ : c = '\\'
  · rw [if_pos h₂, if_pos h₂]
    exact .short .backslash h₂
  rw [if_neg h₂, if_neg h₂]
  by_cases h₃ : c.toNat = 0x08
  · rw [if_pos h₃, if_pos h₃]
    exact .short .b (hof h₃)
  rw [if_neg h₃, if_neg h₃]
  by_cases h₄ : c.toNat = 0x09
  · rw [if_pos h₄, if_pos h₄]
    exact .short .t (hof h₄)
  rw [if_neg h₄, if_neg h₄]
  by_cases h₅ : c.toNat = 0x0a
  · rw [if_pos h₅, if_pos h₅]
    exact .short .n (hof h₅)
  rw [if_neg h₅, if_neg h₅]
  by_cases h₆ : c.toNat = 0x0c
  · rw [if_pos h₆, if_pos h₆]
    exact .short .f (hof h₆)
  rw [if_neg h₆, if_neg h₆]
  by_cases h₇ : c.toNat = 0x0d
  · rw [if_pos h₇, if_pos h₇]
    exact .short .r (hof h₇)
  rw [if_neg h₇, if_neg h₇]
  by_cases h₈ : c.toNat < 0x20
  · rw [if_pos h₈, if_pos h₈]
    exact .unit (by omega)
  rw [if_neg h₈, if_neg h₈]
  by_cases h₉ : c.toNat < 0x7f
  · rw [if_pos h₉, if_pos h₉, dif_pos ⟨Nat.not_lt.mp h₈, h₁, h₂⟩]
    exact .plain h₉ ⟨Nat.not_lt.mp h₈, h₁, h₂⟩
  rw [if_neg h₉, if_neg h₉]
  by_cases h₁₀ : c.toNat ≤ 0xffff
  · rw [if_pos h₁₀, if_pos h₁₀]
    exact .unit h₁₀
  rw [if_neg h₁₀, if_neg h₁₀]
  exact .pair (Nat.not_le.mp h₁₀)

theorem textAll_pair (m n : Nat) :
    StrItem.textAll [.unicode (unit16 m), .unicode (unit16 n)] =
      ['\\', 'u'] ++ hex4 m ++ ['\\', 'u'] ++ hex4 n := rfl

theorem Escaped.textAll (h : Escaped c s t) : StrItem.textAll s = t := by
  cases h with
  | short e hc | unit hc | plain hc h => rfl
  | pair hc => exact textAll_pair _ _

theorem decode_unit16 (hc : c.toNat ≤ 0xffff) (s : List StrItem) :
    StrItem.decode (.unicode (unit16 c.toNat) :: s) = (StrItem.decode s).map (c :: ·) := by
  have hv : (unit16 c.toNat).value = c.toNat := unit16_value (by omega)
  have hvalid := c.valid
  have hsur : ¬(0xd800 ≤ c.toNat ∧ c.toNat < 0xe000) := by
    rcases hvalid with h | h <;> unfold Char.toNat <;> omega
  have hl : ¬(unit16 c.toNat).IsLow := by
    rw [Unit16.IsLow, hv]
    omega
  have hh : ¬(unit16 c.toNat).IsHigh := by
    rw [Unit16.IsHigh, hv]
    omega
  rw [StrItem.decode_unicode hl hh, hv, Char.ofNat_toNat]

theorem decode_unit16_pair {v : Nat} (hv : v < 0x100000) (s : List StrItem) :
    StrItem.decode (.unicode (unit16 (0xd800 + v / 1024)) ::
      .unicode (unit16 (0xdc00 + v % 1024)) :: s) =
      (StrItem.decode s).map (Char.ofNat (0x10000 + v) :: ·) := by
  have hhigh : (unit16 (0xd800 + v / 1024)).value = 0xd800 + v / 1024 := unit16_value (by omega)
  have hlow : (unit16 (0xdc00 + v % 1024)).value = 0xdc00 + v % 1024 := unit16_value (by omega)
  have hh : (unit16 (0xd800 + v / 1024)).IsHigh := by
    rw [Unit16.IsHigh, hhigh]
    omega
  have hl : (unit16 (0xdc00 + v % 1024)).IsLow := by
    rw [Unit16.IsLow, hlow]
    omega
  have hsum : 0x10000 + (0xd800 + v / 1024 - 0xd800) * 1024 + (0xdc00 + v % 1024 - 0xdc00) =
      0x10000 + v := by omega
  rw [StrItem.decode_pair hh hl, Unit16.pair, hhigh, hlow, hsum]

theorem Escaped.decode (h : Escaped c s t) (r : List StrItem) :
    StrItem.decode (s ++ r) = (StrItem.decode r).map (c :: ·) := by
  cases h with
  | short e hc =>
    rw [hc]
    rfl
  | unit hc => exact decode_unit16 hc r
  | plain hc h => rfl
  | pair hc =>
    have hmax : c.toNat < 0x110000 := by
      rcases c.valid with h | h <;> unfold Char.toNat <;> omega
    have h := decode_unit16_pair (v := c.toNat - 0x10000) (by omega) r
    rwa [Nat.add_sub_of_le (by omega), Char.ofNat_toNat] at h

theorem hex4_tokenChar (n : Nat) : ∀ c ∈ hex4 n, IsTokenChar c := by
  have h : ∀ k < 16, (Nat.digitChar k).toNat < 128 ∧ isTagChar (Nat.digitChar k) = false := by
    decide
  intro c hc
  simp only [hex4, List.mem_cons, not_mem_nil, or_false] at hc
  rcases hc with rfl | rfl | rfl | rfl <;> exact h _ (Nat.mod_lt _ (by decide))

theorem Escaped.mem {x : Char} (h : Escaped c s t) (hx : x ∈ t) :
    x.toNat < 128 ∧ (isTagChar x = true → x = c) := by
  have htoken {y : Char} (hy : IsTokenChar y) : y.toNat < 128 ∧ (isTagChar y = true → y = c) :=
    ⟨hy.1, fun h => absurd (hy.2.symm.trans h) Bool.false_ne_true⟩
  have hback : IsTokenChar '\\' := ⟨by decide, rfl⟩
  have hunit (n : Nat) (hx : x ∈ ['\\', 'u'] ++ hex4 n) : IsTokenChar x := by
    rcases mem_append.mp hx with hx | hx
    · have h : ∀ y ∈ ['\\', 'u'], IsTokenChar y := by decide
      exact h x hx
    · exact hex4_tokenChar n x hx
  cases h with
  | short e hc =>
    have h : ∀ y ∈ ['\\', e.letter], IsTokenChar y := by cases e <;> decide
    exact htoken (h x hx)
  | unit hc => exact htoken (hunit _ hx)
  | plain hc h =>
    rw [mem_singleton.mp hx]
    exact ⟨by omega, fun _ => rfl⟩
  | pair hc =>
    rw [append_assoc (['\\', 'u'] ++ _)] at hx
    exact htoken ((mem_append.mp hx).elim (hunit _) (hunit _))

theorem escapeStr_eq (t : Text) : escapeStr t = '"' :: (t.flatMap escapeChar ++ ['"']) := by
  unfold escapeStr
  split_ifs with hp
  · have hplain : t.flatMap escapeChar = t := by
      induction t with
      | nil => rfl
      | cons c t ih =>
        have hc : isPlain c ∧ t.all isPlain := by simpa using hp
        have hc₁ : ((0x20 ≤ c.toNat ∧ c.toNat < 0x7f) ∧ c ≠ '"') ∧ c ≠ '\\' := by
          simpa [isPlain] using hc.1
        have hesc : escapeChar c = [c] := by
          unfold escapeChar
          rw [if_neg hc₁.1.2, if_neg hc₁.2, if_neg (by omega), if_neg (by omega),
            if_neg (by omega), if_neg (by omega), if_neg (by omega), if_neg (by omega),
            if_pos hc₁.1.1.2]
        rw [flatMap_cons, hesc, ih hc.2]
        rfl
    rw [hplain]
    rfl
  · rfl

/-! ## Ways to write the texts -/

/-- A way to write the characters of a text that has been written: what stands outside of texts
stays as it is, and what a character is written with stands for it. -/
structure Rewrite where
  char : Char → Text
  items : Char → List StrItem
  token : ∀ c, IsTokenChar c → char c = [c]
  text : ∀ c, StrItem.textAll (items c) = (escapeChar c).flatMap char
  decode : ∀ c s, StrItem.decode (items c ++ s) = (StrItem.decode s).map (c :: ·)

namespace Rewrite

/-- A text with its characters written so. -/
def apply (w : Rewrite) (t : Text) : Text := t.flatMap w.char

/-- As the writer has written it. -/
def none : Rewrite where
  char c := [c]
  items := Json.items
  token _ _ := rfl
  text c := by rw [(escaped c).textAll, flatMap_singleton']
  decode c := (escaped c).decode

theorem none_apply (t : Text) : none.apply t = t := flatMap_singleton' t

/-- For a script: the characters of a tag are written with their code unit. -/
def script : Rewrite where
  char c := if isTagChar c then ['\\', 'u'] ++ hex4 c.toNat else [c]
  items c := if isTagChar c then [.unicode (unit16 c.toNat)] else Json.items c
  token c hc := by rw [hc.2, if_neg Bool.false_ne_true]
  text c := by
    split_ifs with hc
    · have hcases : c = '<' ∨ c = '>' ∨ c = '&' := by simpa [isTagChar, or_assoc] using hc
      rcases hcases with rfl | rfl | rfl <;> rfl
    · rw [(escaped c).textAll]
      have h : ∀ x ∈ escapeChar c, (if isTagChar x then ['\\', 'u'] ++ hex4 x.toNat else [x]) =
          [x] := by
        intro x hx
        rw [if_neg fun hx' => hc (((escaped _).mem hx).2 hx' ▸ hx')]
      rw [flatMap_congr h, flatMap_singleton']
  decode c s := by
    split_ifs with hc
    · refine decode_unit16 ?_ s
      have hcases : c = '<' ∨ c = '>' ∨ c = '&' := by simpa [isTagChar, or_assoc] using hc
      rcases hcases with rfl | rfl | rfl <;> decide
    · exact (escaped c).decode s

variable (w : Rewrite)

theorem apply_append (t u : Text) : w.apply (t ++ u) = w.apply t ++ w.apply u :=
  flatMap_append

theorem apply_token (h : ∀ c ∈ t, IsTokenChar c) : w.apply t = t := by
  rw [apply, flatMap_congr fun c hc => w.token c (h c hc), flatMap_singleton']

theorem decode_flatMap (t : Text) : StrItem.decode (t.flatMap w.items) = some t := by
  induction t with
  | nil => rfl
  | cons c t ih => rw [flatMap_cons, w.decode, ih, Option.map_some]

theorem textAll_flatMap (t : Text) :
    StrItem.textAll (t.flatMap w.items) = w.apply (t.flatMap escapeChar) := by
  induction t with
  | nil => rfl
  | cons c t ih =>
    have happ (s s' : List StrItem) :
        StrItem.textAll (s ++ s') = StrItem.textAll s ++ StrItem.textAll s' :=
      flatMap_append
    rw [flatMap_cons, happ, ih, w.text, flatMap_cons, apply_append]
    rfl

theorem mem_script_apply (hc : c ∈ script.apply t) : isTagChar c = false := by
  obtain ⟨x, -, hx⟩ := mem_flatMap.mp hc
  change c ∈ if isTagChar x then ['\\', 'u'] ++ hex4 x.toNat else [x] at hx
  split_ifs at hx with htag
  · rcases mem_append.mp hx with hx | hx
    · have h : ∀ y ∈ ['\\', 'u'], isTagChar y = false := by decide
      exact h c hx
    · exact (hex4_tokenChar _ c hx).2
  · rw [mem_singleton.mp hx]
    simpa using htag

theorem apply_escapeStr (t : Text) : w.apply (escapeStr t) = quoted (t.flatMap w.items) := by
  have hquote : w.apply ['"'] = ['"'] :=
    w.apply_token fun c hc => mem_singleton.mp hc ▸ ⟨by decide, rfl⟩
  have hcons : escapeStr t = ['"'] ++ t.flatMap escapeChar ++ ['"'] := by
    rw [escapeStr_eq, append_assoc]
    rfl
  rw [hcons, apply_append, apply_append, hquote, ← w.textAll_flatMap]
  rfl

end Rewrite

theorem jsonForScript_eq (R : RustFmt) (v : SynValue) :
    jsonForScript R v = Rewrite.script.apply (dumpsSyn R v) := by
  unfold jsonForScript replaceText Rewrite.apply
  rw [flatMap_assoc, flatMap_assoc]
  apply flatMap_congr
  intro c _
  change _ = if isTagChar c then ['\\', 'u'] ++ hex4 c.toNat else [c]
  by_cases h₁ : c = '<'
  · subst h₁
    rfl
  by_cases h₂ : c = '>'
  · subst h₂
    rfl
  by_cases h₃ : c = '&'
  · subst h₃
    rfl
  have hc : isTagChar c = false := by simp [isTagChar, h₁, h₂, h₃]
  rw [if_neg h₁, flatMap_singleton, if_neg h₂, flatMap_singleton, if_neg h₃, hc]
  rfl

/-! ## What is written has a tree -/

/-- The text of a tree, no deeper than `d`, of the value `v`, once its texts are written so. -/
structure Written (w : Rewrite) (d : Nat) (t : Text) (v : SynValue) : Prop where
  ascii : IsAscii t
  tree : ∃ tree : Tree, tree.text = w.apply t ∧ tree.Admitted false ∧ tree.depth ≤ d ∧
    tree.value = v

section Written

variable {w : Rewrite} {d : Nat}

variable {t : Text} {xs : List Text} {e : Text × SynValue}

variable {v : SynValue} {vs : List SynValue} {x : Text} {es : List (Text × SynValue)}

theorem Written.mono {d' : Nat} (h : Written w d t v) (hd : d ≤ d') : Written w d' t v := by
  obtain ⟨hascii, tree, ht, hadm, hdepth, hv⟩ := h
  exact ⟨hascii, tree, ht, hadm, hdepth.trans hd, hv⟩

theorem written_token (ht : ∀ c ∈ t, IsTokenChar c) {T : Tree} (htext : T.text = t)
    (hadm : T.Admitted false) (hdepth : T.depth ≤ d) : Written w d t T.value :=
  ⟨fun c hc => (ht c hc).1, T, by rw [w.apply_token ht, htext], hadm, hdepth, rfl⟩

theorem written_number {n : NumberToken} (hadm : n.Admitted) :
    Written w d n.text (.number n.value) :=
  written_token (T := .number n) (isTokenChar_number n) rfl hadm (Nat.zero_le d)

theorem written_int (n : Int64) : Written w d (pushInt n) (.number (.int n)) := by
  have hint : (intToken n.toInt).isInteger := rfl
  have hlen : (digits n.toInt.natAbs).length ≤ 19 := by
    rw [digits, Nat.toString_eq_repr, Nat.toList_repr, Nat.length_toDigits_le_iff (by decide) (by decide)]
    have h := fitsInt64_toInt n
    unfold FitsInt64 at h
    omega
  have hadm : (intToken n.toInt).Admitted := by
    rw [NumberToken.Admitted, if_pos hint]
    exact hlen.trans (by decide)
  have h := written_number (w := w) (d := d) hadm
  rwa [intToken_text, ← pushInt_eq, intToken_value, fromBigint_toInt] at h

theorem written_big {n : Int} (hn : ¬FitsInt64 n) (hlen : (digits n.natAbs).length ≤ 4300) :
    Written w d (toString n).toList (.number (.big n hn)) := by
  have hint : (intToken n).isInteger := rfl
  have hadm : (intToken n).Admitted := by
    rw [NumberToken.Admitted, if_pos hint]
    exact hlen
  have h := written_number (w := w) (d := d) hadm
  rwa [intToken_text, intToken_value, fromBigint_big hn] at h

theorem written_float {R : RustFmt} {x : F64} (h : R.Shows x) (hx : x.isFinite) :
    Written w d (pushFloat R x) (.number (.float x)) := by
  obtain ⟨n, htext, hadm, hv⟩ := exists_floatToken h hx
  have h := written_number (w := w) (d := d) hadm
  rwa [htext, hv] at h

theorem isAscii_escapeStr (t : Text) : IsAscii (escapeStr t) := by
  rw [escapeStr_eq, ← singleton_append, isAscii_append, isAscii_append]
  have hquote : IsAscii ['"'] := fun c hc => mem_singleton.mp hc ▸ by decide
  exact ⟨hquote, isAscii_flatMap fun c _ x hx => ((escaped _).mem hx).1, hquote⟩

theorem written_text (t : Text) : Written w d (escapeStr t) (.text t) := by
  refine ⟨isAscii_escapeStr t, .str (t.flatMap w.items), (w.apply_escapeStr t).symm, ?_,
    Nat.zero_le d, ?_⟩
  · change (StrItem.decode _).isSome = true
    rw [w.decode_flatMap]
    rfl
  · change SynValue.text ((StrItem.decode _).getD []) = _
    rw [w.decode_flatMap]
    rfl

theorem commaSep_cons (x y : Text) (xs : List Text) :
    commaSep (x :: y :: xs) = x ++ ", " ++ commaSep (y :: xs) := by
  simp [commaSep, join, List.intercalate]

theorem tokenChar_comma : ∀ c ∈ ", ".toList, IsTokenChar c := by
  change ∀ c ∈ [',', ' '], IsTokenChar c
  decide

theorem tokenChar_colon : ∀ c ∈ ": ".toList, IsTokenChar c := by
  change ∀ c ∈ [':', ' '], IsTokenChar c
  decide

/-- A blank after a comma. -/
def blank : Ws := ⟨[' '], by simp⟩

theorem exists_elements (h : Forall₂ (Written w d) (x :: xs) (v :: vs)) :
    IsAscii (commaSep (x :: xs)) ∧
      ∃ es : Elements, es.text = w.apply (commaSep (x :: xs)) ∧ es.Admitted false ∧
        es.depth ≤ d ∧ es.values = v :: vs := by
  induction xs generalizing x v vs with
  | nil =>
    cases h with
    | cons h hs =>
      cases hs
      obtain ⟨hascii, t, ht, hadm, hdepth, rfl⟩ := h
      have hx : commaSep [x] = x := by simp [commaSep, join]
      rw [hx]
      refine ⟨hascii, .last t .none, ?_, hadm, hdepth, rfl⟩
      exact (append_nil _).trans ht
  | cons y xs ih =>
    cases h with
    | cons h hs =>
      cases hs with
      | cons h' hs =>
        obtain ⟨hascii, t, ht, hadm, hdepth, rfl⟩ := h
        obtain ⟨hascii', es, hes, hadm', hdepth', hvs⟩ := ih (.cons h' hs)
        refine ⟨?_, .cons t .none blank es, ?_, ⟨hadm, hadm'⟩, max_le hdepth hdepth', ?_⟩
        · rw [commaSep_cons, isAscii_append, isAscii_append]
          exact ⟨⟨hascii, fun c hc => (tokenChar_comma c hc).1⟩, hascii'⟩
        · rw [commaSep_cons, w.apply_append, w.apply_append, w.apply_token tokenChar_comma, ← ht,
            ← hes]
          simp [Ws.none, blank]
        · rw [Elements.values_cons, hvs]

theorem written_list (h : Forall₂ (Written w d) xs vs) :
    Written w (d + 1) (['['] ++ commaSep xs ++ [']']) (.list vs) := by
  have hopen : ∀ c ∈ ['['], IsTokenChar c := by decide
  have hclose : ∀ c ∈ [']'], IsTokenChar c := by decide
  have hbracket {t : Text} (ht : IsAscii t) : IsAscii (['['] ++ t ++ [']']) := by
    rw [isAscii_append, isAscii_append]
    exact ⟨⟨fun c hc => (hopen c hc).1, ht⟩, fun c hc => (hclose c hc).1⟩
  cases h with
  | nil =>
    refine ⟨hbracket (by simp [commaSep, join, IsAscii]), .emptyArray .none, ?_, trivial,
      Nat.le_add_left 1 d, rfl⟩
    rw [w.apply_append, w.apply_append, w.apply_token hopen, w.apply_token hclose]
    rfl
  | cons h hs =>
    obtain ⟨hascii, es, hes, hadm, hdepth, hvs⟩ := exists_elements (.cons h hs)
    refine ⟨hbracket hascii, .array .none es, ?_, hadm, Nat.succ_le_succ hdepth, ?_⟩
    · rw [w.apply_append, w.apply_append, w.apply_token hopen, w.apply_token hclose, ← hes]
      rfl
    · rw [← hvs]
      rfl

/-- The member of an entry that has been written. -/
def WrittenEntry (w : Rewrite) (d : Nat) (t : Text) (e : Text × SynValue) : Prop :=
  ∃ u, t = escapeStr e.1 ++ ": " ++ u ∧ Written w d u e.2

theorem WrittenEntry.ascii (h : WrittenEntry w d t e) : IsAscii t := by
  obtain ⟨u, rfl, hu⟩ := h
  rw [isAscii_append, isAscii_append]
  exact ⟨⟨isAscii_escapeStr _, fun c hc => (tokenChar_colon c hc).1⟩, hu.ascii⟩

theorem WrittenEntry.exists_tree (h : WrittenEntry w d t e) :
    ∃ tree : Tree, w.apply t = quoted (e.1.flatMap w.items) ++ ':' :: ' ' :: tree.text ∧
      tree.Admitted false ∧ tree.depth ≤ d ∧ tree.value = e.2 := by
  obtain ⟨u, rfl, -, tree, ht, hadm, hdepth, hv⟩ := h
  refine ⟨tree, ?_, hadm, hdepth, hv⟩
  rw [w.apply_append, w.apply_append, w.apply_escapeStr, w.apply_token tokenChar_colon, ht,
    append_assoc]
  rfl

theorem exists_members (h : Forall₂ (WrittenEntry w d) (x :: xs) (e :: es)) :
    IsAscii (commaSep (x :: xs)) ∧
      ∃ ms : Members, ms.text = w.apply (commaSep (x :: xs)) ∧ ms.Admitted false ∧
        ms.depth ≤ d ∧ ms.entries = e :: es := by
  have hkey (k : Text) : (StrItem.decode (k.flatMap w.items)).isSome = true ∧
      (StrItem.decode (k.flatMap w.items)).getD [] = k := by
    rw [w.decode_flatMap]
    exact ⟨rfl, rfl⟩
  induction xs generalizing x e es with
  | nil =>
    cases h with
    | cons h hs =>
      cases hs
      obtain ⟨t, ht, hadm, hdepth, hv⟩ := h.exists_tree
      have hx : commaSep [x] = x := by simp [commaSep, join]
      rw [hx]
      refine ⟨h.ascii, .last (e.1.flatMap w.items) .none blank t .none, ?_,
        ⟨(hkey e.1).1, hadm⟩, hdepth, ?_⟩
      · rw [ht]
        simp [Ws.none, blank]
      · simp only [Members.entries_last, (hkey e.1).2, hv]
  | cons y xs ih =>
    cases h with
    | cons h hs =>
      cases hs with
      | cons h' hs =>
        obtain ⟨t, ht, hadm, hdepth, hv⟩ := h.exists_tree
        obtain ⟨hascii', ms, hms, hadm', hdepth', hes⟩ := ih (.cons h' hs)
        refine ⟨?_, .cons (e.1.flatMap w.items) .none blank t .none blank ms, ?_,
          ⟨(hkey e.1).1, hadm, hadm'⟩, max_le hdepth hdepth', ?_⟩
        · rw [commaSep_cons, isAscii_append, isAscii_append]
          exact ⟨⟨h.ascii, fun c hc => (tokenChar_comma c hc).1⟩, hascii'⟩
        · rw [commaSep_cons, w.apply_append, w.apply_append, w.apply_token tokenChar_comma, ht,
            ← hms]
          simp [Ws.none, blank]
        · simp only [Members.entries_cons, (hkey e.1).2, hv, hes]

theorem written_map (hkeys : (es.map Prod.fst).Nodup) (h : Forall₂ (WrittenEntry w d) xs es) :
    Written w (d + 1) (['\x7b'] ++ commaSep xs ++ ['\x7d']) (.map es) := by
  have hopen : ∀ c ∈ ['\x7b'], IsTokenChar c := by decide
  have hclose : ∀ c ∈ ['\x7d'], IsTokenChar c := by decide
  have hbrace {t : Text} (ht : IsAscii t) : IsAscii (['\x7b'] ++ t ++ ['\x7d']) := by
    rw [isAscii_append, isAscii_append]
    exact ⟨⟨fun c hc => (hopen c hc).1, ht⟩, fun c hc => (hclose c hc).1⟩
  cases h with
  | nil =>
    refine ⟨hbrace (by simp [commaSep, join, IsAscii]), .emptyObject .none, ?_, trivial,
      Nat.le_add_left 1 d, rfl⟩
    rw [w.apply_append, w.apply_append, w.apply_token hopen, w.apply_token hclose]
    rfl
  | cons h hs =>
    obtain ⟨hascii, ms, hms, hadm, hdepth, hes⟩ := exists_members (.cons h hs)
    refine ⟨hbrace hascii, .object .none ms, ?_, hadm, Nat.succ_le_succ hdepth, ?_⟩
    · rw [w.apply_append, w.apply_append, w.apply_token hopen, w.apply_token hclose, ← hms]
      rfl
    · change SynValue.map (OrderedMap.lastWins ms.entries) = _
      rw [hes, OrderedMap.lastWins_of_nodup hkeys]

end Written

theorem WrittenEntry.mono {w : Rewrite} {d d' : Nat} {e : Text × SynValue}
    (h : WrittenEntry w d t e) (hd : d ≤ d') : WrittenEntry w d' t e := by
  obtain ⟨u, ht, hu⟩ := h
  exact ⟨u, ht, hu.mono hd⟩

theorem map_fst_boxedEntries (es : List (Text × SynValue)) :
    (SynValue.boxedEntries es).map Prod.fst = es.map Prod.fst := by
  induction es with
  | nil => rfl
  | cons e es ih =>
    change e.1 :: (SynValue.boxedEntries es).map Prod.fst = _
    rw [ih]
    rfl

section

variable {w : Rewrite} {R : RustFmt}

theorem written_ints (xs : List Int64) :
    Forall₂ (Written w 0) (xs.map pushInt) (xs.map fun x => .number (.int x)) := by
  induction xs with
  | nil => exact .nil
  | cons x xs ih => exact .cons (written_int x) ih

theorem written_floats {xs : List F64} (henc : ∀ x ∈ xs, x.isFinite) (hR : ∀ x ∈ xs, R.Shows x) :
    Forall₂ (Written w 0) (xs.map (pushFloat R)) (xs.map fun x => .number (.float x)) := by
  induction xs with
  | nil => exact .nil
  | cons x xs ih =>
    refine .cons (written_float (hR x (mem_cons_self ..)) (henc x (mem_cons_self ..))) ?_
    exact ih (fun y hy => henc y (mem_cons_of_mem _ hy))
      fun y hy => hR y (mem_cons_of_mem _ hy)

mutual

theorem written_value (v : SynValue) (henc : v.Encodable) (hR : ∀ x ∈ v.floatsIn, R.Shows x) :
    Written w v.depth (dumpsSyn R v) v.boxed := by
  cases v with
  | nothing =>
    have ht : ∀ c ∈ ['n', 'u', 'l', 'l'], IsTokenChar c := by decide
    exact written_token (T := .null) ht rfl trivial (Nat.le_refl 0)
  | bool b =>
    cases b with
    | true =>
      have ht : ∀ c ∈ ['t', 'r', 'u', 'e'], IsTokenChar c := by decide
      exact written_token (T := .bool true) ht rfl trivial (Nat.le_refl 0)
    | false =>
      have ht : ∀ c ∈ ['f', 'a', 'l', 's', 'e'], IsTokenChar c := by decide
      exact written_token (T := .bool false) ht rfl trivial (Nat.le_refl 0)
  | number n =>
    cases n with
    | int n => exact written_int n
    | big n hn => exact written_big hn henc
    | float x => exact written_float (hR x (mem_singleton_self x)) henc
  | text t => exact written_text t
  | list items => exact written_list (written_all items henc hR)
  | ints xs => exact written_list (written_ints xs)
  | floats xs => exact written_list (written_floats henc hR)
  | map entries =>
    refine written_map ?_ (written_entries entries henc.2 hR)
    rw [map_fst_boxedEntries]
    exact henc.1

theorem written_all (vs : List SynValue) (henc : SynValue.EncodableAll vs)
    (hR : ∀ x ∈ SynValue.floatsInAll vs, R.Shows x) :
    Forall₂ (Written w (SynValue.depthAll vs)) (dumpsSynAll R vs) (SynValue.boxedAll vs) := by
  cases vs with
  | nil => exact .nil
  | cons v vs =>
    have h := written_value v henc.1 fun x hx => hR x (mem_append_left _ hx)
    have hs := written_all vs henc.2 fun x hx => hR x (mem_append_right _ hx)
    exact .cons (h.mono (le_max_left ..)) (hs.imp fun t u h => h.mono (le_max_right ..))

theorem written_entries (es : List (Text × SynValue)) (henc : SynValue.EncodableEntries es)
    (hR : ∀ x ∈ SynValue.floatsInEntries es, R.Shows x) :
    Forall₂ (WrittenEntry w (SynValue.depthEntries es)) (dumpsSynEntries R es)
      (SynValue.boxedEntries es) := by
  match es with
  | [] => exact .nil
  | (k, v) :: es =>
    have h := written_value v henc.1 fun x hx => hR x (mem_append_left _ hx)
    have hs := written_entries es henc.2 fun x hx => hR x (mem_append_right _ hx)
    exact .cons ⟨_, rfl, h.mono (le_max_left ..)⟩ (hs.imp fun t e h => h.mono (le_max_right ..))

end

/-! ## Reading it back -/

theorem dropBom_text (tree : Tree) : Exact.dropBom tree.text = tree.text := by
  obtain ⟨c, s, hs, -, -, hc⟩ := Exact.tree_head tree
  have hbom : (Char.ofNat 0xfeff == c) = false := by
    rw [beq_eq_false_iff_ne]
    rintro rfl
    exact absurd hc (by decide)
  rw [hs, Exact.dropBom, stripPrefix, List.isPrefixOf?, hbom]
  rfl

theorem parse_written {v : SynValue} (h : Written w Exact.maxDepth t v) :
    Exact.parse (w.apply t) = .ok v := by
  obtain ⟨-, tree, ht, hadm, hdepth, rfl⟩ := h
  have htext : (Document.mk .none tree .none).text = tree.text := append_nil _
  refine Exact.parseOpts_of_document (d := ⟨.none, tree, .none⟩) ?_ ⟨hdepth, hadm⟩
  rw [htext, ← ht, dropBom_text]

/-- **A value that can be written is read back as it was**, with its kinds of numbers and the
order of its keys, from what either writer gives, in ASCII, and from the text for a script, in
which no tag can begin. -/
theorem dumps_roundtrip (R : RustFmt) (v : SynValue) (henc : v.Encodable) (hdepth : v.depth ≤ 128)
    (hR : ∀ x ∈ v.floatsIn, R.Shows x) :
    IsAscii (dumpsSyn R v) ∧ dumpsSyn R v = dumps R (synToJson v) ∧
      Exact.parse (dumpsSyn R v) = .ok v.boxed ∧
      Exact.parse (jsonForScript R v) = .ok v.boxed ∧
      ∀ c ∈ jsonForScript R v, c ≠ '<' ∧ c ≠ '>' ∧ c ≠ '&' := by
  have hwritten (w : Rewrite) : Written w Exact.maxDepth (dumpsSyn R v) v.boxed :=
    (written_value v henc hR).mono hdepth
  refine ⟨(hwritten .none).ascii, (dumps_eq_dumpsSyn R v).symm, ?_, ?_, ?_⟩
  · have h := parse_written (hwritten .none)
    rwa [Rewrite.none_apply] at h
  · rw [jsonForScript_eq]
    exact parse_written (hwritten .script)
  · intro c hc
    rw [jsonForScript_eq] at hc
    have htag : isTagChar c = false := Rewrite.mem_script_apply hc
    simpa [isTagChar, and_assoc] using htag

/-- A record with a float and an unboxed list, under a key that a script has to escape. -/
theorem dumps_roundtrip_record :
    Exact.parse (jsonForScript ⟨fun _ => "1.5e0"⟩
      (.map [("<a>", .list [.number (.float ⟨false, 0x3ff8000000000000, by decide⟩),
        .ints [1, -2]])])) =
      .ok (.map [("<a>", .list [.number (.float ⟨false, 0x3ff8000000000000, by decide⟩),
        .list [.number (.int 1), .number (.int (-2))]])]) := by
  refine (dumps_roundtrip _ _ ?_ (by decide) ?_).2.2.2.1
  · exact ⟨by simp, ⟨rfl, trivial, trivial⟩, trivial⟩
  · intro x hx
    obtain rfl : x = ⟨false, 0x3ff8000000000000, by decide⟩ := by
      simpa [SynValue.floatsIn, SynValue.floatsInEntries, SynValue.floatsInAll] using hx
    exact ⟨'1', ['5'], 0, by decide +kernel, by decide, by decide, by decide +kernel⟩

end

end Synsema.Json
