import Mathlib.Data.List.Infix
import Mathlib.Data.List.DropRight
import Mathlib.Data.List.Lex
import Mathlib.Data.Char
import Mathlib.Algebra.Group.Nat.Defs

/-!
# Texts

The string operations the runtime uses, over lists of characters.  A text is
compared, split and joined by characters; the code's byte offsets only ever point at
ASCII separators, where the two agree.

`trim` follows Unicode's `White_Space` property, as `str::trim` does.
-/

namespace Synsema

open List

/-- A text: its characters in order. -/
abbrev Text := List Char

instance : Coe String Text := ⟨String.toList⟩

instance : LawfulBEq Text := inferInstance

instance (priority := 2000) decidableForallMem {α : Type} {p : α → Prop} [DecidablePred p]
    (l : List α) : Decidable (∀ x ∈ l, p x) := List.decidableBAll p l

instance (priority := 2000) decidableForallSome {α : Type} {p : α → Prop} [DecidablePred p]
    (o : Option α) : Decidable (∀ x ∈ o, p x) :=
  Option.decidableForallMem o

namespace Text

/-- `str::starts_with`. -/
def startsWith (pre s : Text) : Bool := pre.isPrefixOf s

/-- `str::ends_with`. -/
def endsWith (suf s : Text) : Bool := suf.isSuffixOf s

/-- `str::strip_prefix`. -/
def stripPrefix (pre s : Text) : Option Text := List.isPrefixOf? pre s

/-- `str::split_once` on a character: around its first occurrence. -/
@[grind] def splitOnce (c : Char) : Text → Option (Text × Text)
  | [] => none
  | x :: s => if x = c then some ([], s) else (splitOnce c s).map fun (l, r) => (x :: l, r)

/-- `str::rsplit_once` on a character: around its last occurrence. -/
@[grind] def rsplitOnce (c : Char) : Text → Option (Text × Text)
  | [] => none
  | x :: s =>
    match rsplitOnce c s with
    | some (l, r) => some (x :: l, r)
    | none => if x = c then some ([], s) else none

/-- `str::split_once` on a text: around its first occurrence. -/
@[grind] def splitOnceStr (sep : Text) : Text → Option (Text × Text)
  | [] => (stripPrefix sep []).map fun r => ([], r)
  | x :: s =>
    match stripPrefix sep (x :: s) with
    | some r => some ([], r)
    | none => (splitOnceStr sep s).map fun (l, r) => (x :: l, r)

/-- `str::contains` on a text. -/
def containsStr (sep s : Text) : Bool := (splitOnceStr sep s).isSome

/-- `str::split` on a character. -/
def split (c : Char) (s : Text) : List Text := s.splitOn c

/-- The text before the first character that `p` accepts. -/
def before (p : Char → Bool) (s : Text) : Text := s.takeWhile fun c => !p c

def join (sep : Text) (parts : List Text) : Text := sep.intercalate parts

/-- Unicode's `White_Space`, the characters `str::trim` removes. -/
def isWhitespace (c : Char) : Bool :=
  c.toNat ∈ [0x09, 0x0a, 0x0b, 0x0c, 0x0d, 0x20, 0x85, 0xa0, 0x1680, 0x2028, 0x2029, 0x202f,
    0x205f, 0x3000] || (0x2000 ≤ c.toNat && c.toNat ≤ 0x200a)

/-- `str::trim_start`. -/
def trimStart (s : Text) : Text := s.dropWhile isWhitespace

/-- `str::trim_end_matches` on the characters that `p` accepts. -/
def trimEndMatches (p : Char → Bool) (s : Text) : Text := s.rdropWhile p

/-- `str::trim`. -/
def trim (s : Text) : Text := trimEndMatches isWhitespace (trimStart s)

/-- `str::replace` of one character by another. -/
def replaceChar (a b : Char) (s : Text) : Text := s.map fun c => if c = a then b else c

/-- `str::to_ascii_lowercase`. -/
def toAsciiLowercase (s : Text) : Text := s.map Char.toLower

/-- `str::to_ascii_uppercase`. -/
def toAsciiUppercase (s : Text) : Text := s.map Char.toUpper

def eqIgnoreAsciiCase (s t : Text) : Bool := toAsciiLowercase s == toAsciiLowercase t

/-- Does the text have one of the characters of `cs`? -/
def containsAny (cs : List Char) (s : Text) : Bool := s.any fun c => cs.contains c

/-- Only ASCII digits. -/
def allDigits (s : Text) : Bool := s.all Char.isDigit

/-! ## Lower case -/

theorem toLower_toLower (c : Char) : c.toLower.toLower = c.toLower := by
  unfold Char.toLower
  split
  · split
    · rename_i h₁ h₂
      simp only [ge_iff_le, UInt32.le_iff_toNat_le, UInt32.toNat_add, seval] at h₁ h₂
      omega
    · simp
  · rfl

theorem toAsciiLowercase_idem (s : Text) :
    toAsciiLowercase (toAsciiLowercase s) = toAsciiLowercase s := by
  rw [toAsciiLowercase, toAsciiLowercase, map_map]
  exact map_congr_left fun c _ => toLower_toLower c

/-! ## Splitting -/

variable {c : Char} {sep l s r t : Text}

theorem mem_join {segs : List Text} (h : c ∈ join sep segs) : c ∈ sep ∨ ∃ s ∈ segs, c ∈ s := by
  induction segs with
  | nil => cases h
  | cons s segs ih =>
    cases segs with
    | nil => exact .inr ⟨s, mem_singleton_self s, by simpa [join] using h⟩
    | cons t segs =>
      simp only [join, intercalate_cons_cons, mem_append] at h
      rcases h with (h | h) | h
      · exact .inr ⟨s, mem_cons_self, h⟩
      · exact .inl h
      · obtain h | ⟨u, hu, hc⟩ := ih h
        · exact .inl h
        · exact .inr ⟨u, mem_cons_of_mem s hu, hc⟩

theorem splitOnce_append (hl : c ∉ l) (r : Text) : splitOnce c (l ++ c :: r) = some (l, r) := by
  induction l with
  | nil => simp [splitOnce]
  | cons x l ih =>
    have hx : x ≠ c := fun h => hl (by simp [h])
    simp [splitOnce, hx, ih fun h => hl (mem_cons_of_mem _ h)]

theorem splitOnce_eq_some (h : splitOnce c s = some (l, r)) : s = l ++ c :: r := by
  induction s generalizing l with
  | nil => cases h
  | cons x s ih =>
    rw [splitOnce] at h
    split at h
    · rename_i hx
      cases h
      rw [hx]
      rfl
    · obtain ⟨⟨l', r'⟩, hs, heq⟩ := Option.map_eq_some_iff.mp h
      cases heq
      rw [ih hs]
      rfl

theorem splitOnce_notMem (h : splitOnce c s = some (l, r)) : c ∉ l := by
  induction s generalizing l with
  | nil => cases h
  | cons x s ih =>
    rw [splitOnce] at h
    split at h
    · cases h
      exact not_mem_nil
    · rename_i hx
      obtain ⟨⟨l', r'⟩, hs, heq⟩ := Option.map_eq_some_iff.mp h
      cases heq
      rw [List.mem_cons, not_or]
      exact ⟨Ne.symm hx, ih hs⟩

theorem splitOnce_eq_none_iff : splitOnce c s = none ↔ c ∉ s := by
  induction s with
  | nil => simp [splitOnce]
  | cons x s ih =>
    by_cases hx : x = c
    · simp [splitOnce, hx]
    · simp [splitOnce, hx, ih, Ne.symm hx]

theorem rsplitOnce_eq_none_iff : rsplitOnce c s = none ↔ c ∉ s := by
  induction s with
  | nil => simp [rsplitOnce]
  | cons x s ih =>
    unfold rsplitOnce
    cases hs : rsplitOnce c s with
    | some lr =>
      have hm : c ∈ s := by simpa using mt ih.mpr (by simp [hs])
      simp [hm]
    | none => simp [ih.mp hs, eq_comm]

theorem rsplitOnce_append (l : Text) (hr : c ∉ r) : rsplitOnce c (l ++ c :: r) = some (l, r) := by
  induction l with
  | nil => simp [rsplitOnce, rsplitOnce_eq_none_iff.mpr hr]
  | cons x l ih => simp [rsplitOnce, ih]

theorem rsplitOnce_eq_some (h : rsplitOnce c s = some (l, r)) : s = l ++ c :: r ∧ c ∉ r := by
  induction s generalizing l r with
  | nil => cases h
  | cons x s ih =>
    unfold rsplitOnce at h
    cases hs : rsplitOnce c s with
    | some lr =>
      obtain ⟨l', r'⟩ := lr
      simp only [hs, Option.some.injEq, Prod.mk.injEq] at h
      obtain ⟨rfl, rfl⟩ := h
      obtain ⟨rfl, hr⟩ := ih hs
      exact ⟨rfl, hr⟩
    | none =>
      simp only [hs] at h
      split at h
      · rename_i hx
        simp only [Option.some.injEq, Prod.mk.injEq] at h
        obtain ⟨rfl, rfl⟩ := h
        exact ⟨by simp [hx], rsplitOnce_eq_none_iff.mp hs⟩
      · cases h

theorem stripPrefix_eq_some {p : Text} : stripPrefix p s = some r ↔ s = p ++ r := by
  rw [stripPrefix, isPrefixOf?_eq_some_iff_append_eq, eq_comm]

theorem eq_of_splitOnceStr (h : splitOnceStr sep s = some (l, r)) : s = l ++ (sep ++ r) := by
  induction s generalizing l with
  | nil =>
    obtain ⟨q, hq, heq⟩ := Option.map_eq_some_iff.mp h
    cases heq
    exact (stripPrefix_eq_some (p := sep)).mp hq
  | cons x s ih =>
    simp only [splitOnceStr] at h
    split at h
    · rename_i hq
      cases h
      exact (stripPrefix_eq_some (p := sep)).mp hq
    · obtain ⟨⟨l', r'⟩, hsplit, heq⟩ := Option.map_eq_some_iff.mp h
      cases heq
      rw [ih hsplit, cons_append]

theorem splitOnceStr_extend (h : splitOnceStr sep s = some (l, r)) (t : Text) :
    splitOnceStr sep (s ++ t) = some (l, r ++ t) := by
  induction s generalizing l with
  | nil =>
    obtain ⟨q, hq, heq⟩ := Option.map_eq_some_iff.mp h
    cases heq
    obtain ⟨rfl, rfl⟩ : sep = [] ∧ r = [] := by simpa using stripPrefix_eq_some.mp hq
    cases t <;> rfl
  | cons x s ih =>
    simp only [splitOnceStr] at h
    rw [cons_append, splitOnceStr]
    split at h
    · rename_i hq
      cases h
      have hext : stripPrefix sep (x :: (s ++ t)) = some (r ++ t) := by
        rw [stripPrefix_eq_some, ← append_assoc, ← stripPrefix_eq_some.mp hq, cons_append]
      rw [hext]
    · rename_i hnone
      obtain ⟨⟨l', r'⟩, hsplit, heq⟩ := Option.map_eq_some_iff.mp h
      cases heq
      have hext : stripPrefix sep (x :: (s ++ t)) = none := by
        rw [Option.eq_none_iff_forall_ne_some]
        intro q hq
        -- The separator fits into `x :: s`, where it does not stand.
        have hlen : sep.length ≤ (x :: s).length := by
          rw [eq_of_splitOnceStr hsplit]
          simp only [length_cons, length_append]
          omega
        have hpre : sep <+: x :: s := prefix_of_prefix_length_le
          ⟨q, (stripPrefix_eq_some.mp hq).symm⟩ ⟨t, cons_append⟩ hlen
        obtain ⟨q', hq'⟩ := hpre
        rw [stripPrefix_eq_some.mpr hq'.symm] at hnone
        cases hnone
      rw [hext, ih hsplit]
      rfl

theorem splitOnceStr_self (h : splitOnceStr sep s = some (l, r)) :
    splitOnceStr sep (l ++ sep) = some (l, []) := by
  induction s generalizing l with
  | nil =>
    obtain ⟨q, hq, heq⟩ := Option.map_eq_some_iff.mp h
    cases heq
    obtain ⟨rfl, rfl⟩ : sep = [] ∧ r = [] := by simpa using stripPrefix_eq_some.mp hq
    rfl
  | cons x s ih =>
    simp only [splitOnceStr] at h
    split at h
    · cases h
      have hself : stripPrefix sep sep = some [] := stripPrefix_eq_some.mpr (append_nil _).symm
      cases sep with
      | nil => rfl
      | cons c sep => rw [nil_append, splitOnceStr, hself]
    · rename_i hnone
      obtain ⟨⟨l', r'⟩, hsplit, heq⟩ := Option.map_eq_some_iff.mp h
      cases heq
      have hself : stripPrefix sep (x :: (l' ++ sep)) = none := by
        rw [Option.eq_none_iff_forall_ne_some]
        intro q hq
        -- more text behind would keep it
        have hext : x :: s = sep ++ (q ++ r') := by
          rw [eq_of_splitOnceStr hsplit, ← append_assoc l', ← cons_append,
            stripPrefix_eq_some.mp hq, append_assoc]
        rw [stripPrefix_eq_some.mpr hext] at hnone
        cases hnone
      rw [cons_append, splitOnceStr, hself, ih hsplit]
      rfl

theorem splitOnceStr_append (hl : c ∉ l) (n r : Text) :
    splitOnceStr (c :: n) (l ++ (c :: n ++ r)) = some (l, r) := by
  induction l with
  | nil =>
    rw [nil_append, cons_append, splitOnceStr, ← cons_append, stripPrefix_eq_some.mpr rfl]
  | cons d l ih =>
    rw [List.mem_cons, not_or] at hl
    have hnone : stripPrefix (c :: n) (d :: (l ++ (c :: n ++ r))) = none := by
      rw [Option.eq_none_iff_forall_ne_some]
      intro u hu
      exact hl.1 (cons.inj (stripPrefix_eq_some.mp hu)).1.symm
    rw [cons_append, splitOnceStr, hnone, ih hl.2]
    rfl

/-! ## Blanks -/

theorem trim_eq_self (hhead : ∀ c ∈ t.head?, isWhitespace c = false)
    (hlast : ∀ c ∈ t.getLast?, isWhitespace c = false) : trim t = t := by
  have hstart : trimStart t = t := by
    cases t with
    | nil => rfl
    | cons c t => exact dropWhile_cons_of_neg (by simp [hhead c rfl])
  rw [trim, hstart, trimEndMatches, rdropWhile_eq_self_iff]
  intro hne
  rw [hlast _ (getLast?_eq_some_getLast hne)]
  decide

theorem trim_head : ∀ c ∈ (trim t).head?, isWhitespace c = false := by
  intro c hc
  have hhead : c ∈ (trimStart t).head? := by
    obtain ⟨u, hu⟩ := rdropWhile_prefix isWhitespace (trimStart t)
    rw [← hu]
    exact mem_head?_append_of_mem_head? hc
  have hnot := head?_dropWhile_not isWhitespace t
  rw [trimStart, Option.mem_def] at hhead
  rw [hhead] at hnot
  simpa using hnot

theorem trim_last : ∀ c ∈ (trim t).getLast?, isWhitespace c = false := by
  intro c hc
  obtain ⟨hne, rfl⟩ := mem_getLast?_eq_getLast hc
  exact Bool.of_not_eq_true (rdropWhile_last_not _ _ hne)

theorem trim_trim (t : Text) : trim (trim t) = trim t := trim_eq_self trim_head trim_last

/-! ## Digits -/

/-- The digits of a number. -/
abbrev digits (n : Nat) : Text := (toString n).toList

theorem allDigits_digits (n : Nat) : allDigits (digits n) = true := by
  rw [digits, allDigits, all_eq_true, Nat.toString_eq_repr, Nat.toList_repr]
  intro c hc
  exact Nat.isDigit_of_mem_toDigits (by decide) (by decide) hc

theorem digits_ne_nil (n : Nat) : digits n ≠ [] := by
  rw [digits, Nat.toString_eq_repr, Nat.toList_repr]
  exact Nat.toDigits_ne_nil

theorem ofDigitChars_digits (n : Nat) : Nat.ofDigitChars 10 (digits n) 0 = n := by
  rw [digits, Nat.toString_eq_repr, Nat.toList_repr, Nat.ofDigitChars_ten_toDigits]

theorem ofDigitChars_lt {ds : Text} (hd : ∀ c ∈ ds, c.isDigit) (init : Nat) :
    Nat.ofDigitChars 10 ds init < (init + 1) * 10 ^ ds.length := by
  induction ds generalizing init with
  | nil => simp
  | cons c ds ih =>
    have hc := Char.isDigit_iff_toNat.mp (hd c (mem_cons_self ..))
    have hc : c.toNat - '0'.toNat < 10 := by
      have h₀ : '0'.toNat = 48 := rfl
      have h₉ : '9'.toNat = 57 := rfl
      omega
    have h := ih (fun c hc => hd c (mem_cons_of_mem _ hc)) (10 * init + (c.toNat - '0'.toNat))
    rw [Nat.ofDigitChars_cons, length_cons, Nat.pow_succ, Nat.mul_comm _ 10, ← Nat.mul_assoc]
    exact h.trans_le (Nat.mul_le_mul_right _ (by omega))

/-- The sign of a number, as it is written. -/
abbrev sign (m : Int) : Text := if m < 0 then ['-'] else []

theorem toString_eq (m : Int) : (toString m).toList = sign m ++ digits m.natAbs := by
  rw [Int.toString_eq_repr, Int.repr_eq_if]
  by_cases hm : 0 ≤ m
  · rw [if_pos hm, sign, if_neg (Int.not_lt.mpr hm), nil_append, digits, Nat.toString_eq_repr]
    congr 2
    omega
  · rw [if_neg hm, sign, if_pos (Int.not_le.mp hm), String.toList_append, digits, Nat.toString_eq_repr]
    congr 3
    omega

end Text

end Synsema
