import Synsema.Abi.Types

/-!
# The parser of types

`TypeParser` and `parse_single_type` of `synsema-stdlib/src/blockchain_abi.rs`.

The parser goes along the bytes of a text; as every character that it takes is an ASCII one, the
model goes along its characters.  What is parsed of the canonical form of a type is that type.
-/

namespace Synsema.Eip712

open Text List
open Except (bind_eq_ok)
open Abi
open Blockchain (Stop)

def maxDepth : Nat := 64

/-! ## Parsing -/

section Parse

variable (debug : Text → Text) (structsOk : Bool) (fname : Text)

/-- `parse`, of digits, up to the greatest number of the type. -/
def parseUnsigned (max : Nat) (d : Text) : Option Nat :=
  if d = [] ∨ allDigits d = false then none
  else if Nat.ofDigitChars 10 d 0 ≤ max then some (Nat.ofDigitChars 10 d 0) else none

def u16Max : Nat := 65535

def usizeMax : Nat := 2 ^ 64 - 1

/-- What stands behind a prefix is a number. -/
def widthAfter (pre : String) (max : Nat) (ident : Text) : Option Nat :=
  (stripPrefix pre.toList ident).bind (parseUnsigned max)

/-- What `base_type` makes of a name that is none of a builtin type. -/
def structType (ident : Text) : Except Stop AbiType :=
  if structsOk then
    if (ident.headD ' ').isDigit then
      fail (fname ++ ": invalid type name " ++ debug ident)
    else .ok (.struct ident)
  else fail (fname ++ ": unknown ABI type " ++ debug ident)

/-- What `base_type` makes of a name with a width. -/
def sizedType (ident : Text) : Except Stop AbiType :=
  match widthAfter "uint" u16Max ident with
  | some n =>
    if 8 ≤ n ∧ n ≤ 256 ∧ n % 8 = 0 then .ok (.uint n)
    else fail (fname ++ ": invalid type \"" ++ ident ++
      "\" (uint width must be 8..256 in steps of 8)")
  | none =>
    match widthAfter "int" u16Max ident with
    | some n =>
      if 8 ≤ n ∧ n ≤ 256 ∧ n % 8 = 0 then .ok (.int n)
      else fail (fname ++ ": invalid type \"" ++ ident ++
        "\" (int width must be 8..256 in steps of 8)")
    | none =>
      match widthAfter "bytes" usizeMax ident with
      | some n =>
        if 1 ≤ n ∧ n ≤ 32 then .ok (.fixedBytes n)
        else fail (fname ++ ": invalid type \"" ++ ident ++
          "\" (bytesN width must be 1..32)")
      | none => structType debug structsOk fname ident

def baseType (ident : Text) : Except Stop AbiType :=
  if ident = "address" then .ok .address
  else if ident = "bool" then .ok .bool
  else if ident = "string" then .ok .string
  else if ident = "bytes" then .ok .bytes
  else if ident = "uint" then .ok (.uint 256)
  else if ident = "int" then .ok (.int 256)
  else if ident = "tuple" then
    fail (fname ++ ": write tuples with parentheses — \"(address,uint256)\" — not \"tuple\"")
  else if ident = "fixed" ∨ ident = "ufixed" then
    fail (fname ++ (": fixed-point ABI types are not supported (no mainstream contract uses " ++
      "them)").toList)
  else sizedType debug structsOk fname ident

/-- A character of a name. -/
def isIdent (c : Char) : Bool := c.isAlphanum || c == '_' || c == '$'

/-- The suffixes `[]` and `[k]`; each takes two characters at least, so that a fuel of the length of
the text does not run out. -/
def arraySuffixes (full : Text) : Nat → AbiType → Text → Except Stop (AbiType × Text)
  | fuel + 1, t, '[' :: s =>
    let digits := s.takeWhile Char.isDigit
    match s.dropWhile Char.isDigit with
    | ']' :: rest =>
      if digits = [] then arraySuffixes full fuel (.array t) rest
      else
        match parseUnsigned usizeMax digits with
        | none => fail (fname ++ ": invalid array size " ++ debug digits)
        | some k =>
          if k = 0 then
            fail (fname ++ ": zero-length fixed array \"" ++ t.display ++
              "[0]\" is not a valid ABI type")
          else arraySuffixes full fuel (.fixedArray t k) rest
    | _ => fail (fname ++ ": unclosed \"[\" in type (in " ++ debug full ++ ")")
  | _, t, s => .ok (t, s)

/-- The loop over the items of a tuple; each takes a character at least. -/
def tupleItems (full : Text) (item : Text → Except Stop (AbiType × Text)) :
    Nat → List AbiType → Text → Except Stop (AbiType × Text)
  | 0, _, _ => fail (fname ++ ": expected \",\" or \")\" in tuple type (in " ++
      debug full ++ ")")
  | fuel + 1, ts, s => do
    let (t, s) ← item s
    match s with
    | ',' :: s => tupleItems full item fuel (ts ++ [t]) s
    | ')' :: s => .ok (.tuple (ts ++ [t]), s)
    | _ => fail (fname ++ ": expected \",\" or \")\" in tuple type (in " ++
        debug full ++ ")")

/-- `parse_type`, with the number of levels that are left: a type and what stands behind it. -/
def parseType (full : Text) : Nat → Text → Except Stop (AbiType × Text)
  | 0, _ => fail (fname ++ ": the type is nested too deeply (max " ++ num maxDepth ++
      " levels)")
  | levels + 1, s => do
    let (base, s) ←
      if s.head? = some '(' then
        if s.tail.head? = some ')' then
          fail (fname ++ ": empty tuple \"()\" is not a valid ABI type (in " ++
            debug full ++ ")")
        else tupleItems debug fname full (parseType full levels) s.length [] s.tail
      else
        let ident := s.takeWhile isIdent
        if ident = [] then
          fail (fname ++ ": expected a type name (in " ++ debug full ++ ")")
        else do
          let base ← baseType debug structsOk fname ident
          .ok (base, s.dropWhile isIdent)
    arraySuffixes debug fname full s.length base s

def checkNoSpaces (s : Text) : Except Stop Unit :=
  if s.any isWhitespace then
    fail (fname ++ (": the signature/type must be canonical — no spaces or parameter names, e.g. " ++
      "\"transfer(address,uint256)\" (got ").toList ++ debug s ++ ")")
  else .ok ()

def parseSingleType (s : Text) : Except Stop AbiType := do
  checkNoSpaces debug fname s
  let (t, rest) ← parseType debug structsOk fname s (maxDepth + 1) s
  if rest ≠ [] then
    fail (fname ++ ": unexpected trailing characters in type " ++ debug s)
  else .ok t

end Parse

def containsTuple : AbiType → Bool
  | .tuple _ => true
  | .array t | .fixedArray t _ => containsTuple t
  | _ => false

/-! ## Types as they are parsed -/

section Round

variable (debug : Text → Text) (fname : Text)

/-- A name that stands for a struct. -/
structure IsName (name : Text) : Prop where
  ne_nil : name ≠ []
  ident : name.all isIdent = true
  struct : baseType debug true fname name = .ok (.struct name)

/-- The types that are parsed, but those with tuples. -/
def TypeOk : AbiType → Prop
  | .uint n | .int n => 8 ≤ n ∧ n ≤ 256 ∧ n % 8 = 0
  | .fixedBytes k => 1 ≤ k ∧ k ≤ 32
  | .array t => TypeOk t
  | .fixedArray t k => TypeOk t ∧ 0 < k ∧ k ≤ usizeMax
  | .tuple _ => False
  | .struct name => IsName debug fname name
  | _ => True

variable {debug fname}

variable {n fuel : Nat} {pre : String} {t : AbiType} {c : Char} {full s rest : Text}

variable {max levels : Nat}

theorem parseUnsigned_num (h : n ≤ max) : parseUnsigned max (num n) = some n := by
  have hdigits : ¬ (num n = [] ∨ allDigits (num n) = false) := by
    rw [not_or, Bool.not_eq_false]
    exact ⟨digits_ne_nil n, allDigits_digits n⟩
  have hvalue : Nat.ofDigitChars 10 (num n) 0 = n := ofDigitChars_digits n
  rw [parseUnsigned, if_neg hdigits, hvalue, if_pos h]

theorem widthAfter_append (h : n ≤ max) : widthAfter pre max (pre.toList ++ num n) = some n := by
  rw [widthAfter, stripPrefix_eq_some.mpr rfl]
  exact parseUnsigned_num h

theorem append_num_ne {s : String} (hpre : pre ∈ ["uint", "int", "bytes"])
    (hs : s ∈ ["address", "bool", "string", "bytes", "uint", "int", "tuple", "fixed", "ufixed"]) :
    pre.toList ++ num n ≠ s.toList := by
  have hstrip : ∀ pre ∈ ["uint", "int", "bytes"],
      ∀ s ∈ ["address", "bool", "string", "bytes", "uint", "int", "tuple", "fixed", "ufixed"],
        stripPrefix pre.toList s.toList = none ∨ stripPrefix pre.toList s.toList = some [] := by
    decide
  intro h
  have hsome := stripPrefix_eq_some.mpr h.symm
  rcases hstrip pre hpre s hs with hnone | hnil
  · rw [hsome] at hnone
    cases hnone
  · rw [hsome] at hnil
    exact digits_ne_nil n (Option.some.inj hnil)

theorem baseType_width (hpre : pre ∈ ["uint", "int", "bytes"]) :
    baseType debug true fname (pre.toList ++ num n) =
      sizedType debug true fname (pre.toList ++ num n) := by
  have hne := fun s => @append_num_ne n pre s hpre
  rw [baseType, if_neg (hne "address" (by decide)), if_neg (hne "bool" (by decide)),
    if_neg (hne "string" (by decide)), if_neg (hne "bytes" (by decide)),
    if_neg (hne "uint" (by decide)), if_neg (hne "int" (by decide)),
    if_neg (hne "tuple" (by decide)),
    if_neg (not_or.mpr ⟨hne "fixed" (by decide), hne "ufixed" (by decide)⟩)]

/-- A type without suffixes. -/
def IsBase : AbiType → Prop
  | .array _ | .fixedArray _ _ => False
  | _ => True

theorem baseType_display (h : TypeOk debug fname t) (hbase : IsBase t) :
    baseType debug true fname t.display = .ok t := by
  cases t with
  | uint n =>
    have hn : widthAfter "uint" u16Max ("uint" ++ num n) = some n :=
      widthAfter_append (h.2.1.trans (by decide))
    change baseType debug true fname ("uint" ++ num n) = _
    rw [baseType_width (by decide), sizedType, hn]
    exact if_pos h
  | int n =>
    have hu : widthAfter "uint" u16Max ("int" ++ num n) = none := rfl
    have hn : widthAfter "int" u16Max ("int" ++ num n) = some n :=
      widthAfter_append (h.2.1.trans (by decide))
    change baseType debug true fname ("int" ++ num n) = _
    rw [baseType_width (by decide), sizedType, hu]
    dsimp only
    rw [hn]
    exact if_pos h
  | fixedBytes k =>
    have hu : widthAfter "uint" u16Max ("bytes" ++ num k) = none := rfl
    have hi : widthAfter "int" u16Max ("bytes" ++ num k) = none := rfl
    have hn : widthAfter "bytes" usizeMax ("bytes" ++ num k) = some k :=
      widthAfter_append (h.2.trans (by decide))
    change baseType debug true fname ("bytes" ++ num k) = _
    rw [baseType_width (by decide), sizedType, hu]
    dsimp only
    rw [hi]
    dsimp only
    rw [hn]
    exact if_pos h
  | struct name => exact h.struct
  | tuple ts => exact h.elim
  | array u | fixedArray u k => exact hbase.elim
  | _ => rfl

theorem isIdent_of_isDigit (h : c.isDigit) : isIdent c = true := by
  rw [isIdent, Char.isAlphanum, h, Bool.or_true]
  rfl

theorem toNat_of_isIdent (h : isIdent c) : 36 ≤ c.toNat ∧ c.toNat ≤ 122 := by
  unfold isIdent Char.isAlphanum Char.isAlpha Char.isUpper Char.isLower Char.isDigit at h
  simp only [Bool.or_eq_true, Bool.and_eq_true, decide_eq_true_eq, beq_iff_eq, ge_iff_le,
    UInt32.le_iff_toNat_le] at h
  change 36 ≤ c.val.toNat ∧ c.val.toNat ≤ 122
  rcases h with ((((h | h) | h) | rfl) | rfl)
  · exact ⟨le_trans (by decide) h.1, le_trans h.2 (by decide)⟩
  · exact ⟨le_trans (by decide) h.1, le_trans h.2 (by decide)⟩
  · exact ⟨le_trans (by decide) h.1, le_trans h.2 (by decide)⟩
  · decide
  · decide

theorem not_blank_of_isIdent (h : isIdent c) : isWhitespace c = false := by
  obtain ⟨hlow, hhigh⟩ := toNat_of_isIdent h
  rw [← Bool.not_eq_true, isWhitespace, Bool.or_eq_true, Bool.and_eq_true, decide_eq_true_eq,
    decide_eq_true_eq, decide_eq_true_eq]
  simp only [List.mem_cons, not_mem_nil, or_false]
  omega

theorem ident_num (n : Nat) : (num n).all isIdent = true :=
  all_eq_true.mpr fun c hc =>
    isIdent_of_isDigit (all_eq_true.mp (allDigits_digits n) c hc)

theorem display_ident (h : TypeOk debug fname t) (hbase : IsBase t) :
    t.display ≠ [] ∧ t.display.all isIdent = true := by
  have hwidth : ∀ {pre : Text} (n : Nat), pre ≠ [] → pre.all isIdent = true →
      pre ++ num n ≠ [] ∧ (pre ++ num n).all isIdent = true := by
    intro pre n hne hpre
    refine ⟨fun hnil => hne (append_eq_nil_iff.mp hnil).1, ?_⟩
    rw [all_append, hpre, ident_num]
    rfl
  cases t with
  | uint n | int n => exact hwidth n (by decide) (by decide)
  | fixedBytes k => exact hwidth k (by decide) (by decide)
  | struct name => exact ⟨h.ne_nil, h.ident⟩
  | tuple ts => exact h.elim
  | array u | fixedArray u k => exact hbase.elim
  | _ => exact ⟨by decide, by decide⟩

/-! ## Suffixes -/

/-- The type before the suffixes. -/
def baseOf : AbiType → AbiType
  | .array t | .fixedArray t _ => baseOf t
  | t => t

/-- The suffixes. -/
def suffixOf : AbiType → Text
  | .array t => suffixOf t ++ "[]"
  | .fixedArray t k => suffixOf t ++ (['['] ++ num k ++ [']'])
  | _ => []

theorem display_eq (t : AbiType) : t.display = (baseOf t).display ++ suffixOf t := by
  induction t using baseOf.induct with
  | case1 t ih =>
    change t.display ++ "[]" = _
    rw [ih, append_assoc, baseOf, suffixOf]
  | case2 t k ih =>
    change t.display ++ ['['] ++ num k ++ [']'] = _
    rw [ih, baseOf, suffixOf, append_assoc, append_assoc, append_assoc, append_assoc]
  | case3 t h₁ h₂ =>
    rw [baseOf, suffixOf, append_nil]
    all_goals assumption

theorem baseOf_ok (h : TypeOk debug fname t) :
    TypeOk debug fname (baseOf t) ∧ IsBase (baseOf t) := by
  induction t using baseOf.induct with
  | case1 t ih => exact ih h
  | case2 t k ih => exact ih h.1
  | case3 t h₁ h₂ =>
    rw [baseOf]
    · refine ⟨h, ?_⟩
      cases t with
      | array u => exact absurd rfl (h₁ u)
      | fixedArray u k => exact absurd rfl (h₂ u k)
      | _ => trivial
    all_goals assumption

theorem takeWhile_of_head {p : Char → Bool} {l r : Text} (hl : ∀ c ∈ l, p c)
    (hr : ∀ c ∈ r.head?, p c = false) : (l ++ r).takeWhile p = l ∧ (l ++ r).dropWhile p = r := by
  rw [takeWhile_append_of_pos hl, dropWhile_append_of_pos hl]
  cases r with
  | nil => exact ⟨append_nil l, rfl⟩
  | cons c r =>
    have hc := hr c rfl
    rw [takeWhile_cons, dropWhile_cons, hc]
    exact ⟨append_nil l, rfl⟩

theorem digits_before (n : Nat) (rest : Text) :
    (num n ++ ']' :: rest).takeWhile Char.isDigit = num n ∧
      (num n ++ ']' :: rest).dropWhile Char.isDigit = ']' :: rest :=
  takeWhile_of_head (all_eq_true.mp (allDigits_digits n)) fun _ h => by cases h; rfl

theorem suffixOf_head (t : AbiType) : ∀ c ∈ (suffixOf t).head?, c = '[' := by
  induction t using baseOf.induct with
  | case1 t ih | case2 t k ih =>
    intro c hc
    rw [suffixOf, head?_append] at hc
    cases hs : (suffixOf t).head? with
    | none =>
      rw [hs] at hc
      cases hc
      rfl
    | some d =>
      rw [hs] at hc
      cases hc
      exact ih c hs
  | case3 t h₁ h₂ =>
    intro c hc
    rw [suffixOf] at hc
    · cases hc
    all_goals assumption

theorem arraySuffixes_suffix (h : TypeOk debug fname t) (rest : Text)
    (hfuel : (suffixOf t ++ rest).length ≤ fuel) : ∃ left, rest.length ≤ left ∧
      arraySuffixes debug fname full fuel (baseOf t) (suffixOf t ++ rest) =
        arraySuffixes debug fname full left t rest := by
  induction t using baseOf.induct generalizing rest fuel with
  | case1 t ih =>
    rw [suffixOf, append_assoc] at hfuel ⊢
    obtain ⟨left, hleft, heq⟩ := ih h ("[]" ++ rest) hfuel
    obtain ⟨left, rfl⟩ : ∃ n, left = n + 1 := Nat.exists_eq_add_one.mpr (by
      rw [length_append] at hleft
      exact lt_of_lt_of_le (Nat.add_pos_left (by decide) _) hleft)
    refine ⟨left, ?_, heq⟩
    rw [length_append] at hleft
    change 2 + rest.length ≤ left + 1 at hleft
    omega
  | case2 t k ih =>
    rw [suffixOf, append_assoc] at hfuel ⊢
    obtain ⟨left, hleft, heq⟩ := ih h.1 ((['['] ++ num k ++ [']']) ++ rest) hfuel
    obtain ⟨left, rfl⟩ : ∃ n, left = n + 1 := Nat.exists_eq_add_one.mpr (by
      rw [length_append] at hleft
      exact lt_of_lt_of_le (Nat.add_pos_left (Nat.succ_pos _) _) hleft)
    refine ⟨left, ?_, heq.trans ?_⟩
    · simp only [length_append, length_cons, length_nil] at hleft
      omega
    · have hshape : (['['] ++ num k ++ [']']) ++ rest = '[' :: (num k ++ ']' :: rest) := by
        rw [append_assoc, append_assoc]
        rfl
      have hzero : ¬ k = 0 := Nat.pos_iff_ne_zero.mp h.2.1
      rw [hshape, arraySuffixes, (digits_before k rest).1, (digits_before k rest).2]
      have hne : num k ≠ [] := digits_ne_nil k
      change (if num k = [] then _ else _) = _
      rw [if_neg hne, parseUnsigned_num h.2.2]
      exact if_neg hzero
  | case3 t h₁ h₂ =>
    rw [suffixOf, nil_append] at hfuel
    · refine ⟨fuel, hfuel, ?_⟩
      rw [baseOf, suffixOf, nil_append]
      all_goals assumption
    all_goals assumption

theorem display_chars (h : TypeOk debug fname t) :
    ∀ c ∈ t.display, isIdent c ∨ c = '[' ∨ c = ']' := by
  have hsuffix : ∀ c ∈ suffixOf t, isIdent c = true ∨ c = '[' ∨ c = ']' := by
    induction t using baseOf.induct with
    | case1 t ih =>
      intro c hc
      rw [suffixOf, mem_append] at hc
      rcases hc with hc | hc
      · exact ih h c hc
      · rcases List.mem_cons.mp hc with rfl | hc
        · exact .inr (.inl rfl)
        · exact .inr (.inr (mem_singleton.mp hc))
    | case2 t k ih =>
      intro c hc
      rw [suffixOf, mem_append, mem_append, mem_append] at hc
      rcases hc with hc | (hc | hc) | hc
      · exact ih h.1 c hc
      · exact .inr (.inl (mem_singleton.mp hc))
      · exact .inl (all_eq_true.mp (ident_num k) c hc)
      · exact .inr (.inr (mem_singleton.mp hc))
    | case3 t h₁ h₂ =>
      intro c hc
      rw [suffixOf] at hc
      · cases hc
      all_goals assumption
  intro c hc
  rw [display_eq, mem_append] at hc
  rcases hc with hc | hc
  · obtain ⟨hok, hbase⟩ := baseOf_ok h
    exact .inl (all_eq_true.mp (display_ident hok hbase).2 c hc)
  · exact hsuffix c hc

theorem parseSingleType_display (h : TypeOk debug fname t) :
    parseSingleType debug true fname t.display = .ok t := by
  obtain ⟨hok, hbase⟩ := baseOf_ok h
  obtain ⟨hne, hident⟩ := display_ident hok hbase
  have hspaces : ¬ t.display.any isWhitespace := by
    rw [any_eq_true]
    rintro ⟨c, hc, hblank⟩
    rcases display_chars h c hc with hc | rfl | rfl
    · exact Bool.false_ne_true ((not_blank_of_isIdent hc).symm.trans hblank)
    · exact absurd hblank (by decide)
    · exact absurd hblank (by decide)
  -- a bracket ends the name
  have hhead : ∀ c ∈ (suffixOf t).head?, isIdent c = false := by
    intro c hc
    rw [suffixOf_head t c hc]
    rfl
  obtain ⟨htake, hdrop⟩ := takeWhile_of_head (all_eq_true.mp hident) hhead
  rw [← display_eq] at htake hdrop
  have hparen : ¬ t.display.head? = some '(' := by
    intro hparen
    rcases display_chars h '(' (mem_of_mem_head? hparen) with hc | hc | hc <;>
      exact absurd hc (by decide)
  obtain ⟨left, -, hsuffix⟩ := arraySuffixes_suffix h [] le_rfl
  rw [append_nil] at hsuffix
  have hparse : parseType debug true fname t.display (maxDepth + 1) t.display = .ok (t, []) := by
    rw [parseType, if_neg hparen, htake]
    dsimp only
    rw [if_neg hne, baseType_display hok hbase, hdrop]
    refine bind_eq_ok.mpr ⟨baseOf t, rfl, ?_⟩
    change arraySuffixes debug fname t.display (suffixOf t).length (baseOf t) (suffixOf t) = _
    rw [hsuffix]
    cases left <;> rfl
  refine bind_eq_ok.mpr ⟨(), if_neg hspaces, bind_eq_ok.mpr ⟨(t, []), hparse, ?_⟩⟩
  exact if_neg (not_not.mpr rfl)

/-! ## What is parsed -/

theorem baseType_ok {ident : Text} (hne : ident ≠ []) (hident : ident.all isIdent)
    (h : baseType debug true fname ident = .ok t) :
    TypeOk debug fname t ∧ ∀ name, t = .struct name → name = ident := by
  have hall := h
  rw [baseType] at h
  split_ifs at h with h₁ h₂ h₃ h₄ h₅ h₆ h₇ h₈
  · obtain rfl := Except.ok.inj h
    exact ⟨trivial, nofun⟩
  · obtain rfl := Except.ok.inj h
    exact ⟨trivial, nofun⟩
  · obtain rfl := Except.ok.inj h
    exact ⟨trivial, nofun⟩
  · obtain rfl := Except.ok.inj h
    exact ⟨trivial, nofun⟩
  · obtain rfl := Except.ok.inj h
    exact ⟨⟨by decide, le_rfl, rfl⟩, nofun⟩
  · obtain rfl := Except.ok.inj h
    exact ⟨⟨by decide, le_rfl, rfl⟩, nofun⟩
  · cases h
  · cases h
  · rw [sizedType] at h
    cases hu : widthAfter "uint" u16Max ident with
    | some n =>
      rw [hu] at h
      dsimp only at h
      split_ifs at h with hn
      · obtain rfl := Except.ok.inj h
        exact ⟨hn, nofun⟩
      · cases h
    | none =>
      rw [hu] at h
      dsimp only at h
      cases hi : widthAfter "int" u16Max ident with
      | some n =>
        rw [hi] at h
        dsimp only at h
        split_ifs at h with hn
        · obtain rfl := Except.ok.inj h
          exact ⟨hn, nofun⟩
        · cases h
      | none =>
        rw [hi] at h
        dsimp only at h
        cases hb : widthAfter "bytes" usizeMax ident with
        | some n =>
          rw [hb] at h
          dsimp only at h
          split_ifs at h with hn
          · obtain rfl := Except.ok.inj h
            exact ⟨hn, nofun⟩
          · cases h
        | none =>
          rw [hb] at h
          dsimp only [structType] at h
          rw [if_pos rfl] at h
          split_ifs at h with hdigit
          · cases h
          · obtain rfl := Except.ok.inj h
            refine ⟨⟨hne, hident, hall⟩, ?_⟩
            rintro name ⟨⟩
            rfl

theorem arraySuffixes_ok {b : AbiType} (h : arraySuffixes debug fname full fuel b s = .ok (t, rest))
    :
    containsTuple t = containsTuple b ∧ (TypeOk debug fname b → TypeOk debug fname t) ∧
      (IsBase t → t = b ∧ rest = s) := by
  induction fuel generalizing b s with
  | zero =>
    rw [arraySuffixes] at h
    · obtain ⟨rfl, rfl⟩ := Prod.mk.inj (Except.ok.inj h)
      exact ⟨rfl, id, fun _ => ⟨rfl, rfl⟩⟩
    · nofun
  | succ fuel ih =>
    by_cases hs : ∃ s', s = '[' :: s'
    · obtain ⟨s, rfl⟩ := hs
      rw [arraySuffixes] at h
      split at h
      · split_ifs at h with hd
        · obtain ⟨htuple, hok, hbase⟩ := ih h
          refine ⟨htuple, hok, fun ht => ?_⟩
          rw [(hbase ht).1] at ht
          exact ht.elim
        · cases hk : parseUnsigned usizeMax (s.takeWhile Char.isDigit) with
          | none =>
            rw [hk] at h
            cases h
          | some k =>
            rw [hk] at h
            dsimp only at h
            split_ifs at h with hzero
            · cases h
            · obtain ⟨htuple, hok, hbase⟩ := ih h
              refine ⟨htuple, fun hb => hok ⟨hb, Nat.pos_of_ne_zero hzero, ?_⟩, fun ht => ?_⟩
              · rw [parseUnsigned] at hk
                split_ifs at hk with h₁ h₂
                rwa [Option.some.inj hk] at h₂
              · rw [(hbase ht).1] at ht
                exact ht.elim
      · cases h
    · rw [arraySuffixes] at h
      · obtain ⟨rfl, rfl⟩ := Prod.mk.inj (Except.ok.inj h)
        exact ⟨rfl, id, fun _ => ⟨rfl, rfl⟩⟩
      · rintro n s' - rfl
        exact hs ⟨s', rfl⟩

theorem tupleItems_ok {item : Text → Except Stop (AbiType × Text)} {ts : List AbiType}
    (h : tupleItems debug fname full item fuel ts s = .ok (t, rest)) : containsTuple t = true := by
  induction fuel generalizing ts s with
  | zero => cases h
  | succ fuel ih =>
    rw [tupleItems] at h
    obtain ⟨⟨u, s'⟩, -, h⟩ := bind_eq_ok.mp h
    dsimp only at h
    split at h
    · exact ih h
    · obtain ⟨rfl, -⟩ := Prod.mk.inj (Except.ok.inj h)
      rfl
    · cases h

theorem parseType_ok (h : parseType debug true fname full levels s = .ok (t, rest))
    (htuple : containsTuple t = false) : TypeOk debug fname t ∧
      (IsBase t → rest = s.dropWhile isIdent ∧ s.takeWhile isIdent ≠ [] ∧
        baseType debug true fname (s.takeWhile isIdent) = .ok t) := by
  cases levels with
  | zero => cases h
  | succ levels =>
    rw [parseType] at h
    by_cases hparen : s.head? = some '('
    · rw [if_pos hparen] at h
      by_cases hempty : s.tail.head? = some ')'
      · rw [if_pos hempty] at h
        cases h
      · rw [if_neg hempty] at h
        obtain ⟨⟨b, s'⟩, hb, h⟩ := bind_eq_ok.mp h
        rw [(arraySuffixes_ok h).1, tupleItems_ok hb] at htuple
        cases htuple
    · rw [if_neg hparen] at h
      dsimp only at h
      by_cases hnil : s.takeWhile isIdent = []
      · rw [if_pos hnil] at h
        cases h
      · rw [if_neg hnil] at h
        obtain ⟨b, hb, h⟩ := bind_eq_ok.mp h
        have hident : (s.takeWhile isIdent).all isIdent := all_takeWhile
        obtain ⟨-, hok, hbase⟩ := arraySuffixes_ok h
        refine ⟨hok (baseType_ok hnil hident hb).1, fun ht => ?_⟩
        obtain ⟨rfl, hrest⟩ := hbase ht
        exact ⟨hrest, hnil, hb⟩

theorem parseSingleType_ok (h : parseSingleType debug true fname s = .ok t)
    (htuple : containsTuple t = false) : TypeOk debug fname t := by
  obtain ⟨-, -, h⟩ := bind_eq_ok.mp h
  obtain ⟨⟨u, rest⟩, hparse, h⟩ := bind_eq_ok.mp h
  dsimp only at h
  split_ifs at h with hrest
  · cases h
  · obtain rfl := Except.ok.inj h
    exact (parseType_ok hparse htuple).1

theorem isName_of_parseType {name : Text}
    (h : parseType debug true fname full levels s = .ok (.struct name, [])) :
    IsName debug fname s := by
  obtain ⟨-, hbase⟩ := parseType_ok h rfl
  obtain ⟨hrest, hne, hb⟩ := hbase trivial
  have hs : s.takeWhile isIdent = s := by
    have happend := @List.takeWhile_append_dropWhile _ isIdent s
    rwa [← hrest, append_nil] at happend
  have hident : (s.takeWhile isIdent).all isIdent := all_takeWhile
  obtain rfl := (baseType_ok hne hident hb).2 name rfl
  rw [hs] at hne hident hb
  exact ⟨hne, hident, hb⟩

end Round

end Synsema.Eip712
