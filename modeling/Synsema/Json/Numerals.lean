import Synsema.Json.Dumps
import Synsema.Json.Grammar
import Mathlib.Tactic.NormNum
import Mathlib.Tactic.Ring

/-!
# Numbers as they are written

The texts of the numbers that the writer gives are tokens of the grammar, each of the number
that was written.

How the standard library shows a float (`{:e}`) is a parameter.  What is asked of it, for the
float at hand, is what it documents: the digits, one before the point, the exponent, and that
the text is read back as the same float.
-/

namespace Synsema.Json

open Text List

/-! ## Integers -/

theorem digits_head {n : Nat} (h : (digits n).head? = some '0') : n = 0 := by
  rw [digits, Nat.toString_eq_repr, Nat.toList_repr] at h
  induction n using Nat.strongRecOn with
  | _ n ih =>
    by_cases hn : n < 10
    · rw [Nat.toDigits_of_lt_base hn] at h
      have h : n.digitChar = '0' := Option.some.inj h
      have hback := Nat.ofDigitChars_ten_toDigits (n := n)
      rw [Nat.toDigits_of_lt_base hn, h] at hback
      exact hback.symm
    · have hn : 10 ≤ n := Nat.not_lt.mp hn
      rw [Nat.toDigits_of_base_le (by decide) hn, head?_append] at h
      have hne := Nat.toDigits_ne_nil (n := n / 10) (b := 10)
      obtain ⟨c, cs, hc⟩ := exists_cons_of_ne_nil hne
      have h₀ := ih (n / 10) (by omega) (by rw [hc] at h ⊢; exact h)
      omega

/-- The digits of a number. -/
def digitsToken (n : Nat) : Digits :=
  ⟨digits n, digits_ne_nil n, all_eq_true.mp (allDigits_digits n)⟩

/-- The token of an integer. -/
def intToken (n : Int) : NumberToken where
  neg := n < 0
  int := digitsToken n.natAbs
  noLeadingZero h := by
    change (digits n.natAbs).length = 1
    rw [digits_head h]
    rfl
  frac := none
  exp := none

theorem intToken_text (n : Int) : (intToken n).text = (toString n).toList := by
  rw [toString_eq]
  simp [NumberToken.text, NumberToken.signText, NumberToken.fracText, NumberToken.expText,
    intToken, digitsToken, sign]

theorem intToken_integer (n : Int) : (intToken n).integer = n := by
  change (if (decide (n < 0)) = true then -(Nat.ofDigitChars 10 (digits n.natAbs) 0 : Int)
    else Nat.ofDigitChars 10 (digits n.natAbs) 0) = n
  rw [ofDigitChars_digits]
  split_ifs with h
  · have h := of_decide_eq_true h
    omega
  · have h : ¬n < 0 := by simpa using h
    omega

theorem intToken_value (n : Int) : (intToken n).value = .fromBigint n := by
  have hint : (intToken n).isInteger := rfl
  rw [NumberToken.value, if_pos hint, intToken_integer]

theorem parseInt_toString (n : Int) : parseInt (toString n).toList = some n := by
  rw [← intToken_text, NumberToken.parseInt_text rfl, intToken_integer]

theorem pushDigits_eq (u : Nat) (out : Text) : pushDigits u out = digits u ++ out := by
  rw [digits, Nat.toString_eq_repr, Nat.toList_repr]
  induction u, out using pushDigits.induct with
  | case1 u out h =>
    have hu : u < 10 := by omega
    rw [pushDigits, dif_pos h, Nat.toDigits_of_lt_base hu, Nat.mod_eq_of_lt hu]
    rfl
  | case2 u out h ih =>
    have hu : 10 ≤ u := by omega
    rw [pushDigits, dif_neg h, ih, Nat.toDigits_of_base_le (by decide) hu, append_assoc]
    rfl

theorem pushInt_eq (n : Int64) : pushInt n = (toString n.toInt).toList := by
  have hneg : (n < 0) ↔ n.toInt < 0 := Int64.lt_iff_toInt_lt
  rw [pushInt, pushDigits_eq, append_nil, toString_eq, sign]
  simp only [hneg]

theorem fitsInt64_toInt (n : Int64) : FitsInt64 n.toInt :=
  ⟨n.le_toInt, n.toInt_lt⟩

theorem fromBigint_toInt (n : Int64) : Number.fromBigint n.toInt = .int n := by
  rw [Number.fromBigint, dif_pos (fitsInt64_toInt n), Int64.ofInt_toInt]

theorem fromBigint_big {n : Int} (h : ¬FitsInt64 n) : Number.fromBigint n = .big n h :=
  dif_neg h

/-! ## Floats -/

theorem decimalValue_congr {i f i' f' : Text} {e e' : Int} {k : Nat}
    (hd : Nat.ofDigitChars 10 (i ++ f) 0 = Nat.ofDigitChars 10 (i' ++ f') 0 * 10 ^ k)
    (he : e' - f'.length = e - f.length + k) : decimalValue i f e = decimalValue i' f' e' := by
  have h10 : (10 : ℚ) ≠ 0 := by norm_num
  rw [decimalValue, decimalValue, hd, he, zpow_add₀ h10, zpow_natCast]
  push_cast
  ring

/-- What `{:e}` is documented to show of a float: its sign, one digit before the point and the
others after it, the exponent; no zero but that of zero stands before the point.  The text is
read back as the float. -/
structure RustFmt.ShowsAs (R : RustFmt) (x : F64) (d : Char) (ds : Text) (e : Int) : Prop where
  eq : R.sci x = (if x.neg then ['-'] else []) ++ (d :: if ds = [] then [] else '.' :: ds) ++
    'e' :: (toString e).toList
  isDigit : ∀ c ∈ d :: ds, c.isDigit = true
  zero : d = '0' → ds = [] ∧ e = 0
  back : parseF64 (R.sci x) = some x

/-- `{:e}` shows the float, and what it shows is read back. -/
def RustFmt.Shows (R : RustFmt) (x : F64) : Prop := ∃ d ds e, R.ShowsAs x d ds e

/-- Digits, if there are any. -/
def optDigits (ds : Text) (h : ∀ c ∈ ds, c.isDigit = true) : Option Digits :=
  if hne : ds = [] then none else some ⟨ds, hne, h⟩

theorem elim_optDigits {α : Type} (ds : Text) (h : ∀ c ∈ ds, c.isDigit) (a : α)
    (f : Digits → α) (g : Text → α) (hg : ∀ d : Digits, f d = g d.chars) :
    (optDigits ds h).elim a f = if ds = [] then a else g ds := by
  unfold optDigits
  split_ifs with hne
  · rfl
  · exact hg _

namespace RustFmt.ShowsAs

variable {R : RustFmt} {x : F64} {d : Char} {ds : Text} {e : Int}

/-- The token of what `{:e}` shows. -/
def token (h : R.ShowsAs x d ds e) : NumberToken where
  neg := x.neg
  int := ⟨[d], by simp, fun c hc => h.isDigit c (by simp_all)⟩
  noLeadingZero _ := rfl
  frac := optDigits ds fun c hc => h.isDigit c (mem_cons_of_mem _ hc)
  exp := some ⟨false, if e < 0 then some true else none, digitsToken e.natAbs⟩

theorem sci_eq (h : R.ShowsAs x d ds e) : R.sci x = h.token.text := by
  rw [h.eq, toString_eq]
  have hfrac : h.token.fracText = if ds = [] then [] else '.' :: ds :=
    elim_optDigits _ _ _ _ (fun t => '.' :: t) fun _ => rfl
  have hexp : h.token.expText = 'e' :: (sign e ++ digits e.natAbs) := by
    change 'e' :: (Exponent.signText ⟨false, if e < 0 then some true else none, _⟩ ++ _) = _
    unfold Exponent.signText sign
    split_ifs <;> rfl
  have hsign : h.token.signText = if x.neg then ['-'] else [] := rfl
  have hint : h.token.int.chars = [d] := rfl
  rw [NumberToken.text, hsign, hint, hfrac, hexp]
  simp

theorem round_eq (h : R.ShowsAs x d ds e) : F64.round x.neg (decimalValue [d] ds e) = x := by
  have hback := h.back
  rw [h.sci_eq, NumberToken.parseF64_text] at hback
  have hfloat := Option.some.inj hback
  have hfrac : h.token.frac.elim [] Digits.chars = ds := by
    refine (elim_optDigits _ _ _ _ id fun _ => rfl).trans ?_
    split_ifs with hds
    · exact hds.symm
    · rfl
  have hexp : h.token.exp.elim 0 Exponent.value = e := by
    change (if (if e < 0 then some true else none) = some true then
      -(Nat.ofDigitChars 10 (digits e.natAbs) 0 : Int)
      else Nat.ofDigitChars 10 (digits e.natAbs) 0) = e
    rw [ofDigitChars_digits]
    by_cases he : e < 0
    · simp only [he, if_pos]
      omega
    · simp only [he, if_neg, reduceCtorEq, not_false_eq_true]
      omega
  rw [NumberToken.float, hfrac, hexp] at hfloat
  exact hfloat

/-- What `write_py_float` writes after the sign. -/
def body (d : Char) (ds : Text) (e : Int) : Text :=
  let n : Int := 1 + ds.length
  let decpt := e + 1
  if decpt ≤ -4 ∨ 16 < decpt then
    [d] ++ (if ds = [] then [] else '.' :: ds) ++ ['e', if e < 0 then '-' else '+'] ++
      replicate (2 - (digits e.natAbs).length) '0' ++ digits e.natAbs
  else if decpt ≤ 0 then "0." ++ replicate (-decpt).toNat '0' ++ d :: ds
  else if n ≤ decpt then d :: ds ++ replicate (decpt - n).toNat '0' ++ ".0"
  else (d :: ds).take decpt.toNat ++ ['.'] ++ (d :: ds).drop decpt.toNat

theorem pyFloatStr_eq (h : R.ShowsAs x d ds e) (hx : x.isFinite) :
    pyFloatStr R x = (if x.neg then ['-'] else []) ++ body d ds e := by
  have hlt : x.mag < F64.infinity := by simpa [F64.isFinite] using hx
  have hnan : ¬x.isNan := by simpa [F64.isNan] using hlt.le
  have hinf : ¬x.isInfinite := by simpa [F64.isInfinite] using hlt.ne
  have hd : d ≠ '-' ∧ d ≠ 'e' := by
    have hdig := h.isDigit d (mem_cons_self ..)
    constructor <;> rintro rfl <;> exact absurd hdig (by decide)
  let mant : Text := d :: if ds = [] then [] else '.' :: ds
  have hmant : 'e' ∉ (if x.neg then ['-'] else []) ++ mant := by
    have hds : 'e' ∉ ds := fun hm =>
      absurd (h.isDigit _ (mem_cons_of_mem _ hm)) (by decide)
    simp only [mant, mem_append, List.mem_cons, not_or]
    refine ⟨by split <;> simp, hd.2.symm, by split <;> simp [hds]⟩
  have hsplit : splitOnce 'e' (R.sci x) =
      some ((if x.neg then ['-'] else []) ++ mant, (toString e).toList) := by
    rw [h.eq]
    exact splitOnce_append hmant _
  have hneg : startsWith ['-'] ((if x.neg then ['-'] else []) ++ mant) = x.neg := by
    cases x.neg
    · simp [startsWith, mant, List.isPrefixOf, hd.1.symm]
    · rfl
  have hdrop : ((if x.neg then ['-'] else []) ++ mant).dropWhile (· == '-') = mant := by
    cases x.neg <;> simp [mant, hd.1]
  have hrest : (stripPrefix ['.'] (mant.drop 1)).getD (mant.drop 1) = ds := by
    simp only [mant, drop_one, tail_cons]
    split_ifs with hds
    · exact hds.symm
    · rfl
  have hexp : readInt (toString e).toList = e := by
    rw [readInt, parseInt_toString]
    rfl
  rw [pyFloatStr, if_neg hnan, if_neg hinf, hsplit]
  dsimp only [Option.getD_some]
  rw [hneg, hdrop, hrest, hexp]
  congr 1
  have htake : mant.take 1 = [d] := rfl
  have hall : ((d :: ds).drop (0 : Int).toNat).take ((1 + ds.length : Int) - 0).toNat = d :: ds := by
    rw [Int.sub_zero, Int.toNat_zero, drop_zero]
    exact take_of_length_le (by rw [length_cons]; omega)
  have hcomma : (if (1 : Int) < 1 + ds.length then '.' :: ds else []) =
      if ds = [] then [] else '.' :: ds := by
    cases ds with
    | nil => rfl
    | cons c ds => rw [if_pos (by rw [length_cons]; omega), if_neg (by simp)]
  have hend : ((d :: ds).drop (e + 1).toNat).take ((1 + ds.length : Int) - (e + 1)).toNat =
      (d :: ds).drop (e + 1).toNat :=
    take_of_length_le (by rw [length_drop, length_cons]; omega)
  rw [htake]
  dsimp only [singleton_append]
  rw [hall, hcomma, hend, Int.sub_zero, Int.toNat_zero, drop_zero, Int.add_sub_cancel]
  rfl

end RustFmt.ShowsAs

/-! ## The token of a float -/

theorem isDigit_zeros (k : Nat) : ∀ c ∈ replicate k '0', c.isDigit = true := by
  intro c hc
  rw [eq_of_mem_replicate hc]
  rfl

theorem ofDigitChars_zeros (k : Nat) (ds : Text) :
    Nat.ofDigitChars 10 (replicate k '0' ++ ds) 0 = Nat.ofDigitChars 10 ds 0 := by
  rw [Nat.ofDigitChars_append, Nat.ofDigitChars_replicate_zero, Nat.mul_zero]

/-- The number that a token writes, without its sign. -/
def NumberToken.magnitude (n : NumberToken) : ℚ :=
  decimalValue n.int.chars (n.frac.elim [] Digits.chars) (n.exp.elim 0 Exponent.value)

/-- What is written after the sign of a float has a token. -/
def RustFmt.BodyToken (d : Char) (ds : Text) (e : Int) (neg : Bool) : Prop :=
  ∃ n : NumberToken, n.neg = neg ∧
    n.int.chars ++ (n.fracText ++ n.expText) = ShowsAs.body d ds e ∧ n.isInteger = false ∧
    n.magnitude = decimalValue [d] ds e

namespace RustFmt.ShowsAs

variable {R : RustFmt} {x : F64} {d : Char} {ds : Text} {e : Int}

theorem bodyToken_exp (h : R.ShowsAs x d ds e) (neg : Bool) (he : e + 1 ≤ -4 ∨ 16 < e + 1) :
    BodyToken d ds e neg := by
  let zeros := replicate (2 - (digits e.natAbs).length) '0'
  have hds : ∀ c ∈ ds, c.isDigit := fun c hc => h.isDigit c (mem_cons_of_mem _ hc)
  have hexp : ∀ c ∈ zeros ++ digits e.natAbs, c.isDigit := by
    intro c hc
    rcases mem_append.mp hc with hc | hc
    · exact isDigit_zeros _ c hc
    · exact (digitsToken e.natAbs).isDigit c hc
  have hne : zeros ++ digits e.natAbs ≠ [] := by simp
  let exp : Exponent := ⟨false, some (decide (e < 0)), ⟨_, hne, hexp⟩⟩
  refine ⟨⟨neg, ⟨[d], by simp, fun c hc => h.isDigit c (by simp_all)⟩, fun _ => rfl,
    optDigits ds hds, some exp⟩, rfl, ?_, ?_, ?_⟩
  · have hfrac := elim_optDigits ds hds [] (fun f ↦ '.' :: f.chars) (fun t ↦ '.' :: t) fun _ ↦ rfl
    rw [NumberToken.fracText, hfrac, body]
    dsimp only
    rw [if_pos he]
    have htext : exp.text = ['e', if e < 0 then '-' else '+'] ++ (zeros ++ digits e.natAbs) := by
      by_cases hneg : e < 0 <;> simp [exp, Exponent.text, Exponent.signText, hneg]
    change [d] ++ (_ ++ exp.text) = _
    rw [htext]
    simp only [append_assoc, zeros]
  · simp [NumberToken.isInteger]
  · have hfrac : (optDigits ds hds).elim [] Digits.chars = ds := by
      refine (elim_optDigits _ _ _ _ id fun _ => rfl).trans ?_
      split_ifs with h
      · exact h.symm
      · rfl
    have hvalue : exp.value = e := by
      change (if some (decide (e < 0)) = some true then
        -(Nat.ofDigitChars 10 (zeros ++ digits e.natAbs) 0 : Int)
        else Nat.ofDigitChars 10 (zeros ++ digits e.natAbs) 0) = e
      rw [ofDigitChars_zeros, ofDigitChars_digits]
      by_cases hneg : e < 0
      · rw [if_pos (by simp [hneg])]
        omega
      · rw [if_neg (by simp [hneg])]
        omega
    change decimalValue [d] ((optDigits ds hds).elim [] Digits.chars) exp.value = _
    rw [hfrac, hvalue]

theorem bodyToken_small (h : R.ShowsAs x d ds e) (neg : Bool) (he : ¬(e + 1 ≤ -4 ∨ 16 < e + 1))
    (hle : e + 1 ≤ 0) : BodyToken d ds e neg := by
  have hfrac : ∀ c ∈ replicate (-(e + 1)).toNat '0' ++ d :: ds, c.isDigit := by
    intro c hc
    rcases mem_append.mp hc with hc | hc
    · exact isDigit_zeros _ c hc
    · exact h.isDigit c hc
  refine ⟨⟨neg, ⟨['0'], by simp, by simp⟩, fun _ => rfl, some ⟨_, by simp, hfrac⟩, none⟩, rfl, ?_,
    rfl, ?_⟩
  · unfold body
    dsimp only
    rw [if_neg he, if_pos hle]
    simp [NumberToken.fracText, NumberToken.expText]
  · refine decimalValue_congr (k := 0) ?_ ?_
    · change Nat.ofDigitChars 10 ('0' :: (replicate (-(e + 1)).toNat '0' ++ d :: ds)) 0 = _
      rw [Nat.ofDigitChars_cons, Nat.pow_zero, Nat.mul_one]
      exact ofDigitChars_zeros _ _
    · change e - ds.length = 0 - ((replicate (-(e + 1)).toNat '0' ++ d :: ds).length : Int) + 0
      rw [length_append, length_replicate, length_cons]
      omega

theorem bodyToken_large (h : R.ShowsAs x d ds e) (neg : Bool) (he : ¬(e + 1 ≤ -4 ∨ 16 < e + 1))
    (hpos : ¬e + 1 ≤ 0) (hle : 1 + (ds.length : Int) ≤ e + 1) : BodyToken d ds e neg := by
  let k := (e + 1 - (1 + ds.length : Int)).toNat
  have hint : ∀ c ∈ d :: ds ++ replicate k '0', c.isDigit := by
    intro c hc
    rcases mem_append.mp hc with hc | hc
    · exact h.isDigit c hc
    · exact isDigit_zeros _ c hc
  have hlead : (d :: ds ++ replicate k '0').head? = some '0' →
      (d :: ds ++ replicate k '0').length = 1 := by
    intro h₀
    obtain ⟨rfl, rfl⟩ := h.zero (Option.some.inj h₀)
    rfl
  refine ⟨⟨neg, ⟨_, by simp, hint⟩, hlead, some ⟨['0'], by simp, by simp⟩, none⟩, rfl, ?_, rfl, ?_⟩
  · unfold body
    dsimp only
    rw [if_neg he, if_neg hpos, if_pos hle]
    rfl
  · refine decimalValue_congr (k := k + 1) ?_ ?_
    · change Nat.ofDigitChars 10 (d :: ds ++ replicate k '0' ++ ['0']) 0 = _
      rw [append_assoc, ← replicate_succ', Nat.ofDigitChars_append,
        Nat.ofDigitChars_replicate_zero, Nat.mul_comm]
      rfl
    · change e - ds.length = 0 - (1 : Int) + (k + 1 : Nat)
      omega

theorem bodyToken_among (h : R.ShowsAs x d ds e) (neg : Bool) (he : ¬(e + 1 ≤ -4 ∨ 16 < e + 1))
    (hpos : ¬e + 1 ≤ 0) (hlt : ¬1 + (ds.length : Int) ≤ e + 1) : BodyToken d ds e neg := by
  have hint : ∀ c ∈ (d :: ds).take (e + 1).toNat, c.isDigit :=
    fun c hc => h.isDigit c (mem_of_mem_take hc)
  have hfrac : ∀ c ∈ (d :: ds).drop (e + 1).toNat, c.isDigit :=
    fun c hc => h.isDigit c (mem_of_mem_drop hc)
  obtain ⟨k, hk⟩ : ∃ k, (e + 1).toNat = k + 1 := ⟨e.toNat, by omega⟩
  have hne : (d :: ds).take (e + 1).toNat ≠ [] := by
    rw [hk]
    simp
  have hne' : (d :: ds).drop (e + 1).toNat ≠ [] := by
    rw [ne_eq, drop_eq_nil_iff, length_cons]
    omega
  have hlead : ((d :: ds).take (e + 1).toNat).head? = some '0' →
      ((d :: ds).take (e + 1).toNat).length = 1 := by
    intro h₀
    rw [hk] at h₀
    obtain ⟨rfl, rfl⟩ := h.zero (Option.some.inj h₀)
    exact absurd (by simp) hlt
  refine ⟨⟨neg, ⟨_, hne, hint⟩, hlead, some ⟨_, hne', hfrac⟩, none⟩, rfl, ?_, rfl, ?_⟩
  · unfold body
    dsimp only
    rw [if_neg he, if_neg hpos, if_neg hlt]
    simp [NumberToken.fracText, NumberToken.expText]
  · refine decimalValue_congr (k := 0) ?_ ?_
    · change Nat.ofDigitChars 10 ((d :: ds).take (e + 1).toNat ++ (d :: ds).drop (e + 1).toNat) 0 = _
      rw [take_append_drop, Nat.pow_zero, Nat.mul_one]
      rfl
    · change e - ds.length = 0 - (((d :: ds).drop (e + 1).toNat).length : Int) + 0
      rw [length_drop, length_cons]
      omega

theorem exists_token (h : R.ShowsAs x d ds e) (hx : x.isFinite) :
    ∃ n : NumberToken, n.text = pyFloatStr R x ∧ n.isInteger = false ∧ n.float = x := by
  have hbody : BodyToken d ds e x.neg := by
    by_cases he : e + 1 ≤ -4 ∨ 16 < e + 1
    · exact h.bodyToken_exp _ he
    by_cases hpos : e + 1 ≤ 0
    · exact h.bodyToken_small _ he hpos
    by_cases hle : 1 + (ds.length : Int) ≤ e + 1
    · exact h.bodyToken_large _ he hpos hle
    · exact h.bodyToken_among _ he hpos hle
  obtain ⟨n, hneg, htext, hint, hmag⟩ := hbody
  refine ⟨n, ?_, hint, ?_⟩
  · rw [h.pyFloatStr_eq hx, ← htext, ← hneg]
    simp only [NumberToken.text, NumberToken.signText, append_assoc]
  · change F64.round n.neg n.magnitude = x
    rw [hneg, hmag, h.round_eq]

end RustFmt.ShowsAs

theorem exists_floatToken {R : RustFmt} {x : F64} (h : R.Shows x) (hx : x.isFinite) :
    ∃ n : NumberToken, n.text = pushFloat R x ∧ n.Admitted ∧ n.value = .float x := by
  obtain ⟨d, ds, e, h⟩ := h
  obtain ⟨n, htext, hint, hfloat⟩ := h.exists_token hx
  have hlt : x.mag < F64.infinity := by simpa [F64.isFinite] using hx
  have hnan : ¬x.isNan := by simpa [F64.isNan] using hlt.le
  have hinf : ¬x.isInfinite := by simpa [F64.isInfinite] using hlt.ne
  refine ⟨n, ?_, ?_, ?_⟩
  · rw [htext, pushFloat, if_neg hnan, if_neg hinf]
  · rw [NumberToken.Admitted, hint, if_neg Bool.false_ne_true, hfloat, hx]
  · rw [NumberToken.value, hint, if_neg Bool.false_ne_true, hfloat]

end Synsema.Json
