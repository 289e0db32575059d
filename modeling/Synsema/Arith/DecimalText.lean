import Synsema.Arith.Exact

/-!
# Decimals as texts

Decimals are written without an exponent, and read with or without one (`parse_decimal`).  A decimal
is read back from its text, and what is read of a text is what the text says: without an exponent
with as many decimal places as the text has, less zeros past the 28th (`parsePlain_reads`); and with
one, the mantissa's number moved by it, with the places that are left of those of the mantissa's
number (`decimal_text_exact`).

The mantissa has lost its zeros past the 28th place before the exponent moves it: of a mantissa with
more places the result has fewer places than the text says (`exponent_drops_places`).
-/

namespace Synsema.Arith

open Text List
open Synsema.Reference (parts)

/-! ## Reading -/

def maxDecTextDigits : Nat := 4300

/-- The sign and what follows it. -/
def splitSign : Text → Bool × Text
  | '-' :: r => (true, r)
  | '+' :: r => (false, r)
  | r => (false, r)

/-- The digits before and after the point. -/
def splitPoint (body : Text) : Text × Text := (splitOnce '.' body).getD (body, [])

/-- The integer of a sign and digits. -/
def signedDigits (neg : Bool) (t : Text) : Int :=
  if neg then -Nat.ofDigitChars 10 t 0 else Nat.ofDigitChars 10 t 0

/-- `parse_decimal`, of a text without an exponent. -/
def parsePlain (R : Decimals) (t : Text) : Option Number :=
  match R.fromStrExact t with
  | some d => some (.decimal d)
  | none =>
    let (neg, body) := splitSign t
    let (i, f) := splitPoint body
    if i = [] ∧ f = [] then none
    else if !(allDigits i && allDigits f) then none
    else if maxDecTextDigits < i.length + f.length then none
    else some (Number.decimalFromParts (signedDigits neg (i ++ f)) f.length)

/-- What is before and after the first `e`. -/
def splitExponent : Text → Option (Text × Text)
  | [] => none
  | x :: t =>
    if x = 'e' ∨ x = 'E' then some ([], t) else (splitExponent t).map fun (l, r) => (x :: l, r)

/-- The exponent: a sign and up to nine digits. -/
def parseExponent (t : Text) : Option Int :=
  let (neg, digits) := splitSign t
  if digits = [] ∨ 9 < digits.length ∨ allDigits digits = false then none
  else some (signedDigits neg digits)

/-- A mantissa and a scale moved by an exponent, unless there are too many digits. -/
def moveBy (m : Int) (s : Nat) (exp : Int) : Option Number :=
  let scale := s - exp
  let intDigits := digitCount m.natAbs - s
  if maxDecTextDigits < scale ∨ maxDecTextDigits < intDigits + max exp 0 then none
  else if 0 ≤ scale then some (Number.decimalFromParts m scale.toNat)
  else some (Number.decimalFromParts (m * pow10Big (-scale)) 0)

/-- `parse_decimal`.  A mantissa has no `e`, so that reading it ends in `parsePlain`. -/
def parseDecimal (R : Decimals) (text : Text) : Option Number :=
  let t := trim text
  match splitExponent t with
  | some (mant, exp) => do
    let exp ← parseExponent exp
    if mant.contains 'e' || mant.contains 'E' then none
    else
      let (m, s) ← (← parsePlain R (trim mant)).exactRatio
      moveBy m s exp
  | none => parsePlain R t

/-- `Display`, of what is no float. -/
def Number.toText (R : Decimals) (pyFloat : F64 → Text) : Number → Text
  | .int n => (toString n.toInt).toList
  | .big n => (toString n).toList
  | .float x => pyFloat x
  | .decimal d => R.display d
  | .bigDec b => fmtScaled b.m b.s

/-- What the crate documents of texts: decimals are written with all their places. -/
def Decimals.Displays (R : Decimals) : Prop := ∀ d, R.display d = fmtScaled d.mantissa d.scale

/-- What the crate documents of texts: what is read is what the text says; digits may be grouped
by underscores. -/
def Decimals.ReadsExactly (R : Decimals) : Prop :=
  ∀ t d, R.fromStrExact t = some d → parts (t.filter (· ≠ '_')) = some (d.mantissa, d.scale)

/-! ## What a text says -/

/-- The digits of a text. -/
def textDigits (t : Text) : Nat := (t.filter Char.isDigit).length

theorem parts_eq_ite (t : Text) : parts t =
    if (splitPoint (splitSign t).2).1 = [] ∧ (splitPoint (splitSign t).2).2 = [] then none
    else if !(allDigits (splitPoint (splitSign t).2).1 && allDigits (splitPoint (splitSign t).2).2)
      then none
    else some (signedDigits (splitSign t).1
      ((splitPoint (splitSign t).2).1 ++ (splitPoint (splitSign t).2).2),
      (splitPoint (splitSign t).2).2.length) := by
  have hsign : parts t = (fun p : Bool × Text =>
      let (i, f) := splitPoint p.2
      if i.isEmpty && f.isEmpty || !allDigits (i ++ f) then none
      else
        let m : Int := Nat.ofDigits 10 ((i ++ f).reverse.map fun c => c.toNat - '0'.toNat)
        some (if p.1 then -m else m, f.length)) (splitSign t) := by
    unfold parts
    split
    next neg body h =>
      have hsplit : splitSign t = (neg, body) := h
      rw [hsplit]
      rfl
  rw [hsign]
  generalize splitSign t = p
  dsimp only
  generalize splitPoint p.2 = q
  obtain ⟨i, f⟩ := q
  dsimp only
  rw [Synsema.Reference.ofDigits_reverse, signedDigits]
  have hempty : (i.isEmpty && f.isEmpty) = true ↔ i = [] ∧ f = [] := by
    rw [Bool.and_eq_true, List.isEmpty_iff, List.isEmpty_iff]
  have hall : allDigits (i ++ f) = (allDigits i && allDigits f) := all_append
  by_cases h : i = [] ∧ f = []
  · rw [if_pos h, if_pos (by rw [hempty.mpr h, Bool.true_or])]
  · rw [if_neg h, hall, Bool.eq_false_iff.mpr (mt hempty.mp h), Bool.false_or]

theorem splitSign_eq (t : Text) : ∃ σ, t = σ ++ (splitSign t).2 ∧ (σ = [] ∨ σ = ['-'] ∨ σ = ['+']) := by
  rw [splitSign.eq_def]
  split
  · exact ⟨['-'], rfl, .inr (.inl rfl)⟩
  · exact ⟨['+'], rfl, .inr (.inr rfl)⟩
  · exact ⟨[], rfl, .inl rfl⟩

theorem splitPoint_eq (t : Text) : ∃ p, t = (splitPoint t).1 ++ p ++ (splitPoint t).2 ∧
    (p = [] ∨ p = ['.']) := by
  rw [splitPoint]
  cases h : splitOnce '.' t with
  | none => exact ⟨[], by simp, .inl rfl⟩
  | some q => exact ⟨['.'], by simpa using splitOnce_eq_some h, .inr rfl⟩

variable {t l : Text} {n : Number} {c : Char}

theorem parts_eq_some {m : Int} {s : Nat} (h : parts t = some (m, s)) :
    ∃ i f, allDigits (i ++ f) ∧ textDigits t = (i ++ f).length ∧ '_' ∉ t ∧
      s = f.length ∧ m.natAbs = Nat.ofDigitChars 10 (i ++ f) 0 ∧
      (splitPoint (splitSign t).2) = (i, f) := by
  rw [parts_eq_ite] at h
  split_ifs at h with hempty hdigits
  obtain ⟨hm, hs⟩ := Prod.mk.inj (Option.some.inj h)
  obtain ⟨σ, ht, hσ⟩ := splitSign_eq t
  obtain ⟨p, hbody, hp⟩ := splitPoint_eq (splitSign t).2
  generalize splitSign t = q at *
  generalize splitPoint q.2 = r at *
  obtain ⟨i, f⟩ := r
  have hall : allDigits i ∧ allDigits f := by
    rw [Bool.not_eq_true', Bool.not_eq_false, Bool.and_eq_true] at hdigits
    exact hdigits
  refine ⟨i, f, ?_, ?_, ?_, hs.symm, ?_, rfl⟩
  · rw [allDigits, all_append, Bool.and_eq_true]
    exact hall
  · -- signs and points are no digits
    have hσ' : σ.filter Char.isDigit = [] := by rcases hσ with rfl | rfl | rfl <;> rfl
    have hp' : p.filter Char.isDigit = [] := by rcases hp with rfl | rfl <;> rfl
    rw [textDigits, ht, hbody]
    dsimp only
    rw [filter_append, filter_append, filter_append, hσ', hp', nil_append, append_nil,
      filter_eq_self.mpr (all_eq_true.mp hall.1), filter_eq_self.mpr (all_eq_true.mp hall.2)]
  · intro hmem
    have hdigit {l : Text} (hl : allDigits l = true) : '_' ∉ l := fun h =>
      absurd (all_eq_true.mp hl _ h) (by decide)
    rw [ht, hbody, mem_append, mem_append, mem_append] at hmem
    rcases hmem with hmem | (hmem | hmem) | hmem
    · rcases hσ with rfl | rfl | rfl
      · cases hmem
      · exact absurd (mem_singleton.mp hmem) (by decide)
      · exact absurd (mem_singleton.mp hmem) (by decide)
    · exact hdigit hall.1 hmem
    · rcases hp with rfl | rfl
      · cases hmem
      · exact absurd (mem_singleton.mp hmem) (by decide)
    · exact hdigit hall.2 hmem
  · rw [← hm, signedDigits]
    split
    · rw [Int.natAbs_neg, Int.natAbs_natCast]
    · rw [Int.natAbs_natCast]

theorem parsePlain_of_none {R : Decimals} (h : R.fromStrExact t = none) :
    parsePlain R t = (parts t).bind fun p =>
      if maxDecTextDigits < textDigits t then none
      else some (Number.decimalFromParts p.1 p.2) := by
  have hparts := parts_eq_ite t
  rw [parsePlain, h]
  dsimp only
  cases hp : parts t with
  | none =>
    rw [hp] at hparts
    rw [Option.bind_none]
    split_ifs at hparts with hempty hdigits
    · rw [if_pos hempty]
    · rw [if_neg hempty, if_pos hdigits]
  | some p =>
    obtain ⟨i, f, -, hcount, -, -, -, hsplit⟩ := parts_eq_some hp
    rw [hp] at hparts
    rw [Option.bind_some, hcount]
    split_ifs at hparts with hempty hdigits
    rw [if_neg hempty, if_neg hdigits, Option.some.inj hparts, hsplit, length_append]

/-! ## Values and places -/

namespace Number

/-- The decimal places. -/
def places (n : Number) : Nat := n.ratio.2

/-- A decimal of a value and with so many places, less zeros past the 28th. -/
structure ReadsAs (n : Number) (v : ℚ) (s : Nat) : Prop where
  decimal : n.isDecimal = true
  value : n.rat = v
  places_le : n.places ≤ s
  places_ge : n.places < s → 28 ≤ n.places

/-- A decimal of a mantissa of at most 4300 digits, with at most 4300 places. -/
def Short (n : Number) : Prop :=
  ∃ m s, n = decimalFromParts m s ∧ m.natAbs < 10 ^ maxDecTextDigits ∧ s ≤ maxDecTextDigits

theorem ratio_decimalFromParts {m : Int} {s : Nat} (hs : s < 2 ^ 32) :
    (decimalFromParts m s).ratio = dropZeros 28 m s := by
  rw [decimalFromParts]
  simp only [Nat.mod_eq_of_lt hs]
  split <;> rfl

theorem le_dropZeros {ideal s : Nat} {m : Int} (h : (dropZeros ideal m s).2 < s) :
    ideal ≤ (dropZeros ideal m s).2 := by
  induction s generalizing m with
  | zero => exact absurd h (Nat.not_lt_zero _)
  | succ s ih =>
    rw [dropZeros] at h ⊢
    split at h
    next hdrop =>
      rw [if_pos hdrop]
      rcases Nat.lt_or_eq_of_le (dropZeros_le ideal (m / 10) s) with hlt | heq
      · exact ih hlt
      · rw [heq]
        exact Nat.le_of_lt_succ hdrop.1
    next => exact absurd h (Nat.lt_irrefl _)

theorem readsAs_decimalFromParts {m : Int} {s : Nat} (hs : s < 2 ^ 32) :
    ReadsAs (decimalFromParts m s) (Scaled.ratio dec96 m s) s where
  decimal := isDecimal_decimalFromParts m s
  value := decimalFromParts_rat hs
  places_le := by
    rw [places, ratio_decimalFromParts hs]
    exact dropZeros_le 28 m s
  places_ge h := by
    rw [places, ratio_decimalFromParts hs] at h ⊢
    exact le_dropZeros h

theorem dropZeros_of_noZeros {m : Int} {s : Nat} (h : 28 < s → m % 10 ≠ 0) :
    dropZeros 28 m s = (m, s) := by
  cases s with
  | zero => rfl
  | succ s =>
    rw [dropZeros, if_neg]
    exact fun hdrop => h hdrop.1 hdrop.2

theorem decimalFromParts_ratio (h : n.isDecimal) : decimalFromParts n.ratio.1 n.ratio.2 = n := by
  cases n with
  | decimal d =>
    change decimalFromParts d.mantissa d.scale = _
    have hscale : d.scale < 2 ^ 32 := d.scale_le.trans_lt (by decide)
    have hdrop := dropZeros_of_noZeros (m := d.mantissa) (s := d.scale)
      fun h => absurd d.scale_le (not_le.mpr h)
    rw [decimalFromParts]
    simp only [Nat.mod_eq_of_lt hscale, hdrop]
    rw [dif_pos ⟨d.mantissa_lt, d.scale_le⟩]
  | bigDec b =>
    change decimalFromParts b.m b.s = _
    have hdrop := dropZeros_of_noZeros b.noZeros
    rw [decimalFromParts]
    simp only [Nat.mod_eq_of_lt b.scale_lt, hdrop]
    rw [dif_neg b.noRoom]
  | _ => cases h

end Number

open Arith.Number hiding parts

variable {R : Decimals}

theorem parsePlain_reads (hS : R.ReadsExactly) (h : parsePlain R t = some n) :
    ∃ m s, parts (t.filter (· ≠ '_')) = some (m, s) ∧
      ReadsAs n (Scaled.ratio dec96 m s) s ∧ n.Short := by
  cases hexact : R.fromStrExact t with
  | some d =>
    rw [parsePlain, hexact] at h
    obtain rfl := Option.some.inj h
    refine ⟨d.mantissa, d.scale, hS t d hexact, ⟨rfl, rfl, le_rfl, fun h => ?_⟩,
      d.mantissa, d.scale, (decimalFromParts_ratio rfl).symm, ?_, ?_⟩
    · exact absurd h (Nat.lt_irrefl _)
    · exact d.mantissa_lt.trans_le ((by norm_num : 2 ^ 96 ≤ 10 ^ 29).trans
        (Nat.pow_le_pow_right (by decide) (by decide)))
    · exact d.scale_le.trans (by decide)
  | none =>
    rw [parsePlain_of_none hexact] at h
    obtain ⟨⟨m, s⟩, hparts, h⟩ := Option.bind_eq_some_iff.mp h
    obtain ⟨i, f, hall, hcount, hplain, hs, hm, -⟩ := parts_eq_some hparts
    rw [Option.ite_none_left_eq_some, not_lt] at h
    obtain ⟨hdigits, h⟩ := h
    obtain rfl := Option.some.inj h
    rw [hcount, length_append] at hdigits
    have hplaces : s ≤ maxDecTextDigits := by omega
    refine ⟨m, s, ?_, readsAs_decimalFromParts (hplaces.trans_lt (by decide)), m, s, rfl, ?_,
      hplaces⟩
    · rwa [filter_eq_self.mpr]
      exact fun c hc => decide_eq_true fun heq => hplain (heq ▸ hc)
    · rw [hm]
      have hlt := ofDigitChars_lt (all_eq_true.mp hall) 0
      rw [Nat.zero_add, Nat.one_mul, length_append] at hlt
      exact hlt.trans_le (Nat.pow_le_pow_right (by decide) hdigits)

theorem natAbs_dropZeros_le (ideal : Nat) (m : Int) (s : Nat) :
    (dropZeros ideal m s).1.natAbs ≤ m.natAbs := by
  induction s generalizing m with
  | zero => exact le_rfl
  | succ s ih =>
    rw [dropZeros]
    split
    · exact (ih _).trans (by omega)
    · exact le_rfl

theorem Number.Short.mantissa_lt (h : n.Short) : n.ratio.1.natAbs < 10 ^ maxDecTextDigits := by
  obtain ⟨m, s, rfl, hm, hs⟩ := h
  rw [ratio_decimalFromParts (hs.trans_lt (by decide))]
  exact (natAbs_dropZeros_le 28 m s).trans_lt hm

/-! ## Exponents -/

theorem splitExponent_eq_none (he : 'e' ∉ t) (hE : 'E' ∉ t) : splitExponent t = none := by
  induction t with
  | nil => rfl
  | cons c t ih =>
    rw [List.mem_cons, not_or] at he hE
    rw [splitExponent, if_neg, ih he.2 hE.2]
    · rfl
    · exact not_or.mpr ⟨Ne.symm he.1, Ne.symm hE.1⟩

theorem splitExponent_append (he : 'e' ∉ l) (hE : 'E' ∉ l) (hc : c = 'e' ∨ c = 'E') (r : Text) :
    splitExponent (l ++ c :: r) = some (l, r) := by
  induction l with
  | nil => rw [nil_append, splitExponent, if_pos hc]
  | cons x l ih =>
    rw [List.mem_cons, not_or] at he hE
    rw [cons_append, splitExponent, if_neg, ih he.2 hE.2]
    · rfl
    · exact not_or.mpr ⟨Ne.symm he.1, Ne.symm hE.1⟩

variable {r : Text} {x : Int}

theorem splitExponent_eq_some (h : splitExponent t = some (l, r)) :
    ∃ c, (c = 'e' ∨ c = 'E') ∧ t = l ++ c :: r ∧ 'e' ∉ l ∧ 'E' ∉ l := by
  induction t generalizing l with
  | nil => cases h
  | cons x t ih =>
    rw [splitExponent] at h
    split at h
    next hx =>
      cases h
      exact ⟨x, hx, rfl, not_mem_nil, not_mem_nil⟩
    next hx =>
      obtain ⟨⟨l', r'⟩, hs, heq⟩ := Option.map_eq_some_iff.mp h
      cases heq
      obtain ⟨c, hc, rfl, he, hE⟩ := ih hs
      rw [not_or] at hx
      refine ⟨c, hc, rfl, ?_, ?_⟩
      · exact not_mem_cons_of_ne_of_not_mem (Ne.symm hx.1) he
      · exact not_mem_cons_of_ne_of_not_mem (Ne.symm hx.2) hE

theorem splitPoint_of_allDigits (h : allDigits t) : splitPoint t = (t, []) := by
  have hpoint : '.' ∉ t := fun hmem => absurd (all_eq_true.mp h _ hmem) (by decide)
  rw [splitPoint, splitOnce_eq_none_iff.mpr hpoint, Option.getD_none]

theorem parseExponent_reads (h : parseExponent t = some x) : parts t = some (x, 0) := by
  rw [parseExponent] at h
  rw [parts_eq_ite]
  generalize splitSign t = p at *
  obtain ⟨neg, ds⟩ := p
  dsimp only at h ⊢
  rw [Option.ite_none_left_eq_some, not_or, not_or, Bool.not_eq_false] at h
  obtain ⟨⟨hne, -, hdigits⟩, h⟩ := h
  rw [splitPoint_of_allDigits hdigits, if_neg fun h => hne h.1, if_neg, append_nil,
    Option.some.inj h]
  · rfl
  · rw [hdigits]
    exact Bool.false_ne_true

theorem natAbs_lt_pow (m : Int) : m.natAbs < 10 ^ (digits m.natAbs).length := by
  have hlt := ofDigitChars_lt (all_eq_true.mp (allDigits_digits m.natAbs)) 0
  rwa [Nat.zero_add, Nat.one_mul, ofDigitChars_digits] at hlt

theorem moveBy_reads {m : Int} {s : Nat} (hm : m.natAbs < 10 ^ maxDecTextDigits)
    (h : moveBy m s x = some n) :
    ReadsAs n (Scaled.ratio dec96 m s * 10 ^ x) (s - x).toNat ∧ n.Short ∧
      x - s ≤ maxDecTextDigits := by
  have hmax : maxDecTextDigits = 4300 := rfl
  rw [moveBy, Option.ite_none_left_eq_some, not_or, not_lt, not_lt] at h
  obtain ⟨⟨hscale, hdigits⟩, h⟩ := h
  have hlen : 0 < (digits m.natAbs).length := length_pos_iff.mpr (digits_ne_nil _)
  rw [digitCount] at hdigits
  rcases le_or_gt 0 ((s : Int) - x) with hpos | hneg
  · -- the exponent takes away places
    rw [if_pos hpos] at h
    obtain rfl := Option.some.inj h
    obtain ⟨k, hk⟩ := Int.eq_ofNat_of_zero_le hpos
    have hx : x = s - k := by omega
    rw [hk, Int.toNat_natCast]
    rw [hk] at hscale
    have hplaces : k ≤ maxDecTextDigits := by omega
    have hvalue : Scaled.ratio dec96 m s * 10 ^ x = Scaled.ratio dec96 m k := by
      rw [ratio_dec96, ratio_dec96, hx, zpow_sub₀ (by norm_num), zpow_natCast, zpow_natCast,
        div_mul_div_cancel₀ (by positivity)]
    rw [hvalue]
    exact ⟨readsAs_decimalFromParts (hplaces.trans_lt (by decide)), ⟨m, k, rfl, hm, hplaces⟩,
      by omega⟩
  · -- there are no places left
    rw [if_neg (not_le.mpr hneg)] at h
    obtain rfl := Option.some.inj h
    obtain ⟨k, hk⟩ := Int.eq_ofNat_of_zero_le (show 0 ≤ -((s : Int) - x) by omega)
    have hx : x = s + k := by omega
    have hplaces : (s - x).toNat = 0 := by omega
    have hpow : pow10Big (-((s : Int) - x)) = 10 ^ k := by
      rw [hk, pow10Big, Int.toNat_natCast, Nat.mod_eq_of_lt (by omega)]
    have hvalue : Scaled.ratio dec96 m s * 10 ^ x = Scaled.ratio dec96 (m * 10 ^ k) 0 := by
      rw [ratio_dec96, ratio_dec96, hx, zpow_add₀ (by norm_num), zpow_natCast, zpow_natCast]
      push_cast
      field_simp
    rw [hplaces, hpow, hvalue]
    refine ⟨readsAs_decimalFromParts (Nat.two_pow_pos 32), ⟨_, 0, rfl, ?_, Nat.zero_le _⟩, by omega⟩
    rw [Int.natAbs_mul, Int.natAbs_pow]
    calc m.natAbs * 10 ^ k < 10 ^ (digits m.natAbs).length * 10 ^ k :=
          Nat.mul_lt_mul_of_pos_right (natAbs_lt_pow m) (Nat.pow_pos (by decide))
      _ = 10 ^ ((digits m.natAbs).length + k) := (Nat.pow_add 10 _ _).symm
      _ ≤ 10 ^ maxDecTextDigits := Nat.pow_le_pow_right (by decide) (by omega)

/-! ## Reading and writing -/

theorem parseDecimal_of_plain (he : 'e' ∉ trim t) (hE : 'E' ∉ trim t) :
    parseDecimal R t = parsePlain R (trim t) := by
  rw [parseDecimal, splitExponent_eq_none he hE]

theorem not_mem_trim (h : c ∉ t) : c ∉ trim t := by
  intro hmem
  have hstart : c ∈ trimStart t := rdropWhile_prefix isWhitespace (trimStart t) |>.subset hmem
  exact h (dropWhile_suffix isWhitespace |>.subset hstart)

theorem parseDecimal_of_exponent (ht : trim t = l ++ c :: r) (hc : c = 'e' ∨ c = 'E') (he : 'e' ∉ l)
    (hE : 'E' ∉ l) (h : parseDecimal R t = some n) :
    ∃ k x, parseDecimal R l = some k ∧ parseExponent r = some x ∧
      k.exactRatio = some k.ratio ∧ moveBy k.ratio.1 k.ratio.2 x = some n := by
  have hcontains : (l.contains 'e' || l.contains 'E') = false := by
    rw [Bool.or_eq_false_iff, Bool.eq_false_iff, Bool.eq_false_iff, Ne, Ne, contains_iff_mem,
      contains_iff_mem]
    exact ⟨he, hE⟩
  rw [parseDecimal, ht, splitExponent_append he hE hc] at h
  dsimp only at h
  obtain ⟨x, hx, h⟩ := Option.bind_eq_some_iff.mp h
  rw [if_neg (Bool.eq_false_iff.mp hcontains)] at h
  obtain ⟨k, hk, h⟩ := Option.bind_eq_some_iff.mp h
  obtain ⟨p, hp, h⟩ := Option.bind_eq_some_iff.mp h
  have hratio : k.ratio = p := by rw [ratio, hp, Option.getD_some]
  refine ⟨k, x, ?_, hx, ?_, ?_⟩
  · rw [parseDecimal_of_plain (not_mem_trim he) (not_mem_trim hE), hk]
  · rw [hp, hratio]
  · rw [hratio]
    exact h

theorem isWhitespace_of_isDigit (h : c.isDigit) : isWhitespace c = false := by
  have hrange := Char.isDigit_iff_toNat.mp h
  have h₀ : '0'.toNat = 48 := rfl
  have h₉ : '9'.toNat = 57 := rfl
  rw [isWhitespace, Bool.or_eq_false_iff, decide_eq_false_iff_not, Bool.and_eq_false_iff,
    decide_eq_false_iff_not]
  refine ⟨fun hmem => ?_, .inl (by omega)⟩
  simp only [List.mem_cons, not_mem_nil, or_false] at hmem
  omega

section Written

variable (m : Int) (s : Nat)

theorem mem_fmtScaled (h : c ∈ fmtScaled m s) : c = '-' ∨ c = '.' ∨ c.isDigit = true := by
  have hdigits {c : Char} (h : c ∈ digits m.natAbs) : c.isDigit = true :=
    all_eq_true.mp (allDigits_digits m.natAbs) c h
  rw [fmtScaled] at h
  split at h
  · rw [toString_eq, mem_append] at h
    rcases h with h | h
    · left
      rw [sign] at h
      split at h
      · exact mem_singleton.mp h
      · cases h
    · exact .inr (.inr (hdigits h))
  · have hpadded {c : Char} (h : c ∈ (if (digits m.natAbs).length ≤ s then
        replicate (s - (digits m.natAbs).length + 1) '0' ++ digits m.natAbs
        else digits m.natAbs)) : c.isDigit = true := by
      split at h
      · rcases mem_append.mp h with h | h
        · rw [eq_of_mem_replicate h]
          rfl
        · exact hdigits h
      · exact hdigits h
    rw [mem_append, mem_append, mem_append] at h
    rcases h with ((h | h) | h) | h
    · left
      split at h
      · exact mem_singleton.mp h
      · cases h
    · exact .inr (.inr (hpadded (mem_of_mem_take h)))
    · exact .inr (.inl (mem_singleton.mp h))
    · exact .inr (.inr (hpadded (mem_of_mem_drop h)))

theorem trim_fmtScaled : trim (fmtScaled m s) = fmtScaled m s := by
  have hblank {c : Char} (h : c ∈ fmtScaled m s) : isWhitespace c = false := by
    rcases mem_fmtScaled m s h with rfl | rfl | hc
    · rfl
    · rfl
    · exact isWhitespace_of_isDigit hc
  apply trim_eq_self
  · exact fun c hc => hblank (mem_of_mem_head? hc)
  · exact fun c hc => hblank (mem_of_getLast? hc)

end Written

theorem parseDecimal_toText (hD : R.Displays) (hS : R.ReadsExactly) (pyFloat : F64 → Text)
    {d : Number} (hd : d.isDecimal) (hdigits : textDigits (d.toText R pyFloat) ≤ maxDecTextDigits) :
    parseDecimal R (d.toText R pyFloat) = some d := by
  have htext : d.toText R pyFloat = fmtScaled d.ratio.1 d.ratio.2 := by
    cases d with
    | decimal d => exact hD d
    | bigDec b => rfl
    | _ => cases hd
  have hplain {c : Char} (hc : c = 'e' ∨ c = 'E' ∨ c = '_') :
      c ∉ fmtScaled d.ratio.1 d.ratio.2 := by
    intro hmem
    rcases mem_fmtScaled _ _ hmem with rfl | rfl | hdigit
    · rcases hc with h | h | h <;> cases h
    · rcases hc with h | h | h <;> cases h
    · rcases hc with rfl | rfl | rfl <;> cases hdigit
  have hfilter : (fmtScaled d.ratio.1 d.ratio.2).filter (· ≠ '_') = fmtScaled d.ratio.1 d.ratio.2 := by
    rw [filter_eq_self]
    exact fun c hc => decide_eq_true fun heq => hplain (.inr (.inr rfl)) (heq ▸ hc)
  rw [htext] at hdigits ⊢
  rw [parseDecimal_of_plain, trim_fmtScaled]
  · cases hexact : R.fromStrExact (fmtScaled d.ratio.1 d.ratio.2) with
    | some d' =>
      have hparts := hS _ d' hexact
      rw [hfilter, Synsema.Reference.parts_fmtScaled] at hparts
      have hratio : d.ratio = (Number.decimal d').ratio := Option.some.inj hparts
      rw [parsePlain, hexact, ← decimalFromParts_ratio hd, hratio,
        decimalFromParts_ratio (n := .decimal d') rfl]
    | none =>
      rw [parsePlain_of_none hexact, Synsema.Reference.parts_fmtScaled, Option.bind_some,
        if_neg (not_lt.mpr hdigits), decimalFromParts_ratio hd]
  · rw [trim_fmtScaled]
    exact hplain (.inl rfl)
  · rw [trim_fmtScaled]
    exact hplain (.inr (.inl rfl))

/-- **Decimal text is exact both ways**: a decimal is read back from its text; what is read of a text
is what the text says, with its places less zeros past the 28th; an exponent moves the decimal of
the mantissa, with the places that are left of that decimal's; and no integer that is built has more
than 4300 digits. -/
theorem decimal_text_exact (hD : R.Displays) (hS : R.ReadsExactly) (pyFloat : F64 → Text) :
    (∀ d : Number, d.isDecimal = true → textDigits (d.toText R pyFloat) ≤ maxDecTextDigits →
      ∃ n, parseDecimal R (d.toText R pyFloat) = some n ∧ n.isDecimal = true ∧ n.rat = d.rat ∧
        n.places = d.places) ∧
      (∀ t n, 'e' ∉ trim t → 'E' ∉ trim t → parseDecimal R t = some n →
        ∃ m s, parts ((trim t).filter (· ≠ '_')) = some (m, s) ∧
          ReadsAs n (Scaled.ratio dec96 m s) s) ∧
      (∀ t l c r n, trim t = l ++ c :: r → (c = 'e' ∨ c = 'E') → 'e' ∉ l → 'E' ∉ l →
        parseDecimal R t = some n → ∃ k x, parseDecimal R l = some k ∧ parts r = some (x, 0) ∧
          ReadsAs n (k.rat * 10 ^ x) (k.places - x).toNat ∧ x - k.places ≤ maxDecTextDigits) ∧
      ∀ t n, parseDecimal R t = some n → n.Short := by
  have hmoved {t l r : Text} {c : Char} {n : Number} (ht : trim t = l ++ c :: r)
      (hc : c = 'e' ∨ c = 'E') (he : 'e' ∉ l) (hE : 'E' ∉ l) (h : parseDecimal R t = some n) :
      ∃ k x, parseDecimal R l = some k ∧ parts r = some (x, 0) ∧
        ReadsAs n (k.rat * 10 ^ x) (k.places - x).toNat ∧ n.Short ∧
          x - k.places ≤ maxDecTextDigits := by
    obtain ⟨k, x, hk, hx, hratio, hmove⟩ := parseDecimal_of_exponent ht hc he hE h
    have hplain := hk
    rw [parseDecimal_of_plain (not_mem_trim he) (not_mem_trim hE)] at hplain
    obtain ⟨m, s, -, hreads, hshort⟩ := parsePlain_reads hS hplain
    have hfloat : k.isFloat = false := by
      have := hreads.decimal
      cases k <;> first | rfl | cases this
    obtain ⟨hn, hnshort, hpower⟩ := moveBy_reads hshort.mantissa_lt hmove
    rw [(exactRatio_ratio hfloat).2] at hn
    exact ⟨k, x, hk, parseExponent_reads hx, hn, hnshort, hpower⟩
  refine ⟨fun d hd hdigits => ⟨d, parseDecimal_toText hD hS pyFloat hd hdigits, hd, rfl, rfl⟩,
    fun t n he hE h => ?_, fun t l c r n ht hc he hE h => ?_, fun t n h => ?_⟩
  · rw [parseDecimal_of_plain he hE] at h
    obtain ⟨m, s, hparts, hreads, -⟩ := parsePlain_reads hS h
    exact ⟨m, s, hparts, hreads⟩
  · obtain ⟨k, x, hk, hx, hn, -, hpower⟩ := hmoved ht hc he hE h
    exact ⟨k, x, hk, hx, hn, hpower⟩
  · cases hsplit : splitExponent (trim t) with
    | none =>
      rw [parseDecimal, hsplit] at h
      obtain ⟨m, s, -, -, hshort⟩ := parsePlain_reads hS h
      exact hshort
    | some p =>
      obtain ⟨c, hc, ht, he, hE⟩ := splitExponent_eq_some hsplit
      obtain ⟨k, x, -, -, -, hshort, -⟩ := hmoved ht hc he hE h
      exact hshort

/-! ## The decimal arithmetic of reference -/

namespace Reference

theorem decimals_displays : decimals.Displays := fun _ => rfl

theorem decimals_readsExactly : decimals.ReadsExactly := by
  intro t d h
  obtain ⟨⟨m, s⟩, hparts, h⟩ := Option.bind_eq_some_iff.mp h
  obtain ⟨i, f, -, -, hplain, -⟩ := parts_eq_some hparts
  have hfilter : t.filter (· ≠ '_') = t := by
    rw [filter_eq_self]
    exact fun c hc => decide_eq_true fun heq => hplain (heq ▸ hc)
  dsimp only at h
  rw [Scaled.Num.ofParts?, Option.dite_none_right_eq_some] at h
  obtain ⟨hroom, h⟩ := h
  rw [hfilter, hparts, ← Option.some.inj h]

end Reference

/-- `1.50d`. -/
theorem decimal_text_exact_money : ∃ n,
    parseDecimal Reference.decimals
      (toText Reference.decimals (fun _ => []) (.decimal ⟨150, 2, by decide, by decide⟩)) = some n ∧
      n.isDecimal = true ∧ n.rat = rat (.decimal ⟨150, 2, by decide, by decide⟩) ∧
      n.places = places (.decimal ⟨150, 2, by decide, by decide⟩) :=
  (decimal_text_exact Reference.decimals_displays Reference.decimals_readsExactly (fun _ => [])).1
    (.decimal ⟨150, 2, by decide, by decide⟩) rfl (by decide)

/-- A one with thirty places. -/
def longOne : Text := "1." ++ replicate 30 '0'

/-- A mantissa of thirty places, of which an exponent of 5 leaves 23 and not 25. -/
theorem exponent_drops_places :
    ¬∀ t l c r n, trim t = l ++ c :: r → (c = 'e' ∨ c = 'E') → 'e' ∉ l → 'E' ∉ l →
      parseDecimal Reference.decimals t = some n →
        ∃ m s x, parts (l.filter (· ≠ '_')) = some (m, s) ∧ parts r = some (x, 0) ∧
          ReadsAs n (Scaled.ratio dec96 m s * 10 ^ x) (s - x : Int).toNat := by
  intro h
  have hread : (parseDecimal Reference.decimals (longOne ++ "e5")).map ratio =
      some (10 ^ 28, 23) := by
    decide
  obtain ⟨n, hn, hratio⟩ := Option.map_eq_some_iff.mp hread
  have htrim : trim (longOne ++ "e5") = longOne ++ 'e' :: ['5'] := by decide
  obtain ⟨m, s, x, hm, hx, hreads⟩ := h (longOne ++ "e5") longOne 'e' ['5'] n htrim (.inl rfl)
    (by decide) (by decide) hn
  have hmantissa : parts (longOne.filter (· ≠ '_')) = some (10 ^ 30, 30) := by decide
  have hexponent : parts ['5'] = some (5, 0) := by decide
  rw [hmantissa] at hm
  rw [hexponent] at hx
  cases hm
  cases hx
  have hplaces : n.places = 23 := by rw [places, hratio]
  have hge := hreads.places_ge
  rw [hplaces] at hge
  exact absurd (hge (by decide)) (by decide)

end Synsema.Arith
