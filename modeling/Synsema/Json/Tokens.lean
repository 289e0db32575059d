import Synsema.Json.Exact
import Synsema.Json.Grammar

/-!
# The scanners of the JSON parser

Each scanner accepts what its token is: a theorem for each says when it succeeds, with what
result and with what text left.
-/

namespace Synsema.Json.Exact

open Text List

/-! ## Steps of a scanner -/

section Steps

variable {ε σ α β : Type}

variable {f : α → EStateM ε σ β} {s' : σ} {a : α} {msg : String}

theorem bind_eq_ok {x : EStateM ε σ α} {s : σ} {b : β} :
    (x >>= f) s = .ok b s' ↔ ∃ a s₁, x s = .ok a s₁ ∧ f a s₁ = .ok b s' := by
  change (match x s with | .ok a s => f a s | .error e s => .error e s) = _ ↔ _
  cases x s <;> simp

theorem bind_of_eq_ok {x : EStateM ε σ α} {s : σ} (h : x s = .ok a s') : (x >>= f) s = f a s' := by
  change (match x s with | .ok a s => f a s | .error e s => .error e s) = _
  rw [h]

theorem bind_of_eq_error {x : EStateM ε σ α} {s : σ} {e : ε} (h : x s = .error e s') :
    (x >>= f) s = .error e s' := by
  change (match x s with | .ok a s => f a s | .error e s => .error e s) = _
  rw [h]

@[simp]
theorem pure_eq_ok {b : α} {s : σ} : (pure a : EStateM ε σ α) s = .ok b s' ↔ b = a ∧ s' = s := by
  change EStateM.Result.ok a s = .ok b s' ↔ _
  simp [eq_comm]

@[simp]
theorem fail_ne_ok {s : σ} : fail msg s ≠ .ok a s' := nofun

theorem get_bind (f : σ → EStateM ε σ β) (s : σ) : (get >>= f) s = f s s := rfl

theorem require_bind_of {c : Bool} (hc : c) (msg : String) (f : Unit → EStateM Text σ β)
    (s : σ) : (require c msg >>= f) s = f () s := by
  subst hc
  rfl

theorem require_bind_eq_ok {c : Bool} {f : Unit → EStateM Text σ β} {s : σ} {b : β} :
    (require c msg >>= f) s = .ok b s' ↔ c ∧ f () s = .ok b s' := by
  rw [bind_eq_ok]
  cases c
  · simp [require]
  · simp only [require, if_pos, EStateM.Result.ok.injEq, true_and]
    constructor
    · rintro ⟨_, _, rfl, h⟩
      exact h
    · intro h
      exact ⟨(), s, rfl, h⟩

end Steps

theorem peek_bind {β : Type} (f : Option Char → Scan β) (t : Text) :
    (peek >>= f) t = f t.head? t := rfl

theorem advance_bind {β : Type} (n : Nat) (f : Unit → Scan β) (t : Text) :
    (advance n >>= f) t = f () (t.drop n) := rfl

/-! ## Runs -/

/-- The text does not go on with a character that `p` accepts. -/
def Ends (p : Char → Bool) (t : Text) : Prop := ∀ c ∈ t.head?, p c = false

@[simp]
theorem ends_nil (p : Char → Bool) : Ends p [] := nofun

variable {p : Char → Bool} {c : Char} {t r start r' x out : Text} {v : SynValue} {n fuel : Nat}
  {b : Bool} {u : Unit16} {s : List StrItem}

@[simp]
theorem ends_cons : Ends p (c :: t) ↔ p c = false := by
  simp [Ends]

theorem ends_dropWhile (p : Char → Bool) (t : Text) : Ends p (t.dropWhile p) := by
  induction t with
  | nil => exact ends_nil p
  | cons c t ih =>
    rw [dropWhile_cons]
    split_ifs with hc
    · exact ih
    · simpa using hc

variable {a : Text} {w : Unit16}

theorem span_iff :
    a = t.takeWhile p ∧ r = t.dropWhile p ↔ t = a ++ r ∧ (∀ c ∈ a, p c) ∧ Ends p r := by
  constructor
  · rintro ⟨rfl, rfl⟩
    exact ⟨takeWhile_append_dropWhile.symm, fun c hc => mem_takeWhile_imp hc,
      ends_dropWhile p t⟩
  · rintro ⟨rfl, ha, hr⟩
    induction a with
    | nil =>
      cases r with
      | nil => exact ⟨rfl, rfl⟩
      | cons c r =>
        have hc : ¬p c := by simpa using hr
        simp [hc]
    | cons c a ih =>
      have hc := ha c (mem_cons_self ..)
      have h := ih fun c hc => ha c (mem_cons_of_mem _ hc)
      simp [hc, ← h.1, ← h.2]

theorem takeRun_eq_ok :
    takeRun p t = .ok a r ↔ t = a ++ r ∧ (∀ c ∈ a, p c) ∧ Ends p r := by
  rw [← span_iff]
  simp [takeRun, eq_comm]

/-! ## White space -/

theorem isWs_iff : isWs c ↔ c = ' ' ∨ c = '\t' ∨ c = '\n' ∨ c = '\r' := by
  simp [isWs, or_assoc]

theorem ws_eq_ok {u : Unit} : ws t = .ok u r ↔ ∃ w : Ws, t = w.chars ++ r ∧ Ends isWs r := by
  constructor
  · intro h
    have hr : t.dropWhile isWs = r := by simpa [ws] using h
    obtain ⟨ht, hw, hr⟩ := span_iff.mp ⟨rfl, hr.symm⟩
    exact ⟨⟨_, fun c hc => isWs_iff.mp (hw c hc)⟩, ht, hr⟩
  · rintro ⟨w, rfl, hr⟩
    obtain ⟨-, h⟩ := span_iff.mpr ⟨rfl, fun c hc => isWs_iff.mpr (w.ws c hc), hr⟩
    simp [ws, ← h]

theorem ws_append (w : Ws) (hr : Ends isWs r) : ws (w.chars ++ r) = .ok () r :=
  ws_eq_ok.mpr ⟨w, rfl, hr⟩

/-! ## Literals -/

theorem startsWith_iff {pre : Text} : startsWith pre t ↔ ∃ r, t = pre ++ r := by
  rw [startsWith, isPrefixOf_iff_prefix]
  simp [List.IsPrefix, eq_comm]

theorem lit_eq_ok {word : String} {w : SynValue} :
    lit word v t = .ok w r ↔ w = v ∧ t = word.toList ++ r := by
  unfold lit
  split_ifs with h
  · obtain ⟨r', rfl⟩ := startsWith_iff.mp h
    simp [eq_comm]
  · constructor
    · intro h'
      cases h'
    · rintro ⟨-, rfl⟩
      exact absurd (startsWith_iff.mpr ⟨r, rfl⟩) h

/-! ## Digits of a number -/

theorem digits_eq_ok :
    digits t = .ok n r ↔
      ∃ ds, t = ds ++ r ∧ (∀ c ∈ ds, c.isDigit) ∧ Ends Char.isDigit r ∧ n = ds.length := by
  constructor
  · intro h
    have h : (t.takeWhile Char.isDigit).length = n ∧ t.dropWhile Char.isDigit = r := by
      simpa [digits] using h
    obtain ⟨ht, hd, hr⟩ := span_iff.mp ⟨rfl, h.2.symm⟩
    exact ⟨_, ht, hd, hr, h.1.symm⟩
  · rintro ⟨ds, rfl, hd, hr, rfl⟩
    obtain ⟨h₁, h₂⟩ := span_iff.mpr ⟨rfl, hd, hr⟩
    simp [digits, ← h₁, ← h₂]

theorem digits_ne_zero :
    (digits t = .ok n r ∧ n ≠ 0) ↔
      ∃ ds : Digits, t = ds.chars ++ r ∧ Ends Char.isDigit r ∧ n = ds.chars.length := by
  rw [digits_eq_ok]
  constructor
  · rintro ⟨⟨ds, rfl, hd, hr, rfl⟩, hn⟩
    exact ⟨⟨ds, fun h => hn (by rw [h]; rfl), hd⟩, rfl, hr, rfl⟩
  · rintro ⟨ds, rfl, hr, rfl⟩
    exact ⟨⟨_, rfl, ds.isDigit, hr, rfl⟩, fun h => ds.ne_nil (length_eq_zero_iff.mp h)⟩

theorem digits_require :
    (do let n ← digits
        require (n ≠ 0) "invalid number"
        pure true : Scan Bool) t = .ok b r ↔
      b = true ∧ ∃ ds : Digits, t = ds.chars ++ r ∧ Ends Char.isDigit r := by
  rw [bind_eq_ok]
  simp only [require_bind_eq_ok, pure_eq_ok, decide_eq_true_eq]
  constructor
  · rintro ⟨n, _, hn, hz, rfl, rfl⟩
    obtain ⟨ds, ht, hr, -⟩ := digits_ne_zero.mp ⟨hn, hz⟩
    exact ⟨rfl, ds, ht, hr⟩
  · rintro ⟨rfl, ds, rfl, hr⟩
    obtain ⟨hn, hz⟩ := digits_ne_zero.mpr ⟨ds, rfl, hr, rfl⟩
    exact ⟨_, _, hn, hz, rfl, rfl⟩

theorem fraction_eq_ok :
    fraction t = .ok b r ↔
      (b = false ∧ r = t ∧ Ends (· == '.') t) ∨
        b = true ∧ ∃ ds : Digits, t = '.' :: ds.chars ++ r ∧ Ends Char.isDigit r := by
  unfold fraction
  rw [peek_bind]
  by_cases h : t.head? = some '.'
  · obtain ⟨t, rfl⟩ := head?_eq_some_iff.mp h
    rw [if_pos h, advance_bind, drop_one, tail_cons, digits_require]
    simp
  · rw [if_neg h, pure_eq_ok]
    cases t with
    | nil => simp
    | cons c t =>
      have hc : c ≠ '.' := fun hc => h (congrArg some hc)
      simp [hc]

theorem skipOne_eq_ok {cs : List Char} {u : Unit} :
    skipOne cs t = .ok u r ↔ (∃ c ∈ cs, t = c :: r) ∨ t = r ∧ Ends cs.contains t := by
  cases t with
  | nil => simp [skipOne]
  | cons c t =>
    by_cases hc : c ∈ cs
    · simp [skipOne, hc]
    · simp [skipOne, hc]

/-- The letter of an exponent. -/
def isExpLetter (c : Char) : Bool := c == 'e' || c == 'E'

theorem exponent_eq_ok :
    exponent t = .ok b r ↔
      (b = false ∧ r = t ∧ Ends isExpLetter t) ∨
        b ∧ ∃ e : Exponent, t = e.text ++ r ∧ Ends Char.isDigit r := by
  unfold exponent
  rw [peek_bind]
  by_cases h : t.head? = some 'e' ∨ t.head? = some 'E'
  · rw [if_pos h, advance_bind, bind_eq_ok]
    simp only [digits_require]
    constructor
    · rintro ⟨_, t₁, hs, rfl, ds, rfl, hr⟩
      refine .inr ⟨rfl, ?_⟩
      obtain ⟨up, hup⟩ : ∃ up : Bool, t = (if up then 'E' else 'e') :: t.drop 1 := by
        rcases h with h | h
        · obtain ⟨t, rfl⟩ := head?_eq_some_iff.mp h
          exact ⟨false, rfl⟩
        · obtain ⟨t, rfl⟩ := head?_eq_some_iff.mp h
          exact ⟨true, rfl⟩
      rcases skipOne_eq_ok.mp hs with ⟨c, hc, ht⟩ | ⟨ht, -⟩
      · have hc : c = '+' ∨ c = '-' := by simpa using hc
        rcases hc with rfl | rfl
        · exact ⟨⟨up, some false, ds⟩, by rw [hup, ht]; rfl, hr⟩
        · exact ⟨⟨up, some true, ds⟩, by rw [hup, ht]; rfl, hr⟩
      · exact ⟨⟨up, none, ds⟩, by rw [hup, ht]; rfl, hr⟩
    · rintro (⟨rfl, rfl, ht⟩ | ⟨rfl, e, rfl, hr⟩)
      · rcases h with h | h
        · exact absurd (ht _ h) (by decide)
        · exact absurd (ht _ h) (by decide)
      · refine ⟨(), _, skipOne_eq_ok.mpr ?_, rfl, e.digits, rfl, hr⟩
        obtain ⟨up, sign, ds⟩ := e
        cases sign with
        | none =>
          refine .inr ⟨rfl, fun c hc => ?_⟩
          have hd : c.isDigit := ds.isDigit_head (r := r) hc
          have hs : c ≠ '+' ∧ c ≠ '-' := by
            constructor <;> rintro rfl <;> exact absurd hd (by decide)
          simp [hs]
        | some neg => exact .inl ⟨if neg then '-' else '+', by cases neg <;> simp, rfl⟩
  · rw [if_neg h, pure_eq_ok]
    constructor
    · rintro ⟨rfl, rfl⟩
      refine .inl ⟨rfl, rfl, fun c hc => ?_⟩
      have hne : c ≠ 'e' ∧ c ≠ 'E' := by
        constructor <;> rintro rfl
        · exact h (.inl hc)
        · exact h (.inr hc)
      simp [isExpLetter, hne]
    · rintro (⟨rfl, rfl, -⟩ | ⟨rfl, e, rfl, -⟩)
      · exact ⟨rfl, rfl⟩
      · cases hup : e.upper <;> simp [Exponent.text, hup] at h

/-! ## Numbers -/

theorem fitsInt64_integer {n : NumberToken} (hn : n.int.chars.length ≤ 18) :
    FitsInt64 n.integer := by
  have h := ofDigitChars_lt n.int.isDigit 0
  have h : Nat.ofDigitChars 10 n.int.chars 0 < 10 ^ 18 :=
    (h.trans_eq (by simp)).trans_le (Nat.pow_le_pow_right (by decide) hn)
  unfold FitsInt64 NumberToken.integer
  split <;> omega

theorem intNumber_eq_ok {n : NumberToken} (hn : n.isInteger) :
    intNumber start n.int.chars.length n.text r = .ok v r' ↔
      n.Admitted ∧ v = .number n.value ∧ r' = r := by
  have hadm : n.Admitted ↔ n.int.chars.length ≤ 4300 := by
    rw [NumberToken.Admitted, if_pos hn]
  have hval : n.value = .fromBigint n.integer := by rw [NumberToken.value, if_pos hn]
  rw [hadm, hval, intNumber, n.parseInt_text hn]
  by_cases h18 : n.int.chars.length ≤ 18
  · have hfits := fitsInt64_integer h18
    have h4300 : n.int.chars.length ≤ 4300 := by omega
    simp [h18, hfits, h4300, Number.fromBigint, eq_comm]
  · by_cases hmax : maxIntDigits < n.int.chars.length
    · have h4300 : ¬n.int.chars.length ≤ 4300 := by
        unfold maxIntDigits at hmax
        omega
      simp [h18, hmax, h4300]
    · have h4300 : n.int.chars.length ≤ 4300 := by
        unfold maxIntDigits at hmax
        omega
      simp [h18, hmax, h4300, eq_comm]

theorem floatNumber_eq_ok {n : NumberToken} (hn : n.isInteger = false) :
    floatNumber start n.text r = .ok v r' ↔ n.Admitted ∧ v = .number n.value ∧ r' = r := by
  have hadm : n.Admitted ↔ n.float.isFinite := by
    rw [NumberToken.Admitted, hn, if_neg Bool.false_ne_true]
  have hval : n.value = .float n.float := by
    rw [NumberToken.value, hn, if_neg Bool.false_ne_true]
  rw [hadm, hval, floatNumber, n.parseF64_text]
  by_cases h : n.float.isFinite = true <;> simp [h, eq_comm]

/-- The text `r` does not go on with what the number could still be written with. -/
def Stops (n : NumberToken) (r : Text) : Prop :=
  Ends Char.isDigit r ∧ (n.exp = none → Ends isExpLetter r) ∧
    (n.isInteger = true → Ends (· == '.') r)

theorem skipMinus_eq_ok {u : Unit} :
    skipOne ['-'] t = .ok u r ↔
      ∃ neg : Bool, t = (if neg then ['-'] else []) ++ r ∧ (neg = false → Ends (· == '-') r) := by
  rw [skipOne_eq_ok]
  constructor
  · rintro (⟨c, hc, rfl⟩ | ⟨rfl, ht⟩)
    · obtain rfl : c = '-' := by simpa using hc
      exact ⟨true, rfl, nofun⟩
    · exact ⟨false, rfl, fun _ c hc => by simpa using ht c hc⟩
  · rintro ⟨neg, rfl, hr⟩
    cases neg with
    | true => exact .inl ⟨'-', by simp, rfl⟩
    | false => exact .inr ⟨rfl, fun c hc => by simpa using hr rfl c hc⟩

theorem fraction_eq_ok' :
    fraction t = .ok b r ↔
      ∃ f : Option Digits, b = f.isSome ∧ t = f.elim [] (fun f => '.' :: f.chars) ++ r ∧
        (f = none → Ends (· == '.') r) ∧ (f.isSome = true → Ends Char.isDigit r) := by
  rw [fraction_eq_ok]
  constructor
  · rintro (⟨rfl, rfl, hr⟩ | ⟨rfl, ds, rfl, hr⟩)
    · exact ⟨none, rfl, rfl, fun _ => hr, nofun⟩
    · exact ⟨some ds, rfl, rfl, nofun, fun _ => hr⟩
  · rintro ⟨f, rfl, rfl, h₁, h₂⟩
    cases f with
    | none => exact .inl ⟨rfl, rfl, h₁ rfl⟩
    | some ds => exact .inr ⟨rfl, ds, rfl, h₂ rfl⟩

theorem exponent_eq_ok' :
    exponent t = .ok b r ↔
      ∃ e : Option Exponent, b = e.isSome ∧ t = e.elim [] Exponent.text ++ r ∧
        (e = none → Ends isExpLetter r) ∧ (e.isSome = true → Ends Char.isDigit r) := by
  rw [exponent_eq_ok]
  constructor
  · rintro (⟨rfl, rfl, hr⟩ | ⟨rfl, e, rfl, hr⟩)
    · exact ⟨none, rfl, rfl, fun _ => hr, nofun⟩
    · exact ⟨some e, rfl, rfl, nofun, fun _ => hr⟩
  · rintro ⟨e, rfl, rfl, h₁, h₂⟩
    cases e with
    | none => exact .inl ⟨rfl, rfl, h₁ rfl⟩
    | some e => exact .inr ⟨rfl, e, rfl, h₂ rfl⟩

theorem noLeadingZero_bind_eq_ok {β : Type} {i : Text} {f : Unit → Scan β} {b : β} :
    (noLeadingZero i n >>= f) t = .ok b r ↔
      (i.head? = some '0' → n ≤ 1) ∧ f () t = .ok b r := by
  rw [bind_eq_ok]
  by_cases h : 1 < n ∧ i.head? = some '0'
  · have h' : ¬(i.head? = some '0' → n ≤ 1) := fun h' => absurd (h' h.2) (by omega)
    simp [noLeadingZero, h]
  · have h' : i.head? = some '0' → n ≤ 1 := fun h₀ => by
      by_contra hn
      exact h ⟨by omega, h₀⟩
    simp only [noLeadingZero, if_neg h, EStateM.Result.ok.injEq, true_and]
    constructor
    · rintro ⟨_, _, rfl, hf⟩
      exact ⟨h', hf⟩
    · rintro ⟨-, hf⟩
      exact ⟨(), t, rfl, hf⟩

theorem token_eq_ok {n : NumberToken} :
    (if n.frac.isSome || n.exp.isSome then floatNumber start n.text
      else intNumber start n.int.chars.length n.text) r = .ok v r' ↔
      n.Admitted ∧ v = .number n.value ∧ r' = r := by
  have hflag : (n.frac.isSome || n.exp.isSome) = !n.isInteger := by
    unfold NumberToken.isInteger
    cases n.frac <;> cases n.exp <;> rfl
  rw [hflag]
  cases hn : n.isInteger with
  | true => exact intNumber_eq_ok hn
  | false => exact floatNumber_eq_ok hn

theorem ends_fraction {f : Option Digits} (h : f = none → Ends Char.isDigit r) :
    Ends Char.isDigit (f.elim [] (fun f => '.' :: f.chars) ++ r) := by
  cases f with
  | none => exact h rfl
  | some f => exact ends_cons.mpr rfl

theorem ends_exponent {e : Option Exponent} (he : p 'e' = false) (hE : p 'E' = false)
    (h : e = none → Ends p r) : Ends p (e.elim [] Exponent.text ++ r) := by
  cases e with
  | none => exact h rfl
  | some e => cases hup : e.upper <;> simp [Exponent.text, hup, he, hE]

theorem number_eq_ok :
    number t = .ok v r ↔
      ∃ n : NumberToken, t = n.text ++ r ∧ Stops n r ∧ n.Admitted ∧ v = .number n.value := by
  have htake (a b : Text) : (a ++ b).take ((a ++ b).length - b.length) = a := by simp
  unfold number
  rw [get_bind, bind_eq_ok]
  constructor
  · rintro ⟨_, t₁, hsign, h⟩
    rw [get_bind, bind_eq_ok] at h
    obtain ⟨k, t₂, hdigits, h⟩ := h
    rw [require_bind_eq_ok, noLeadingZero_bind_eq_ok, bind_eq_ok] at h
    obtain ⟨hk, hzero, fb, t₃, hfrac, h⟩ := h
    rw [bind_eq_ok] at h
    obtain ⟨eb, t₄, hexp, h⟩ := h
    rw [get_bind] at h
    obtain ⟨neg, rfl, -⟩ := skipMinus_eq_ok.mp hsign
    obtain ⟨ds, rfl, hds, rfl⟩ := digits_ne_zero.mp ⟨hdigits, of_decide_eq_true hk⟩
    obtain ⟨f, rfl, rfl, hf, hf'⟩ := fraction_eq_ok'.mp hfrac
    obtain ⟨e, rfl, rfl, he, he'⟩ := exponent_eq_ok'.mp hexp
    have hlead : ds.chars.head? = some '0' → ds.chars.length = 1 := by
      intro h₀
      have hle := hzero (by rw [head?_append, h₀]; rfl)
      have hne : ds.chars.length ≠ 0 := fun h => ds.ne_nil (length_eq_zero_iff.mp h)
      omega
    let n : NumberToken := ⟨neg, ds, hlead, f, e⟩
    have htext : (if neg then ['-'] else []) ++ (ds.chars ++
        (f.elim [] (fun f => '.' :: f.chars) ++ (e.elim [] Exponent.text ++ t₄))) =
        n.text ++ t₄ := by
      simp only [NumberToken.text, append_assoc]
      rfl
    rw [htext, htake] at h
    obtain ⟨hadm, rfl, rfl⟩ := token_eq_ok (n := n).mp h
    refine ⟨n, htext, ⟨?_, he, ?_⟩, hadm, rfl⟩
    · cases e with
      | some e => exact he' rfl
      | none =>
        cases f with
        | some f => exact hf' rfl
        | none => exact hds
    · intro hint
      have hint : f = none ∧ e = none := by simpa [NumberToken.isInteger, n] using hint
      obtain ⟨rfl, rfl⟩ := hint
      exact hf rfl
  · rintro ⟨n, rfl, ⟨hr, hre, hri⟩, hadm, rfl⟩
    have hexp : Ends Char.isDigit (n.exp.elim [] Exponent.text ++ r) :=
      ends_exponent rfl rfl fun _ => hr
    have hsign : skipOne ['-'] (n.text ++ r) = .ok () (n.int.chars ++
        (n.frac.elim [] (fun f => '.' :: f.chars) ++ (n.exp.elim [] Exponent.text ++ r))) := by
      refine skipMinus_eq_ok.mpr ⟨n.neg, ?_, ?_⟩
      · simp only [NumberToken.text, append_assoc]
        rfl
      · intro _ c hc
        have hne : c ≠ '-' := by
          rintro rfl
          exact absurd (n.int.isDigit_head hc) (by decide)
        simpa using hne
    refine ⟨(), _, hsign, ?_⟩
    obtain ⟨hdigits, hk⟩ := digits_ne_zero.mpr ⟨n.int, rfl, ends_fraction fun _ => hexp, rfl⟩
    rw [get_bind, bind_eq_ok]
    refine ⟨_, _, hdigits, ?_⟩
    rw [require_bind_eq_ok, noLeadingZero_bind_eq_ok, bind_eq_ok]
    refine ⟨decide_eq_true hk, ?_, _, _, fraction_eq_ok'.mpr ⟨n.frac, rfl, rfl, ?_, ?_⟩, ?_⟩
    · intro h₀
      obtain ⟨d, cs, hds⟩ := exists_cons_of_ne_nil n.int.ne_nil
      rw [hds] at h₀
      exact (n.noLeadingZero (by rw [hds]; exact h₀)).le
    · intro hf
      refine ends_exponent rfl rfl fun he => hri ?_
      simp [NumberToken.isInteger, hf, he]
    · exact fun _ => hexp
    · rw [bind_eq_ok]
      refine ⟨_, _, exponent_eq_ok'.mpr ⟨n.exp, rfl, rfl, hre, fun _ => hr⟩, ?_⟩
      rw [get_bind, htake]
      exact token_eq_ok.mpr ⟨hadm, rfl, rfl⟩

/-! ## Texts -/

theorem isHexDigit_iff :
    isHexDigit c ↔
      c.isDigit ∨ ('a' ≤ c ∧ c ≤ 'f') ∨ ('A' ≤ c ∧ c ≤ 'F') := by
  simp [isHexDigit, or_assoc]

theorem four_le_byteLength (a b c d : Char) (r : Text) :
    4 ≤ byteLength (a :: b :: c :: d :: r) := by
  have h := a.utf8Size_pos
  have h := b.utf8Size_pos
  have h := c.utf8Size_pos
  have h := d.utf8Size_pos
  simp only [byteLength, map_cons, sum_cons]
  omega

theorem hex4_eq_ok :
    hex4 t = .ok n r ↔ ∃ u : Unit16, t = u.text ++ r ∧ n = u.value := by
  constructor
  · intro h
    unfold hex4 at h
    split_ifs at h with hlen
    split at h
    · rename_i a b c d r'
      split_ifs at h with hhex
      simp only [Bool.and_eq_true, isHexDigit_iff] at hhex
      obtain ⟨⟨⟨ha, hb⟩, hc⟩, hd⟩ := hhex
      cases h
      exact ⟨⟨⟨a, ha⟩, ⟨b, hb⟩, ⟨c, hc⟩, ⟨d, hd⟩⟩, rfl, rfl⟩
    · cases h
  · rintro ⟨u, rfl, rfl⟩
    have hlen := four_le_byteLength u.a.char u.b.char u.c.char u.d.char r
    have hhex := And.intro (And.intro (And.intro (isHexDigit_iff.mpr u.a.hex)
      (isHexDigit_iff.mpr u.b.hex)) (isHexDigit_iff.mpr u.c.hex)) (isHexDigit_iff.mpr u.d.hex)
    rw [← Bool.and_eq_true, ← Bool.and_eq_true, ← Bool.and_eq_true] at hhex
    change hex4 (u.a.char :: u.b.char :: u.c.char :: u.d.char :: r) = _
    rw [hex4, if_neg (by omega), if_pos hhex]
    rfl

theorem fromU32_eq_ok {cp : Nat} (hcp : cp.isValidChar) :
    fromU32 cp t = .ok c r ↔ c = Char.ofNat cp ∧ r = t := by
  simp [fromU32, hcp, eq_comm]

theorem hexDigit_value_lt (d : HexDigit) : d.value < 16 := by
  obtain ⟨c, hc⟩ := d
  have h₀ : '0'.toNat = 48 := rfl
  have ha : 'a'.toNat = 97 := rfl
  have hA : 'A'.toNat = 65 := rfl
  have hdigit : c.isDigit = true → c.toNat ≤ 57 := fun h => (Char.isDigit_iff_toNat.mp h).2
  have hf : c ≤ 'f' → c.toNat ≤ 102 := fun h => h
  have hF : c ≤ 'F' → c.toNat ≤ 70 := fun h => h
  unfold HexDigit.value
  dsimp only
  split_ifs with hd ha
  · have := hdigit hd
    omega
  · rcases hc with hc | ⟨-, hc⟩ | ⟨-, hc⟩
    · exact absurd hc hd
    · have := hf hc
      omega
    · have := hF hc
      omega
  · rcases hc with hc | ⟨hc, -⟩ | ⟨-, hc⟩
    · exact absurd hc hd
    · exact absurd hc ha
    · have := hF hc
      omega

theorem unit16_value_lt (u : Unit16) : u.value < 65536 := by
  have ha := hexDigit_value_lt u.a
  have hb := hexDigit_value_lt u.b
  have hc := hexDigit_value_lt u.c
  have hd := hexDigit_value_lt u.d
  unfold Unit16.value
  omega

theorem isValidChar_of_not_surrogate (hl : ¬u.IsLow) (hh : ¬u.IsHigh) : u.value.isValidChar := by
  have h := unit16_value_lt u
  unfold Unit16.IsLow Unit16.IsHigh at *
  unfold Nat.isValidChar
  omega

theorem isValidChar_pair (hu : u.IsHigh) (hw : w.IsLow) :
    (0x10000 + (u.value - 0xd800) * 1024 + (w.value - 0xdc00)).isValidChar := by
  unfold Unit16.IsLow Unit16.IsHigh at *
  unfold Nat.isValidChar
  omega

theorem isHigh_iff : isHigh u.value ↔ u.IsHigh := by
  simp [isHigh, Unit16.IsHigh]

theorem isLow_iff : isLow u.value ↔ u.IsLow := by
  simp [isLow, Unit16.IsLow]

theorem lowSurrogate_eq_ok (hu : u.IsHigh) :
    lowSurrogate u.value t = .ok c r ↔
      ∃ w : Unit16, t = w.text ++ r ∧ w.IsLow ∧ c = u.pair w := by
  unfold lowSurrogate
  rw [bind_eq_ok]
  simp only [hex4_eq_ok, require_bind_eq_ok]
  constructor
  · rintro ⟨_, _, ⟨w, rfl, rfl⟩, hw, h⟩
    obtain ⟨hc, rfl⟩ := (fromU32_eq_ok (isValidChar_pair hu (isLow_iff.mp hw))).mp h
    exact ⟨w, rfl, isLow_iff.mp hw, hc⟩
  · rintro ⟨w, rfl, hw, hc⟩
    exact ⟨_, _, ⟨w, rfl, rfl⟩, isLow_iff.mpr hw,
      (fromU32_eq_ok (isValidChar_pair hu hw)).mpr ⟨hc, rfl⟩⟩

theorem unicodeEscape_eq_ok :
    unicodeEscape t = .ok c r ↔
      (∃ u : Unit16, t = u.text ++ r ∧ ¬u.IsLow ∧ ¬u.IsHigh ∧ c = Char.ofNat u.value) ∨
        ∃ u w : Unit16, t = u.text ++ '\\' :: 'u' :: w.text ++ r ∧ u.IsHigh ∧ w.IsLow ∧
          c = u.pair w := by
  unfold unicodeEscape
  rw [bind_eq_ok]
  constructor
  · rintro ⟨_, t₁, hhex, h⟩
    obtain ⟨u, rfl, rfl⟩ := hex4_eq_ok.mp hhex
    split_ifs at h with hh hl
    · rw [get_bind, require_bind_eq_ok, advance_bind] at h
      obtain ⟨hpre, h⟩ := h
      obtain ⟨t₂, rfl⟩ := startsWith_iff.mp hpre
      obtain ⟨w, ht, hw, hc⟩ := (lowSurrogate_eq_ok (isHigh_iff.mp hh)).mp h
      have ht : t₂ = w.text ++ r := ht
      exact .inr ⟨u, w, by simp [ht], isHigh_iff.mp hh, hw, hc⟩
    · cases h
    · have hl := mt isLow_iff.mpr hl
      have hh := mt isHigh_iff.mpr hh
      obtain ⟨rfl, rfl⟩ := (fromU32_eq_ok (isValidChar_of_not_surrogate hl hh)).mp h
      exact .inl ⟨u, rfl, hl, hh, rfl⟩
  · rintro (⟨u, rfl, hl, hh, rfl⟩ | ⟨u, w, rfl, hu, hw, hc⟩)
    · refine ⟨_, _, hex4_eq_ok.mpr ⟨u, rfl, rfl⟩, ?_⟩
      rw [if_neg (mt isHigh_iff.mp hh), if_neg (mt isLow_iff.mp hl)]
      exact (fromU32_eq_ok (isValidChar_of_not_surrogate hl hh)).mpr ⟨rfl, rfl⟩
    · refine ⟨_, _, hex4_eq_ok.mpr ⟨u, append_assoc .., rfl⟩, ?_⟩
      rw [if_pos (isHigh_iff.mpr hu), get_bind, require_bind_eq_ok, advance_bind]
      exact ⟨rfl, (lowSurrogate_eq_ok hu).mpr ⟨w, rfl, hw, hc⟩⟩

theorem shortEscape_eq_some {x : Char} :
    shortEscape c = some x ↔ ∃ e : Escape, c = e.letter ∧ x = e.char := by
  constructor
  · intro h
    unfold shortEscape at h
    split_ifs at h <;> cases h <;> subst c
    exacts [⟨.quote, rfl, rfl⟩, ⟨.backslash, rfl, rfl⟩, ⟨.slash, rfl, rfl⟩, ⟨.b, rfl, rfl⟩,
      ⟨.f, rfl, rfl⟩, ⟨.n, rfl, rfl⟩, ⟨.r, rfl, rfl⟩, ⟨.t, rfl, rfl⟩]
  · rintro ⟨e, rfl, rfl⟩
    cases e <;> rfl

theorem escape_eq_ok :
    escape t = .ok c r ↔
      (∃ e : Escape, t = e.letter :: r ∧ c = e.char) ∨
        ∃ t', t = 'u' :: t' ∧ unicodeEscape t' = .ok c r := by
  constructor
  · intro h
    cases t with
    | nil => cases h
    | cons x t =>
      by_cases hx : x = 'u'
      · subst hx
        exact .inr ⟨t, rfl, h⟩
      · cases hs : shortEscape x with
        | none => simp [escape, hx, hs] at h
        | some y =>
          obtain ⟨rfl, rfl⟩ : y = c ∧ t = r := by simpa [escape, hx, hs] using h
          obtain ⟨e, rfl, rfl⟩ := shortEscape_eq_some.mp hs
          exact .inl ⟨e, rfl, rfl⟩
  · rintro (⟨e, rfl, rfl⟩ | ⟨t', rfl, h⟩)
    · have hu : e.letter ≠ 'u' := by cases e <;> decide
      simp only [escape, if_neg hu, shortEscape_eq_some.mpr ⟨e, rfl, rfl⟩]
    · exact h

example : shortEscape 'n' = some '\n' := by decide +kernel

theorem escape_letter (e : Escape) (t : Text) : escape (e.letter :: t) = .ok e.char t :=
  escape_eq_ok.mpr (.inl ⟨e, rfl, rfl⟩)

theorem escape_unicode (hl : ¬u.IsLow) (hh : ¬u.IsHigh) (t : Text) :
    escape ('u' :: (u.text ++ t)) = .ok (Char.ofNat u.value) t :=
  escape_eq_ok.mpr (.inr ⟨_, rfl, unicodeEscape_eq_ok.mpr (.inl ⟨u, rfl, hl, hh, rfl⟩)⟩)

theorem escape_pair (hu : u.IsHigh) (hw : w.IsLow) (t : Text) :
    escape ('u' :: (u.text ++ '\\' :: 'u' :: w.text ++ t)) = .ok (u.pair w) t :=
  escape_eq_ok.mpr (.inr ⟨_, rfl, unicodeEscape_eq_ok.mpr (.inr ⟨u, w, rfl, hu, hw, rfl⟩)⟩)

theorem isUnescaped_iff :
    isUnescaped c ↔ 0x20 ≤ c.toNat ∧ c ≠ '"' ∧ c ≠ '\\' := by
  simp [isUnescaped]
  tauto

theorem exists_chars {run : Text} (hrun : ∀ c ∈ run, isUnescaped c)
    (hs : StrItem.decode s = some x) :
    ∃ s', StrItem.textAll s' = run ++ StrItem.textAll s ∧
      StrItem.decode s' = some (run ++ x) := by
  induction run with
  | nil => exact ⟨s, rfl, hs⟩
  | cons c run ih =>
    obtain ⟨s', ht, hd⟩ := ih fun c hc => hrun c (mem_cons_of_mem _ hc)
    have hc := isUnescaped_iff.mp (hrun c (mem_cons_self ..))
    refine ⟨.char c hc :: s', ?_, ?_⟩
    · change c :: StrItem.textAll s' = _
      rw [ht]
      rfl
    · simp [StrItem.decode, hd]

theorem exists_escape (h : escape t = .ok c r) (ht : r = StrItem.textAll s ++ r')
    (hs : StrItem.decode s = some x) :
    ∃ s', '\\' :: t = StrItem.textAll s' ++ r' ∧ StrItem.decode s' = some (c :: x) := by
  rcases escape_eq_ok.mp h with ⟨e, rfl, rfl⟩ | ⟨t', rfl, hu⟩
  · refine ⟨.escape e :: s, ?_, by simp [StrItem.decode, hs]⟩
    rw [ht]
    rfl
  · rcases unicodeEscape_eq_ok.mp hu with ⟨u, rfl, hl, hh, rfl⟩ | ⟨u, w, rfl, hu, hw, hc⟩
    · refine ⟨.unicode u :: s, ?_, by rw [StrItem.decode_unicode hl hh, hs]; rfl⟩
      rw [ht]
      rfl
    · refine ⟨.unicode u :: .unicode w :: s, ?_, by rw [StrItem.decode_pair hu hw, hs, hc]; rfl⟩
      rw [ht]
      rfl

theorem stringLoop_sound {y : Text} (h : stringLoop fuel out t = .ok y r) :
    ∃ s x, t = StrItem.textAll s ++ '"' :: r ∧ StrItem.decode s = some x ∧ y = out ++ x := by
  induction fuel generalizing out t with
  | zero => cases h
  | succ fuel ih =>
    unfold stringLoop at h
    rw [bind_eq_ok] at h
    obtain ⟨run, t₁, hr, h⟩ := h
    obtain ⟨rfl, hrun, -⟩ := takeRun_eq_ok.mp hr
    clear hr
    rw [peek_bind] at h
    cases t₁ with
    | nil => cases h
    | cons c t₁ =>
      simp only [head?_cons] at h
      split_ifs at h with hq hb
      · subst hq
        rw [advance_bind, pure_eq_ok] at h
        obtain ⟨rfl, rfl⟩ := h
        obtain ⟨s, ht, hd⟩ := exists_chars hrun (s := []) (x := []) rfl
        exact ⟨s, run, by rw [ht]; simp [StrItem.textAll], by simpa using hd, rfl⟩
      · subst hb
        rw [advance_bind, bind_eq_ok] at h
        obtain ⟨x, t₂, hesc, h⟩ := h
        obtain ⟨s, y', ht, hd, rfl⟩ := ih h
        obtain ⟨s₁, ht₁, hd₁⟩ := exists_escape hesc ht hd
        obtain ⟨s₂, ht₂, hd₂⟩ := exists_chars hrun hd₁
        refine ⟨s₂, _, ?_, hd₂, by simp⟩
        rw [ht₂, append_assoc, ← ht₁]
        rfl
      · cases h

theorem stringLoop_char (hc : isUnescaped c) :
    stringLoop (fuel + 1) out (c :: t) = stringLoop (fuel + 1) (out ++ [c]) t := by
  have hrun (f : Text → Scan Text) :
      (takeRun isUnescaped >>= f) (c :: t) =
        f (c :: t.takeWhile isUnescaped) (t.dropWhile isUnescaped) := by
    change f (List.takeWhile isUnescaped (c :: t)) (List.dropWhile isUnescaped (c :: t)) = _
    rw [takeWhile_cons_of_pos hc, dropWhile_cons_of_pos hc]
  have hrun' (f : Text → Scan Text) :
      (takeRun isUnescaped >>= f) t =
        f (t.takeWhile isUnescaped) (t.dropWhile isUnescaped) := rfl
  rw [stringLoop, stringLoop, hrun, hrun', peek_bind, peek_bind]
  simp only [append_assoc, singleton_append]

theorem takeRun_bind_stop (hc : isUnescaped c = false) (f : Text → Scan Text) (t : Text) :
    (takeRun isUnescaped >>= f) (c :: t) = f [] (c :: t) := by
  change f (List.takeWhile isUnescaped (c :: t)) (List.dropWhile isUnescaped (c :: t)) = _
  rw [takeWhile_cons_of_neg (by simp [hc]), dropWhile_cons_of_neg (by simp [hc])]

theorem stringLoop_escape (h : escape t = .ok c r) :
    stringLoop (fuel + 1) out ('\\' :: t) = stringLoop fuel (out ++ [c]) r := by
  rw [stringLoop, takeRun_bind_stop rfl, peek_bind, append_nil]
  exact bind_of_eq_ok h

theorem stringLoop_quote (fuel : Nat) (out t : Text) :
    stringLoop (fuel + 1) out ('"' :: t) = .ok out t := by
  rw [stringLoop, takeRun_bind_stop rfl, peek_bind, append_nil]
  rfl

theorem textAll_cons (i : StrItem) (s : List StrItem) :
    StrItem.textAll (i :: s) = i.text ++ StrItem.textAll s := rfl

theorem stringLoop_complete (hs : StrItem.decode s = some x) (hfuel : s.length < fuel)
    (out r : Text) : stringLoop fuel out (StrItem.textAll s ++ '"' :: r) = .ok (out ++ x) r := by
  obtain ⟨fuel, rfl⟩ : ∃ k, fuel = k + 1 := ⟨fuel - 1, by omega⟩
  induction s using StrItem.decode.induct generalizing x fuel out with
  | case1 =>
    cases hs
    rw [append_nil]
    exact stringLoop_quote fuel out r
  | case2 c hc s ih =>
    obtain ⟨x, hx, rfl⟩ := Option.map_eq_some_iff.mp hs
    have h := ih hx (out ++ [c]) fuel (by simp at hfuel; omega)
    rw [textAll_cons, append_assoc]
    refine (stringLoop_char (isUnescaped_iff.mpr hc)).trans (h.trans ?_)
    rw [append_assoc]
    rfl
  | case3 e s ih =>
    obtain ⟨x, hx, rfl⟩ := Option.map_eq_some_iff.mp hs
    obtain ⟨fuel, rfl⟩ : ∃ k, fuel = k + 1 := ⟨fuel - 1, by simp at hfuel; omega⟩
    have h := ih hx (out ++ [e.char]) fuel (by simp at hfuel; omega)
    refine (stringLoop_escape (escape_letter e _)).trans (h.trans ?_)
    rw [append_assoc]
    rfl
  | case4 u s hl => rw [StrItem.decode.eq_def] at hs; simp [hl] at hs
  | case5 u hl hh w s hw ih =>
    rw [StrItem.decode_pair hh hw] at hs
    obtain ⟨x, hx, rfl⟩ := Option.map_eq_some_iff.mp hs
    obtain ⟨fuel, rfl⟩ : ∃ k, fuel = k + 1 := ⟨fuel - 1, by simp at hfuel; omega⟩
    have h := ih hx (out ++ [u.pair w]) fuel (by simp at hfuel; omega)
    refine (stringLoop_escape (escape_pair hh hw _)).trans (h.trans ?_)
    rw [append_assoc]
    rfl
  | case6 u hl hh w s hw => rw [StrItem.decode.eq_def] at hs; simp [hl, hh, hw] at hs
  | case7 u s hl hh hs' => rw [StrItem.decode.eq_def] at hs; simp [hl, hh] at hs
  | case8 u s hl hh ih =>
    rw [StrItem.decode_unicode hl hh] at hs
    obtain ⟨x, hx, rfl⟩ := Option.map_eq_some_iff.mp hs
    obtain ⟨fuel, rfl⟩ : ∃ k, fuel = k + 1 := ⟨fuel - 1, by simp at hfuel; omega⟩
    have h := ih hx (out ++ [Char.ofNat u.value]) fuel (by simp at hfuel; omega)
    refine (stringLoop_escape (escape_unicode hl hh _)).trans (h.trans ?_)
    rw [append_assoc]
    rfl

theorem string_cons (c : Char) (t : Text) : string (c :: t) = stringLoop (t.length + 1) [] t := by
  change (if (t.dropWhile isUnescaped).head? = some '"' then
    EStateM.Result.ok (t.takeWhile isUnescaped) ((t.dropWhile isUnescaped).drop 1) else _) = _
  split_ifs with h
  · obtain ⟨r, hr⟩ := head?_eq_some_iff.mp h
    have hrun : takeRun isUnescaped t = .ok (t.takeWhile isUnescaped) ('"' :: r) := by
      rw [takeRun, hr]
    rw [stringLoop, bind_of_eq_ok hrun, peek_bind, hr]
    rfl
  · rfl

theorem length_le_textAll (s : List StrItem) : s.length ≤ (StrItem.textAll s).length := by
  induction s with
  | nil => exact Nat.le_refl 0
  | cons i s ih =>
    have hi : 1 ≤ i.text.length := by cases i <;> simp [StrItem.text]
    rw [textAll_cons, length_append, length_cons]
    omega

theorem string_eq_ok :
    string ('"' :: t) = .ok x r ↔
      ∃ s, t = StrItem.textAll s ++ '"' :: r ∧ StrItem.decode s = some x := by
  rw [string_cons]
  constructor
  · intro h
    obtain ⟨s, x, ht, hs, rfl⟩ := stringLoop_sound h
    exact ⟨s, ht, hs⟩
  · rintro ⟨s, rfl, hs⟩
    have hlen := length_le_textAll s
    refine stringLoop_complete hs ?_ [] r
    rw [length_append]
    omega

end Synsema.Json.Exact
