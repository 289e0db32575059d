import Synsema.Csv.Scan

/-!
# The reference reader

The reader that `scan` replaced, which the tests keep as its oracle: a pass that looks for a quote
without its end (`check_unclosed_quote`), and a state machine over the characters (`tokenize`).
`scan` reads what the two read, in one pass.
-/

namespace Synsema.Csv.Reference

open Text List Option

/-! ## The two passes -/

/-- A `while let` over the characters of a text, of which each step may look at the next one and
take it too. -/
def peekLoop {S : Type} (step : S → Char → Option Char → S × Bool) (s : S) : Text → S
  | [] => s
  | [c] => (step s c none).1
  | c :: d :: rest =>
    if (step s c (some d)).2 then peekLoop step (step s c (some d)).1 rest
    else peekLoop step (step s c (some d)).1 (d :: rest)

/-- The variables of `check_unclosed_quote`. -/
structure Check where
  line : Nat
  inQuotes : Bool
  quoteLine : Nat
  atFieldStart : Bool

/-- A character in `check_unclosed_quote`. -/
def Check.step (delim : Char) (σ : Check) (c : Char) (next : Option Char) : Check × Bool :=
  if σ.inQuotes then
    if c = '"' then
      if next = some '"' then (σ, true)
      else ({ σ with inQuotes := false, atFieldStart := false }, false)
    else if c = '\n' then ({ σ with line := σ.line + 1 }, false)
    else if c = '\r' ∧ next ≠ some '\n' then ({ σ with line := σ.line + 1 }, false)
    else (σ, false)
  else if c = '"' ∧ σ.atFieldStart then
    ({ σ with inQuotes := true, quoteLine := σ.line }, false)
  else if c = delim then ({ σ with atFieldStart := true }, false)
  else if c = '\n' ∨ c = '\r' then
    ({ σ with
      line := if ¬ (c = '\r' ∧ next = some '\n') then σ.line + 1 else σ.line
      atFieldStart := true }, false)
  else ({ σ with atFieldStart := false }, false)

/-- The end of `check_unclosed_quote`. -/
def Check.verdict (σ : Check) : Except Fault Unit :=
  if σ.inQuotes then .error (.unclosedQuote σ.quoteLine) else .ok ()

def checkUnclosedQuote (delim : Char) (t : Text) : Except Fault Unit :=
  (peekLoop (Check.step delim)
    { line := 1, inQuotes := false, quoteLine := 0, atFieldStart := true } t).verdict

/-- `Record`: its line and its fields, or none of a blank line. -/
abbrev Record := Nat × Option (List Field)

/-- The variables of `tokenize`. -/
structure Token where
  out : List Record
  line : Nat
  fields : List Field
  cur : Text
  quoted : Bool
  inQuotes : Bool
  fieldStarted : Bool
  recLine : Nat

/-- The field that ends here. -/
def Token.field (τ : Token) : Field := { text := τ.cur, quoted := τ.quoted }

/-- Was there anything in the record? -/
def Token.started (τ : Token) : Bool := τ.fieldStarted || !τ.cur.isEmpty

/-- A character in `tokenize`. -/
def Token.step (delim : Char) (τ : Token) (c : Char) (next : Option Char) : Token × Bool :=
  if τ.inQuotes then
    if c = '"' then
      if next = some '"' then ({ τ with cur := τ.cur ++ ['"'] }, true)
      else ({ τ with inQuotes := false }, false)
    else
      ({ τ with
        line := if c = '\n' ∨ c = '\r' ∧ next ≠ some '\n' then τ.line + 1 else τ.line
        cur := τ.cur ++ [c] }, false)
  else if c = delim then
    ({ τ with fields := τ.fields ++ [τ.field], cur := [], quoted := false, fieldStarted := true },
      false)
  else if c = '"' ∧ τ.cur.isEmpty ∧ ¬ τ.quoted then
    ({ τ with quoted := true, inQuotes := true, fieldStarted := true }, false)
  else if c = '\n' ∨ c = '\r' then
    ({ out := τ.out ++
        [(τ.recLine, if τ.started then some (τ.fields ++ [τ.field]) else none)]
       line := τ.line + 1
       fields := if τ.started then [] else τ.fields
       cur := if τ.started then [] else τ.cur
       quoted := false
       inQuotes := τ.inQuotes
       fieldStarted := false
       recLine := τ.line + 1 }, c = '\r' ∧ next = some '\n')
  else ({ τ with cur := τ.cur ++ [c], fieldStarted := true }, false)

/-- The end of the text in `tokenize`. -/
def Token.finish (τ : Token) : List Record :=
  if τ.started then τ.out ++ [(τ.recLine, some (τ.fields ++ [τ.field]))] else τ.out

/-- The variables at the start of a record. -/
def Token.fresh (out : List Record) (line : Nat) : Token :=
  { out, line, fields := [], cur := [], quoted := false, inQuotes := false, fieldStarted := false
    recLine := line }

def tokenize (delim : Char) (t : Text) : List Record :=
  (peekLoop (Token.step delim) (.fresh [] 1) t).finish

/-- The records without the blank lines. -/
def visible (records : List Record) : List (Nat × List Field) :=
  records.filterMap fun r => r.2.map fun fs => (r.1, fs)

/-- The reference: `check_unclosed_quote`, then `tokenize` without its blank lines. -/
def reference (delim : Char) (t : Text) : Except Fault (List (Nat × List Field)) :=
  (checkUnclosedQuote delim t).map fun _ => visible (tokenize delim t)

/-! ## Steps -/

variable {S : Type}

theorem peekLoop_cons (step : S → Char → Option Char → S × Bool) (s : S) (c : Char) (t : Text) :
    peekLoop step s (c :: t) =
      peekLoop step (step s c t.head?).1 (if (step s c t.head?).2 then t.tail else t) := by
  cases t with
  | nil =>
    rw [peekLoop]
    change _ = peekLoop step (step s c none).1 (if (step s c none).2 = true then [] else [])
    cases (step s c none).2 <;> rfl
  | cons d rest =>
    rw [peekLoop]
    exact (apply_ite (peekLoop step (step s c (some d)).1) _ _ _).symm

theorem peekLoop_one {step : S → Char → Option Char → S × Bool} {s s' : S} {c : Char} {t : Text}
    (h : step s c t.head? = (s', false)) : peekLoop step s (c :: t) = peekLoop step s' t := by
  rw [peekLoop_cons, h]
  rfl

section Steps

variable {delim : Char} {c : Char} {t : Text} {next : Option Char}

theorem eolAt_iff : eolAt (c :: t) ↔ c = '\n' ∨ c = '\r' ∧ t.head? ≠ some '\n' := by
  rw [eolAt.eq_def]
  split
  · rename_i h
    cases h
    exact ⟨fun _ => .inl rfl, fun _ => rfl⟩
  · rename_i h
    cases h
    rw [bne_iff_ne]
    exact ⟨fun h => .inr ⟨rfl, h⟩, fun h => h.elim (fun h => absurd h (by decide)) And.right⟩
  · rename_i hn hr
    constructor
    · nofun
    · rintro (rfl | ⟨rfl, -⟩)
      · exact absurd rfl (hn t)
      · exact absurd rfl (hr t)

variable {σ : Check} {τ : Token} {r : Field × Nat × Text}

theorem check_quoted (hσ : σ.inQuotes) (hc : c ≠ '"') :
    peekLoop (Check.step delim) σ (c :: t) = peekLoop (Check.step delim)
      { σ with line := if eolAt (c :: t) then σ.line + 1 else σ.line } t := by
  apply peekLoop_one
  rw [Check.step, if_pos hσ, if_neg hc]
  by_cases hn : c = '\n'
  · rw [if_pos hn, if_pos (eolAt_iff.mpr (.inl hn))]
  rw [if_neg hn]
  by_cases hr : c = '\r' ∧ t.head? ≠ some '\n'
  · rw [if_pos hr, if_pos (eolAt_iff.mpr (.inr hr))]
  · rw [if_neg hr, if_neg fun h => (eolAt_iff.mp h).elim hn hr]

theorem token_quoted (hτ : τ.inQuotes) (hc : c ≠ '"') :
    peekLoop (Token.step delim) τ (c :: t) = peekLoop (Token.step delim)
      { τ with line := if eolAt (c :: t) then τ.line + 1 else τ.line, cur := τ.cur ++ [c] } t := by
  apply peekLoop_one
  rw [Token.step, if_pos hτ, if_neg hc]
  congr 2
  exact if_congr eolAt_iff.symm rfl rfl

theorem check_pair (hσ : σ.inQuotes) :
    peekLoop (Check.step delim) σ ('"' :: '"' :: t) = peekLoop (Check.step delim) σ t := by
  rw [peekLoop_cons, Check.step, if_pos hσ, if_pos rfl, head?_cons, if_pos rfl]
  rfl

theorem token_pair (hτ : τ.inQuotes) :
    peekLoop (Token.step delim) τ ('"' :: '"' :: t) =
      peekLoop (Token.step delim) { τ with cur := τ.cur ++ ['"'] } t := by
  rw [peekLoop_cons, Token.step, if_pos hτ, if_pos rfl, head?_cons, if_pos rfl]
  rfl

theorem check_close (hσ : σ.inQuotes) (ht : t.head? ≠ some '"') :
    peekLoop (Check.step delim) σ ('"' :: t) =
      peekLoop (Check.step delim) { σ with inQuotes := false, atFieldStart := false } t := by
  apply peekLoop_one
  rw [Check.step, if_pos hσ, if_pos rfl, if_neg ht]

theorem token_close (hτ : τ.inQuotes) (ht : t.head? ≠ some '"') :
    peekLoop (Token.step delim) τ ('"' :: t) =
      peekLoop (Token.step delim) { τ with inQuotes := false } t := by
  apply peekLoop_one
  rw [Token.step, if_pos hτ, if_pos rfl, if_neg ht]

theorem run_quoted {line line' : Nat} {body rest : Text}
    (h : quotedBody line t = some (body, line', rest)) :
    (∀ σ : Check, σ.inQuotes → σ.line = line →
      peekLoop (Check.step delim) σ t = peekLoop (Check.step delim)
        { σ with line := line', inQuotes := false, atFieldStart := false } rest) ∧
    ∀ τ : Token, τ.inQuotes → τ.line = line →
      peekLoop (Token.step delim) τ t = peekLoop (Token.step delim)
        { τ with line := line', cur := τ.cur ++ body, inQuotes := false } rest := by
  induction line, t using quotedBody.induct generalizing body with
  | case1 => cases h
  | case2 line t ih =>
    rw [quotedBody] at h
    obtain ⟨⟨body, l, r⟩, hr, heq⟩ := map_eq_some_iff.mp h
    cases heq
    obtain ⟨hcheck, htoken⟩ := ih hr
    constructor
    · intro σ hσ hline
      rw [check_pair hσ, hcheck σ hσ hline]
    · intro τ hτ hline
      rw [token_pair hτ, htoken { τ with cur := τ.cur ++ ['"'] } hτ hline]
      dsimp only
      rw [append_assoc]
      rfl
  | case3 line t hne =>
    have hhead : t.head? ≠ some '"' := by
      intro hhead
      obtain ⟨t', rfl⟩ := head?_eq_some_iff.mp hhead
      exact hne t' rfl
    rw [quotedBody] at h
    · cases h
      constructor
      · rintro σ hσ rfl
        exact check_close hσ hhead
      · rintro τ hτ rfl
        rw [token_close hτ hhead, append_nil]
    · exact hne
  | case4 line c t hquote hpair ih =>
    have hc : c ≠ '"' := hpair
    rw [quotedBody] at h
    · obtain ⟨⟨body, l, r⟩, hr, heq⟩ := map_eq_some_iff.mp h
      cases heq
      obtain ⟨hcheck, htoken⟩ := ih hr
      constructor
      · rintro σ hσ rfl
        rw [check_quoted hσ hc]
        exact hcheck _ hσ rfl
      · rintro τ hτ rfl
        rw [token_quoted hτ hc, htoken { τ with
          line := if eolAt (c :: t) then τ.line + 1 else τ.line, cur := τ.cur ++ [c] } hτ rfl]
        dsimp only
        rw [append_assoc]
        rfl
    · exact hquote
    · exact hpair

theorem run_unclosed {line : Nat} (h : quotedBody line t = none) (hσ : σ.inQuotes)
    (hline : σ.line = line) :
    (peekLoop (Check.step delim) σ t).verdict = .error (.unclosedQuote σ.quoteLine) := by
  induction line, t using quotedBody.induct generalizing σ with
  | case1 => exact if_pos hσ
  | case2 line t ih =>
    rw [quotedBody, map_eq_none_iff] at h
    rw [check_pair hσ]
    exact ih h hσ hline
  | case3 line t hne =>
    rw [quotedBody] at h
    · cases h
    · exact hne
  | case4 line c t hquote hpair ih =>
    rw [quotedBody] at h
    · rw [map_eq_none_iff] at h
      subst hline
      rw [check_quoted hσ hpair]
      exact ih h hσ rfl
    · exact hquote
    · exact hpair

theorem isEnd_false (h : isEnd delim c = false) : c ≠ delim ∧ ¬ (c = '\n' ∨ c = '\r') := by
  rw [← Bool.not_eq_true, isEnd_iff, not_or] at h
  exact h

/-- Up to an end nothing is taken. -/
theorem plain_of_end (h : isEnd delim c) (t : Text) :
    (c :: t).dropWhile (fun c => !isEnd delim c) = c :: t ∧ before (isEnd delim) (c :: t) = [] := by
  have hstop : ¬(!isEnd delim c) := by
    rw [h]
    exact Bool.false_ne_true
  exact ⟨dropWhile_cons_of_neg hstop, takeWhile_cons_of_neg hstop⟩

theorem plain_of_not_end (h : isEnd delim c = false) (t : Text) :
    (c :: t).dropWhile (fun c => !isEnd delim c) = t.dropWhile (fun c => !isEnd delim c) ∧
      before (isEnd delim) (c :: t) = c :: before (isEnd delim) t := by
  have hgo : (!isEnd delim c) := by rw [h]; rfl
  exact ⟨dropWhile_cons_of_pos hgo, takeWhile_cons_of_pos hgo⟩

theorem check_open (delim : Char) (line q : Nat) (t : Text) :
    peekLoop (Check.step delim)
        { line, inQuotes := false, quoteLine := q, atFieldStart := true } ('"' :: t) =
      peekLoop (Check.step delim)
        { line, inQuotes := true, quoteLine := line, atFieldStart := true } t := by
  apply peekLoop_one
  rw [Check.step, if_neg Bool.false_ne_true, if_pos ⟨rfl, rfl⟩]

theorem run_text (line q : Nat) (t : Text) :
    peekLoop (Check.step delim)
        { line, inQuotes := false, quoteLine := q, atFieldStart := false } t =
      peekLoop (Check.step delim)
        { line, inQuotes := false, quoteLine := q, atFieldStart := false }
        (t.dropWhile fun c => !isEnd delim c) ∧
    ∀ τ : Token, τ.inQuotes = false → (τ.cur ≠ [] ∨ τ.quoted) → τ.fieldStarted = true →
      peekLoop (Token.step delim) τ t = peekLoop (Token.step delim)
        { τ with cur := τ.cur ++ before (isEnd delim) t }
        (t.dropWhile fun c => !isEnd delim c) := by
  induction t with
  | nil =>
    refine ⟨rfl, fun τ _ _ _ => ?_⟩
    change _ = peekLoop (Token.step delim) { τ with cur := τ.cur ++ [] } []
    rw [append_nil]
  | cons c t ih =>
    obtain ⟨hcheck, htoken⟩ := ih
    cases hend : isEnd delim c with
    | true =>
      obtain ⟨hdrop, htake⟩ := plain_of_end hend t
      rw [hdrop, htake]
      refine ⟨rfl, fun τ _ _ _ => ?_⟩
      rw [append_nil]
    | false =>
      obtain ⟨hdelim, heol⟩ := isEnd_false hend
      obtain ⟨hdrop, htake⟩ := plain_of_not_end hend t
      rw [hdrop, htake]
      constructor
      · rw [← hcheck]
        apply peekLoop_one
        rw [Check.step, if_neg Bool.false_ne_true, if_neg fun h => Bool.false_ne_true h.2,
          if_neg hdelim, if_neg heol]
      · intro τ hτ hcur hstarted
        have hstep : peekLoop (Token.step delim) τ (c :: t) =
            peekLoop (Token.step delim) { τ with cur := τ.cur ++ [c] } t := by
          apply peekLoop_one
          rw [Token.step, hτ, if_neg Bool.false_ne_true, if_neg hdelim, if_neg, if_neg heol,
            ← hstarted]
          rintro ⟨-, hnil, hquoted⟩
          exact hcur.elim (absurd (List.isEmpty_iff.mp hnil)) hquoted
        rw [hstep, htoken { τ with cur := τ.cur ++ [c] } hτ (.inl (by simp)) hstarted]
        dsimp only
        rw [append_assoc]
        rfl

theorem scanField_plain (h : t.head? ≠ some '"') (line : Nat) : scanField delim line t =
    .ok ({ text := before (isEnd delim) t, quoted := false }, line,
      t.dropWhile fun c => !isEnd delim c) := by
  rw [scanField]
  rintro t' rfl
  exact h rfl

/-- Does a field have something in it? -/
def starts (delim : Char) (t : Text) : Bool := t.head?.any fun c => !isEnd delim c

theorem run_field (hdelim : delim ≠ '"') {line : Nat} (h : scanField delim line t = .ok r) :
    (∀ q, ∃ q' start, peekLoop (Check.step delim)
        { line, inQuotes := false, quoteLine := q, atFieldStart := true } t =
      peekLoop (Check.step delim)
        { line := r.2.1, inQuotes := false, quoteLine := q', atFieldStart := start } r.2.2) ∧
    ∀ τ : Token, τ.line = line → τ.inQuotes = false → τ.cur = [] → τ.quoted = false →
      peekLoop (Token.step delim) τ t = peekLoop (Token.step delim)
        { τ with
          line := r.2.1, cur := r.1.text, quoted := r.1.quoted
          fieldStarted := τ.fieldStarted || starts delim t } r.2.2 := by
  by_cases hquote : t.head? = some '"'
  · obtain ⟨t, rfl⟩ := head?_eq_some_iff.mp hquote
    have hstarts : starts delim ('"' :: t) := by
      have hend : isEnd delim '"' = false := by
        rw [← Bool.not_eq_true, isEnd_iff]
        rintro (h | h | h)
        · exact hdelim h.symm
        · cases h
        · cases h
      rw [starts, head?_cons, any_some, hend]
      rfl
    rw [scanField] at h
    cases hbody : quotedBody line t with
    | none =>
      rw [hbody] at h
      cases h
    | some b =>
      obtain ⟨body, line', rest⟩ := b
      rw [hbody] at h
      cases h
      obtain ⟨hcheck, htoken⟩ := @run_quoted delim _ _ _ _ _ hbody
      constructor
      · intro q
        refine ⟨line, false, ?_⟩
        rw [check_open, hcheck _ rfl rfl]
        exact (run_text line' line rest).1
      · intro τ hline hτ hcur hquoted
        have hopen : peekLoop (Token.step delim) τ ('"' :: t) = peekLoop (Token.step delim)
            { τ with quoted := true, inQuotes := true, fieldStarted := true } t := by
          apply peekLoop_one
          rw [Token.step, hτ, if_neg Bool.false_ne_true, if_neg (Ne.symm hdelim), if_pos]
          rw [hcur, hquoted]
          exact ⟨rfl, rfl, Bool.false_ne_true⟩
        rw [hopen, htoken { τ with quoted := true, inQuotes := true, fieldStarted := true }
          rfl hline, (run_text line' 0 rest).2 { τ with
            line := line', cur := τ.cur ++ body, quoted := true, inQuotes := false
            fieldStarted := true } rfl (.inr rfl) rfl, hstarts, Bool.or_true, hcur, ← hτ]
        rfl
  · rw [scanField_plain hquote] at h
    cases h
    cases t with
    | nil =>
      refine ⟨fun q => ⟨q, true, rfl⟩, fun τ hline hτ hcur hquoted => ?_⟩
      change _ = peekLoop (Token.step delim) { τ with
        line := line, cur := [], quoted := false, fieldStarted := τ.fieldStarted || false } []
      rw [Bool.or_false, ← hline, ← hcur, ← hquoted]
    | cons c t =>
      have hc : c ≠ '"' := fun h => hquote (congrArg some h)
      cases hend : isEnd delim c with
      | true =>
        obtain ⟨hdrop, htake⟩ := plain_of_end hend t
        have hstarts : starts delim (c :: t) = false := by
          rw [starts, head?_cons, any_some, hend]
          rfl
        dsimp only
        rw [hdrop, htake, hstarts]
        refine ⟨fun q => ⟨q, true, rfl⟩, fun τ hline hτ hcur hquoted => ?_⟩
        rw [Bool.or_false, ← hline, ← hcur, ← hquoted]
      | false =>
        obtain ⟨hnot, heol⟩ := isEnd_false hend
        obtain ⟨hdrop, htake⟩ := plain_of_not_end hend t
        have hstarts : starts delim (c :: t) := by
          rw [starts, head?_cons, any_some, hend]
          rfl
        dsimp only
        rw [hdrop, htake, hstarts]
        constructor
        · intro q
          refine ⟨q, false, ?_⟩
          rw [← (run_text line q t).1]
          apply peekLoop_one
          rw [Check.step, if_neg Bool.false_ne_true, if_neg fun h => hc h.1, if_neg hnot,
            if_neg heol]
        · intro τ hline hτ hcur hquoted
          have hfirst : peekLoop (Token.step delim) τ (c :: t) =
              peekLoop (Token.step delim)
                { τ with cur := τ.cur ++ [c], fieldStarted := true } t := by
            apply peekLoop_one
            rw [Token.step, hτ, if_neg Bool.false_ne_true, if_neg hnot, if_neg fun h => hc h.1,
              if_neg heol]
          rw [hfirst, (run_text line 0 t).2 { τ with
            cur := τ.cur ++ [c], fieldStarted := true } hτ (.inl (by simp)) rfl,
            Bool.or_true, hcur, ← hline, ← hquoted]
          rfl

theorem stops_of_scanField {line : Nat} (h : scanField delim line t = .ok r) :
    Stops delim r.2.2 := by
  have hdrop : ∀ u : Text, Stops delim (u.dropWhile fun c => !isEnd delim c) := by
    intro u c hc
    have hnot := head?_dropWhile_not (fun c => !isEnd delim c) u
    rw [Option.mem_def] at hc
    rw [hc] at hnot
    simpa using hnot
  rw [scanField.eq_def] at h
  split at h
  · split at h
    · cases h
    · cases h
      exact hdrop _
  · cases h
    exact hdrop _

/-- A line end, or nothing, stands here. -/
def AtEol (t : Text) : Prop := ∀ c ∈ t.head?, c = '\n' ∨ c = '\r'

theorem starts_of_last (hdelim : delim ≠ '"') {line : Nat} (h : scanField delim line t = .ok r)
    (hlast : r.2.2.head? ≠ some delim) (hne : t ≠ []) (heol : ¬ AtEol t) :
    starts delim t = true := by
  obtain ⟨c, t, rfl⟩ := exists_cons_of_ne_nil hne
  have hstarts : starts delim (c :: t) = !isEnd delim c := rfl
  cases hend : isEnd delim c with
  | false => rw [hstarts, hend]; rfl
  | true =>
    exfalso
    rcases isEnd_iff.mp hend with rfl | hc
    · rw [scanField_plain (t := c :: t) fun h => hdelim (Option.some.inj h)] at h
      cases h
      refine hlast ?_
      dsimp only
      rw [dropWhile_cons_of_neg (by rw [hend]; exact Bool.false_ne_true)]
      rfl
    · refine heol fun d hd => ?_
      obtain rfl := Option.some.inj hd
      exact hc

theorem run_record (hdelim : isSpecial delim = false) {line : Nat} :
    match scanRecord delim line t with
    | .error e => ∀ q, (peekLoop (Check.step delim)
        { line, inQuotes := false, quoteLine := q, atFieldStart := true } t).verdict = .error e
    | .ok rs => AtEol rs.2.2 ∧
        (∀ q, ∃ q' start, peekLoop (Check.step delim)
            { line, inQuotes := false, quoteLine := q, atFieldStart := true } t =
          peekLoop (Check.step delim)
            { line := rs.2.1, inQuotes := false, quoteLine := q', atFieldStart := start } rs.2.2) ∧
        ∀ τ : Token, τ.line = line → τ.inQuotes = false → τ.cur = [] → τ.quoted = false →
          τ.fieldStarted = true ∨ t ≠ [] ∧ ¬ AtEol t →
          ∃ init f, rs.1 = init ++ [f] ∧ peekLoop (Token.step delim) τ t =
            peekLoop (Token.step delim) { τ with
              line := rs.2.1, fields := τ.fields ++ init, cur := f.text, quoted := f.quoted
              fieldStarted := true } rs.2.2 := by
  have hdelim' : delim ≠ '"' ∧ delim ≠ '\r' ∧ delim ≠ '\n' := by
    simpa [isSpecial, and_assoc] using hdelim
  induction hn : t.length using Nat.strong_induction_on generalizing line t with
  | _ n ih =>
    subst hn
    cases hfield : scanField delim line t with
    | error e =>
      rw [scanRecord_error hfield]
      intro q
      -- a field fails only in quotes
      rw [scanField.eq_def] at hfield
      split at hfield
      · rename_i t
        split at hfield
        · rename_i hbody
          cases hfield
          rw [check_open]
          exact run_unclosed hbody rfl rfl
        · cases hfield
      · cases hfield
    | ok r =>
      obtain ⟨hcheck, htoken⟩ := run_field hdelim'.1 hfield
      have hstops := stops_of_scanField hfield
      by_cases hlast : r.2.2.head? = some delim
      · obtain ⟨rest, hrest⟩ := head?_eq_some_iff.mp hlast
        have hshort : rest.length < t.length := by
          have := scanField_length hfield
          rw [hrest] at this
          exact this
        have hih := @ih rest.length hshort rest r.2.1 rfl
        rw [scanRecord_next hfield hrest]
        have hcheckDelim : ∀ l q start, peekLoop (Check.step delim)
            { line := l, inQuotes := false, quoteLine := q, atFieldStart := start }
            (delim :: rest) = peekLoop (Check.step delim)
              { line := l, inQuotes := false, quoteLine := q, atFieldStart := true } rest := by
          intro l q start
          apply peekLoop_one
          rw [Check.step, if_neg Bool.false_ne_true, if_neg fun h => hdelim'.1 h.1, if_pos rfl]
        cases hrec : scanRecord delim r.2.1 rest with
        | error e =>
          rw [hrec] at hih
          intro q
          obtain ⟨q', start, hq⟩ := hcheck q
          rw [hq, hrest, hcheckDelim]
          exact hih q'
        | ok rs =>
          rw [hrec] at hih
          obtain ⟨heol, hcheck', htoken'⟩ := hih
          refine ⟨heol, ?_, ?_⟩
          · intro q
            obtain ⟨q', start, hq⟩ := hcheck q
            rw [hq, hrest, hcheckDelim]
            exact hcheck' q'
          · intro τ hline hτ hcur hquoted _
            have hfieldEnd : peekLoop (Token.step delim) { τ with
                line := r.2.1, cur := r.1.text, quoted := r.1.quoted
                fieldStarted := τ.fieldStarted || starts delim t } (delim :: rest) =
                peekLoop (Token.step delim) { τ with
                  line := r.2.1, fields := τ.fields ++ [r.1], cur := [], quoted := false
                  fieldStarted := true } rest := by
              apply peekLoop_one
              rw [Token.step, hτ, if_neg Bool.false_ne_true, if_pos rfl]
              rfl
            obtain ⟨init, f, hfs, hrun⟩ := htoken' { τ with
              line := r.2.1, fields := τ.fields ++ [r.1], cur := [], quoted := false
              fieldStarted := true } rfl hτ rfl rfl (.inl rfl)
            refine ⟨r.1 :: init, f, by dsimp only; rw [hfs]; rfl, ?_⟩
            rw [htoken τ hline hτ hcur hquoted, hrest, hfieldEnd, hrun]
            dsimp only
            rw [append_assoc]
            rfl
      · rw [scanRecord_last hfield hlast]
        refine ⟨?_, hcheck, ?_⟩
        · intro c hc
          rcases isEnd_iff.mp (hstops c hc) with rfl | h
          · exact absurd hc hlast
          · exact h
        · intro τ hline hτ hcur hquoted hstart
          refine ⟨[], r.1, rfl, ?_⟩
          rw [htoken τ hline hτ hcur hquoted]
          have hstarted : (τ.fieldStarted || starts delim t) := by
            rcases hstart with h | ⟨hne, heol⟩
            · rw [h, Bool.true_or]
            · rw [starts_of_last hdelim'.1 hfield hlast hne heol, Bool.or_true]
          rw [hstarted, append_nil]

/-! ## The scanner -/

theorem check_eol (hdelim : isSpecial delim = false) (hc : c = '\n' ∨ c = '\r')
    (line q : Nat) (start : Bool) : peekLoop (Check.step delim)
        { line, inQuotes := false, quoteLine := q, atFieldStart := start } (c :: t) =
      peekLoop (Check.step delim)
        { line := line + 1, inQuotes := false, quoteLine := q, atFieldStart := true }
        (skipEol (c :: t)) := by
  have hdelim' : delim ≠ '"' ∧ delim ≠ '\r' ∧ delim ≠ '\n' := by
    simpa [isSpecial, and_assoc] using hdelim
  have hnewline : ∀ (u : Text) (b : Bool), peekLoop (Check.step delim)
      { line, inQuotes := false, quoteLine := q, atFieldStart := b } ('\n' :: u) =
      peekLoop (Check.step delim)
        { line := line + 1, inQuotes := false, quoteLine := q, atFieldStart := true } u := by
    intro u b
    apply peekLoop_one
    rw [Check.step, if_neg Bool.false_ne_true, if_neg fun h => absurd h.1 (by decide),
      if_neg (Ne.symm hdelim'.2.2), if_pos (.inl rfl), if_pos fun h => absurd h.1 (by decide)]
  rcases hc with rfl | rfl
  · exact hnewline t start
  · have hreturn : peekLoop (Check.step delim)
        { line, inQuotes := false, quoteLine := q, atFieldStart := start } ('\r' :: t) =
        peekLoop (Check.step delim)
          { line := if ¬ ('\r' = '\r' ∧ t.head? = some '\n') then line + 1 else line
            inQuotes := false, quoteLine := q, atFieldStart := true } t := by
      apply peekLoop_one
      rw [Check.step, if_neg Bool.false_ne_true, if_neg fun h => absurd h.1 (by decide),
        if_neg (Ne.symm hdelim'.2.1), if_pos (.inr rfl)]
    rw [hreturn]
    by_cases hnext : t.head? = some '\n'
    · obtain ⟨u, rfl⟩ := head?_eq_some_iff.mp hnext
      rw [if_neg (not_not.mpr ⟨rfl, hnext⟩), hnewline]
      rfl
    · rw [if_pos fun h => hnext h.2, skipEol]
      rintro u - rfl
      exact hnext rfl

theorem token_eol (hdelim : isSpecial delim = false) (hc : c = '\n' ∨ c = '\r')
    (hτ : τ.inQuotes = false) : peekLoop (Token.step delim) τ (c :: t) =
      peekLoop (Token.step delim)
        { out := τ.out ++ [(τ.recLine, if τ.started then some (τ.fields ++ [τ.field]) else none)]
          line := τ.line + 1
          fields := if τ.started then [] else τ.fields
          cur := if τ.started then [] else τ.cur
          quoted := false, inQuotes := false, fieldStarted := false, recLine := τ.line + 1 }
        (skipEol (c :: t)) := by
  have hdelim' : delim ≠ '"' ∧ delim ≠ '\r' ∧ delim ≠ '\n' := by
    simpa [isSpecial, and_assoc] using hdelim
  have hquote : ¬ (c = '"' ∧ τ.cur.isEmpty = true ∧ ¬ τ.quoted = true) := by
    rintro ⟨rfl, -⟩
    exact hc.elim (fun h => absurd h (by decide)) fun h => absurd h (by decide)
  have hnot : c ≠ delim := by
    rintro rfl
    exact hc.elim hdelim'.2.2 hdelim'.2.1
  rw [peekLoop_cons, Token.step, hτ, if_neg Bool.false_ne_true, if_neg hnot, if_neg hquote,
    if_pos hc]
  dsimp only
  have hskip : (if decide (c = '\r' ∧ t.head? = some '\n') = true then t.tail else t) =
      skipEol (c :: t) := by
    by_cases hnext : c = '\r' ∧ t.head? = some '\n'
    · rw [if_pos (decide_eq_true hnext)]
      obtain ⟨rfl, hnext⟩ := hnext
      obtain ⟨u, rfl⟩ := head?_eq_some_iff.mp hnext
      rfl
    · rw [if_neg (by rw [decide_eq_true_eq]; exact hnext), skipEol]
      rintro u rfl rfl
      exact hnext ⟨rfl, rfl⟩
  rw [hskip]

end Steps

section Scan

variable {delim c : Char} {t : Text} {line : Nat} (hc : ¬ (c = '\n' ∨ c = '\r'))
include hc

theorem scan_error {e : Fault} (h : scanRecord delim line (c :: t) = .error e) :
    scan delim line (c :: t) = .error e := by
  rw [scan, if_neg hc]
  split
  · rename_i h'
    rw [h] at h'
    cases h'
    rfl
  · rename_i h'
    rw [h] at h'
    cases h'

theorem scan_last {fs : List Field} {line' : Nat}
    (h : scanRecord delim line (c :: t) = .ok (fs, line', [])) :
    scan delim line (c :: t) = .ok [(line, fs)] := by
  rw [scan, if_neg hc]
  split
  · rename_i h'
    rw [h] at h'
    cases h'
  · rename_i h'
    rw [h] at h'
    cases h'
    rfl

end Scan

theorem visible_append (records : List Record) (r : Record) :
    visible (records ++ [r]) = visible records ++ visible [r] := filterMap_append

theorem run_scan {delim : Char} (hdelim : isSpecial delim = false) (line q : Nat) (t : Text) :
    match scan delim line t with
    | .error e => (peekLoop (Check.step delim)
        { line, inQuotes := false, quoteLine := q, atFieldStart := true } t).verdict = .error e
    | .ok rows => (peekLoop (Check.step delim)
          { line, inQuotes := false, quoteLine := q, atFieldStart := true } t).verdict = .ok () ∧
        ∀ out, visible (peekLoop (Token.step delim) (.fresh out line) t).finish =
          visible out ++ rows := by
  induction hn : t.length using Nat.strong_induction_on generalizing line q t with
  | _ n ih =>
    subst hn
    cases t with
    | nil =>
      rw [scan]
      exact ⟨rfl, fun out => (append_nil _).symm⟩
    | cons c t =>
      by_cases hc : c = '\n' ∨ c = '\r'
      · -- a blank line
        have hih := ih _ (Nat.lt_succ_of_le (skipEol_length (c := c) (t := t))) (line + 1) q _ rfl
        rw [scan, if_pos hc, check_eol hdelim hc]
        have htoken : ∀ out, peekLoop (Token.step delim) (.fresh out line) (c :: t) =
            peekLoop (Token.step delim) (.fresh (out ++ [(line, none)]) (line + 1))
              (skipEol (c :: t)) := fun out => token_eol hdelim hc rfl
        cases hscan : scan delim (line + 1) (skipEol (c :: t)) with
        | error e =>
          rw [hscan] at hih
          exact hih
        | ok rows =>
          rw [hscan] at hih
          refine ⟨hih.1, fun out => ?_⟩
          rw [htoken, hih.2, visible_append]
          exact congrArg (· ++ rows) (append_nil _)
      · have hrec := @run_record delim (c :: t) hdelim line
        cases h : scanRecord delim line (c :: t) with
        | error e =>
          rw [h] at hrec
          rw [scan_error hc h]
          exact hrec q
        | ok rs =>
          obtain ⟨fs, line', rest⟩ := rs
          rw [h] at hrec
          obtain ⟨heol, hcheck, htoken⟩ := hrec
          obtain ⟨q', start, hq⟩ := hcheck q
          have hstart : ¬ AtEol (c :: t) := fun h => hc (h c rfl)
          obtain ⟨init, f, hfs, hrun⟩ : ∃ init f, fs = init ++ [f] ∧ ∀ out,
              peekLoop (Token.step delim) (.fresh out line) (c :: t) =
                peekLoop (Token.step delim) { Token.fresh out line with
                  line := line', fields := init, cur := f.text, quoted := f.quoted
                  fieldStarted := true } rest := by
            have hfresh := fun out => htoken (.fresh out line) rfl rfl rfl rfl
              (.inr ⟨cons_ne_nil _ _, hstart⟩)
            obtain ⟨init, f, hfs, -⟩ := hfresh []
            refine ⟨init, f, hfs, fun out => ?_⟩
            obtain ⟨init', f', hfs', hrun⟩ := hfresh out
            obtain ⟨rfl, hf⟩ := append_inj' (hfs.symm.trans hfs') rfl
            obtain rfl := cons.inj hf |>.1
            exact hrun
          cases rest with
          | nil =>
            rw [scan_last hc h]
            refine ⟨by rw [hq]; rfl, fun out => ?_⟩
            rw [hrun, hfs]
            exact visible_append out (line, some (init ++ [f]))
          | cons d after =>
            have hd : d = '\n' ∨ d = '\r' := heol d rfl
            have hle : (d :: after).length ≤ (c :: t).length := scanRecord_length h
            have hih := ih _ ((Nat.lt_succ_of_le
              (skipEol_length (c := d) (t := after))).trans_le hle) (line' + 1) q' _ rfl
            rw [scan_record hc h, hq, check_eol hdelim hd]
            cases hscan : scan delim (line' + 1) (skipEol (d :: after)) with
            | error e =>
              rw [hscan] at hih
              exact hih
            | ok rows =>
              rw [hscan] at hih
              refine ⟨hih.1, fun out => ?_⟩
              rw [hrun, token_eol hdelim hd rfl]
              refine (hih.2 (out ++ [(line, some (init ++ [f]))])).trans ?_
              rw [visible_append, hfs, append_assoc]
              rfl

/-- The scanner reads what the reference reads, with any delimiter that has no meaning of its own:
the same records with the same lines, or the same line of a quote that is not closed. -/
theorem scan_eq_reference {delim : Char} (hdelim : isSpecial delim = false) (t : Text) :
    scan delim 1 t = reference delim t := by
  have hrun := run_scan hdelim 1 0 t
  rw [reference, checkUnclosedQuote, tokenize]
  cases hscan : scan delim 1 t with
  | error e =>
    rw [hscan] at hrun
    rw [hrun]
    rfl
  | ok rows =>
    rw [hscan] at hrun
    rw [hrun.1]
    exact congrArg Except.ok (hrun.2 []).symm

theorem scan_eq_reference_sample :
    scan ';' 1 "a;\"x\r\ny\"z\n\n;" = reference ';' "a;\"x\r\ny\"z\n\n;" :=
  scan_eq_reference (by decide) _

end Synsema.Csv.Reference
