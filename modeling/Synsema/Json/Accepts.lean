import Synsema.Json.Tokens

/-!
# What the JSON parser accepts

The parser succeeds on the documents of the grammar within its limits, and on no other text
(`parse_iff`), and what it returns is the value of the document.  What it shares between the
documents of a call changes no result (`parseWith_memo`).

Soundness is by induction on the fuel, completeness by induction on the tree; both go through
a lemma for the loop of an array and one for the loop of an object, for any parser of what
stands inside.
-/

namespace Synsema.Json.Exact

open Text List

/-! ## Scalars -/

variable {c : Char} {t text : Text} {d : Document}

theorem number_head {n : NumberToken} {r : Text} (hc : c ∈ (n.text ++ r).head?) :
    c = '-' ∨ c.isDigit = true := by
  have htext : n.text ++ r = n.signText ++ (n.int.chars ++ (n.fracText ++ (n.expText ++ r))) := by
    simp only [NumberToken.text, append_assoc]
  rw [htext] at hc
  unfold NumberToken.signText at hc
  cases hneg : n.neg with
  | true =>
    rw [hneg] at hc
    cases hc
    exact .inl rfl
  | false =>
    rw [hneg] at hc
    exact .inr (n.int.isDigit_head hc)

theorem quoted_append (s : List StrItem) (r : Text) :
    quoted s ++ r = '"' :: (StrItem.textAll s ++ '"' :: r) := by
  rw [quoted, append_assoc]
  rfl

theorem wordAt_append {word : String} {r : Text} (hr : Ends isWordChar r) :
    wordAt word (word.toList ++ r) = true := by
  have hdrop : (word.toList ++ r).drop word.toList.length = r := drop_left
  have hany : r.head?.any isWordChar = false := by
    cases r with
    | nil => rfl
    | cons c r => exact hr c rfl
  rw [wordAt, hdrop, hany, startsWith_iff.mpr ⟨r, rfl⟩]
  rfl

theorem scalar_sound {allowNan : Bool} {r : Text} {v : SynValue} (h : scalar allowNan t = .ok v r) :
    ∃ tree : Tree, t = tree.text ++ r ∧ (Ends isWordChar r → tree.Admitted allowNan) ∧
      tree.depth = 0 ∧ tree.value = v := by
  cases t with
  | nil => cases h
  | cons c t =>
    change (if c = 'n' then _ else _) = _ at h
    by_cases h₁ : c = 'n'
    · rw [if_pos h₁] at h
      obtain ⟨rfl, ht⟩ := lit_eq_ok.mp h
      exact ⟨.null, ht, fun _ => trivial, rfl, rfl⟩
    rw [if_neg h₁] at h
    by_cases h₂ : c = 't'
    · rw [if_pos h₂] at h
      obtain ⟨rfl, ht⟩ := lit_eq_ok.mp h
      exact ⟨.bool true, ht, fun _ => trivial, rfl, rfl⟩
    rw [if_neg h₂] at h
    by_cases h₃ : c = 'f'
    · rw [if_pos h₃] at h
      obtain ⟨rfl, ht⟩ := lit_eq_ok.mp h
      exact ⟨.bool false, ht, fun _ => trivial, rfl, rfl⟩
    rw [if_neg h₃] at h
    by_cases h₄ : c = '"'
    · rw [if_pos h₄] at h
      subst h₄
      obtain ⟨x, t₁, hs, h⟩ := bind_eq_ok.mp h
      obtain ⟨rfl, rfl⟩ := pure_eq_ok.mp h
      obtain ⟨s, rfl, hd⟩ := string_eq_ok.mp hs
      have ht : '"' :: (StrItem.textAll s ++ '"' :: r) = (Tree.str s).text ++ r := by
        exact (quoted_append s r).symm
      refine ⟨.str s, ht, fun _ => ?_, rfl, ?_⟩
      · change (StrItem.decode s).isSome = true
        rw [hd]
        rfl
      · change SynValue.text ((StrItem.decode s).getD []) = _
        rw [hd]
        rfl
    rw [if_neg h₄] at h
    by_cases h₅ : (c = 'N' ∨ c = 'I') ∧ !allowNan ∧
        (wordAt "NaN" (c :: t) ∨ wordAt "Infinity" (c :: t))
    · rw [if_pos h₅] at h
      exact absurd h fail_ne_ok
    rw [if_neg h₅] at h
    by_cases h₆ : c = '-' ∧ !allowNan ∧ wordAt "-Infinity" (c :: t)
    · rw [if_pos h₆] at h
      exact absurd h fail_ne_ok
    rw [if_neg h₆] at h
    by_cases h₇ : (c = 'N' ∨ c = 'I') ∧ !allowNan
    · rw [if_pos h₇] at h
      exact absurd h fail_ne_ok
    rw [if_neg h₇] at h
    by_cases h₈ : c = 'N'
    · rw [if_pos h₈] at h
      obtain ⟨rfl, ht⟩ := lit_eq_ok.mp h
      exact ⟨.nan, ht, fun _ => show allowNan = true by simpa [h₈] using h₇, rfl, rfl⟩
    rw [if_neg h₈] at h
    by_cases h₉ : c = 'I'
    · rw [if_pos h₉] at h
      obtain ⟨rfl, ht⟩ := lit_eq_ok.mp h
      exact ⟨.infinity, ht, fun _ => show allowNan = true by simpa [h₉] using h₇, rfl, rfl⟩
    rw [if_neg h₉] at h
    by_cases h₁₀ : c = '-' ∧ startsWith "-Infinity" (c :: t)
    · rw [if_pos h₁₀] at h
      obtain ⟨rfl, ht⟩ := lit_eq_ok.mp h
      refine ⟨.negInfinity, ht, fun hr => ?_, rfl, rfl⟩
      by_contra hnan
      have hword : wordAt "-Infinity" (c :: t) := by
        rw [ht]
        exact wordAt_append hr
      exact h₆ ⟨h₁₀.1, by simpa [Tree.Admitted] using hnan, hword⟩
    rw [if_neg h₁₀] at h
    by_cases h₁₁ : c = '-' ∨ c.isDigit
    · rw [if_pos h₁₁] at h
      obtain ⟨n, ht, -, hadm, rfl⟩ := number_eq_ok.mp h
      exact ⟨.number n, ht, fun _ => hadm, rfl, rfl⟩
    rw [if_neg h₁₁] at h
    exact absurd h fail_ne_ok

theorem scalar_number {allowNan : Bool} (hc : c = '-' ∨ c.isDigit)
    (hinf : ¬startsWith "-Infinity" (c :: t)) :
    scalar allowNan (c :: t) = number (c :: t) := by
  have hne (x : Char) (hx : x ≠ '-') (hd : x.isDigit = false) : c ≠ x := by
    rintro rfl
    rcases hc with hc | hc
    · exact hx hc
    · rw [hd] at hc
      cases hc
  have hword : ¬wordAt "-Infinity" (c :: t) := fun h => by
    rw [wordAt, Bool.and_eq_true] at h
    exact hinf h.1
  have hN := hne 'N' (by decide) rfl
  have hI := hne 'I' (by decide) rfl
  have hNI : ¬(c = 'N' ∨ c = 'I') := fun h => h.elim hN hI
  change (if c = 'n' then _ else _) = _
  rw [if_neg (hne 'n' (by decide) rfl), if_neg (hne 't' (by decide) rfl),
    if_neg (hne 'f' (by decide) rfl), if_neg (hne '"' (by decide) rfl),
    if_neg fun h => hNI h.1, if_neg fun h => hword h.2.2, if_neg fun h => hNI h.1, if_neg hN,
    if_neg hI, if_neg fun h => hinf h.2, if_pos hc]

/-- A character that a number could go on with. -/
def isNumberChar (c : Char) : Bool := c.isDigit || c == '.' || isExpLetter c

theorem stops_of_ends {r : Text} (hr : Ends isNumberChar r) (n : NumberToken) : Stops n r := by
  have h (c : Char) (hc : c ∈ r.head?) :
      (c.isDigit = false ∧ (c == '.') = false) ∧ isExpLetter c = false := by
    have h := hr c hc
    rwa [isNumberChar, Bool.or_eq_false_iff, Bool.or_eq_false_iff] at h
  exact ⟨fun c hc => (h c hc).1.1, fun _ c hc => (h c hc).2, fun _ c hc => (h c hc).1.2⟩

theorem number_not_infinity (n : NumberToken) (r : Text) :
    ¬startsWith "-Infinity" (n.text ++ r) = true := by
  intro h
  obtain ⟨r', hr'⟩ := startsWith_iff.mp h
  have htext : n.text ++ r = n.signText ++ (n.int.chars ++ (n.fracText ++ (n.expText ++ r))) := by
    simp only [NumberToken.text, append_assoc]
  have hword : "-Infinity" ++ r' = '-' :: 'I' :: ("nfinity" ++ r') := rfl
  rw [htext, hword] at hr'
  unfold NumberToken.signText at hr'
  cases hneg : n.neg with
  | true =>
    rw [hneg, if_pos rfl] at hr'
    have hI := n.int.isDigit_head (Option.mem_def.mpr
      ((congrArg List.head? (cons.inj hr').2).trans head?_cons))
    exact absurd hI (by decide)
  | false =>
    rw [hneg, if_neg Bool.false_ne_true] at hr'
    have hm := n.int.isDigit_head (Option.mem_def.mpr
      ((congrArg List.head? hr').trans head?_cons))
    exact absurd hm (by decide)

theorem lit_append (word : String) (v : SynValue) (r : Text) :
    lit word v (word.toList ++ r) = .ok v r := lit_eq_ok.mpr ⟨rfl, rfl⟩

theorem scalar_complete {allowNan : Bool} {tree : Tree} (hdepth : tree.depth = 0)
    (hadm : tree.Admitted allowNan) {r : Text} (hr : Ends isNumberChar r) :
    scalar allowNan (tree.text ++ r) = .ok tree.value r := by
  cases tree with
  | null => exact lit_append "null" .nothing r
  | bool b =>
    cases b
    · exact lit_append "false" (.bool false) r
    · exact lit_append "true" (.bool true) r
  | number n =>
    have hn : number (n.text ++ r) = .ok (.number n.value) r :=
      number_eq_ok.mpr ⟨n, rfl, stops_of_ends hr n, hadm, rfl⟩
    have hinf := number_not_infinity n r
    change scalar allowNan (n.text ++ r) = .ok (.number n.value) r
    revert hn hinf
    have hhead : ∀ c ∈ (n.text ++ r).head?, c = '-' ∨ c.isDigit := fun c => number_head
    revert hhead
    cases n.text ++ r with
    | nil => exact fun _ h => absurd h nofun
    | cons c t =>
      intro hhead hn hinf
      rw [scalar_number (hhead c rfl) hinf, hn]
  | str s =>
    obtain ⟨x, hx⟩ := Option.isSome_iff_exists.mp hadm
    have hs : string ('"' :: (StrItem.textAll s ++ '"' :: r)) = .ok x r :=
      string_eq_ok.mpr ⟨s, rfl, hx⟩
    change scalar allowNan (quoted s ++ r) = .ok (.text ((StrItem.decode s).getD [])) r
    rw [quoted_append, hx]
    exact bind_of_eq_ok hs
  | nan =>
    have hnan : allowNan := hadm
    subst hnan
    exact lit_append "NaN" (.number (.float nan)) r
  | infinity =>
    have hnan : allowNan := hadm
    subst hnan
    exact lit_append "Infinity" (.number (.float (infinite false))) r
  | negInfinity =>
    have hnan : allowNan := hadm
    subst hnan
    exact lit_append "-Infinity" (.number (.float (infinite true))) r
  | emptyArray w | array w es | emptyObject w | object w ms => cases hdepth

/-! ## Steps of the parser -/

section Steps

variable {α β : Type}

theorem scan_eq_ok {x : Scan α} {p p' : Parser} {a : α} :
    scan x p = .ok a p' ↔ ∃ r, x p.rest = .ok a r ∧ p' = { p with rest := r } := by
  unfold scan
  cases x p.rest <;> simp [eq_comm]

theorem scan_ws_bind (f : Unit → P β) (p : Parser) :
    (scan ws >>= f) p = f () { p with rest := p.rest.dropWhile isWs } := rfl

theorem scan_peek_bind (f : Option Char → P β) (p : Parser) :
    (scan peek >>= f) p = f p.rest.head? p := rfl

theorem scan_advance_bind (n : Nat) (f : Unit → P β) (p : Parser) :
    (scan (advance n) >>= f) p = f () { p with rest := p.rest.drop n } := rfl

theorem leave_bind (f : Unit → P β) (p : Parser) :
    (leave >>= f) p = f () { p with depth := p.depth - 1 } := rfl

theorem enter_bind_eq_ok {f : Unit → P β} {p p' : Parser} {b : β} :
    (enter >>= f) p = .ok b p' ↔
      p.depth + 1 ≤ maxDepth ∧ f () { p with depth := p.depth + 1 } = .ok b p' := by
  rw [bind_eq_ok]
  unfold enter
  dsimp only
  by_cases h : maxDepth < p.depth + 1
  · simp only [if_pos h]
    exact iff_of_false (fun ⟨_, _, he, _⟩ => nomatch he) fun hp => absurd hp.1 (Nat.not_le.mpr h)
  · simp only [if_neg h, EStateM.Result.ok.injEq, true_and, Nat.not_lt.mp h]
    constructor
    · rintro ⟨_, _, rfl, hf⟩
      exact hf
    · intro hf
      exact ⟨(), _, rfl, hf⟩

end Steps

theorem exists_ws (t : Text) : ∃ w : Ws, t = w.chars ++ t.dropWhile isWs :=
  (ws_eq_ok.mp rfl).imp fun _ h => h.1

theorem dropWhile_ws (w : Ws) {r : Text} (hr : Ends isWs r) :
    (w.chars ++ r).dropWhile isWs = r := by
  have h := ws_append w hr
  simpa [ws] using h

theorem ends_ws {p : Char → Bool} (hp : ∀ c, isWs c → p c = false) (w : Ws) {r : Text}
    (hr : Ends p r) : Ends p (w.chars ++ r) := by
  cases hw : w.chars with
  | nil => exact hr
  | cons c cs => exact ends_cons.mpr (hp c (isWs_iff.mpr (w.ws c (by simp [hw]))))

theorem isWordChar_of_isWs (c : Char) (hc : isWs c) : isWordChar c = false := by
  rcases isWs_iff.mp hc with rfl | rfl | rfl | rfl <;> rfl

theorem isNumberChar_of_isWs (c : Char) (hc : isWs c) : isNumberChar c = false := by
  rcases isWs_iff.mp hc with rfl | rfl | rfl | rfl <;> rfl

/-! ## Soundness -/

/-- What `value` returns is the value of a tree that stands there, which is admitted and no
deeper than what is left of the levels.  It is admitted where it ends. -/
def Sound (allowNan : Bool) (value : P SynValue) : Prop :=
  ∀ p p' v, value p = .ok v p' →
    ∃ t : Tree, p.rest = t.text ++ p'.rest ∧ (Ends isWordChar p'.rest → t.Admitted allowNan) ∧
      t.depth ≤ maxDepth - p.depth ∧ t.value = v ∧ p'.depth = p.depth

section Sound

variable {allowNan : Bool} {value : P SynValue}

variable {p' : Parser}

theorem elements_sound (hv : Sound allowNan value) {fuel : Nat} {out l : List SynValue} {p : Parser}
    (h : elements value fuel out p = .ok l p') :
    ∃ (w : Ws) (es : Elements), p.rest = w.chars ++ es.text ++ ']' :: p'.rest ∧
      es.Admitted allowNan ∧ es.depth ≤ maxDepth - p.depth ∧ l = out ++ es.values ∧
      p'.depth = p.depth := by
  induction fuel generalizing out p with
  | zero => exact absurd h fail_ne_ok
  | succ fuel ih =>
    unfold elements at h
    rw [scan_ws_bind, bind_eq_ok] at h
    obtain ⟨v, p₂, hval, h⟩ := h
    rw [scan_ws_bind, scan_peek_bind] at h
    obtain ⟨w₀, hw₀⟩ := exists_ws p.rest
    obtain ⟨t, ht, hadm, hdepth, rfl, hp₂⟩ := hv _ _ _ hval
    obtain ⟨w, hw⟩ := exists_ws p₂.rest
    dsimp only at h ht hdepth hp₂
    cases hrest : p₂.rest.dropWhile isWs with
    | nil =>
      rw [hrest] at h
      exact absurd h fail_ne_ok
    | cons c r =>
      rw [hrest] at h hw
      change (if c = ',' then _ else _ : P (List SynValue)) _ = _ at h
      have hends (hc : isWordChar c = false) : t.Admitted allowNan := by
        refine hadm ?_
        rw [hw]
        exact ends_ws isWordChar_of_isWs w (ends_cons.mpr hc)
      by_cases h₁ : c = ','
      · rw [if_pos h₁, scan_advance_bind] at h
        obtain ⟨w', es, hes, hadm', hdepth', rfl, hp'⟩ := ih h
        subst h₁
        refine ⟨w₀, .cons t w w' es, ?_, ⟨hends rfl, hadm'⟩, ?_, ?_, hp'.trans hp₂⟩
        · have hes : r = w'.chars ++ es.text ++ ']' :: p'.rest := hes
          rw [hw₀, ht, hw, hes]
          simp
        · have hdepth' : es.depth ≤ maxDepth - p₂.depth := hdepth'
          rw [hp₂] at hdepth'
          exact max_le hdepth hdepth'
        · simp
      rw [if_neg h₁] at h
      by_cases h₂ : c = ']'
      · rw [if_pos h₂, scan_advance_bind] at h
        obtain ⟨rfl, rfl⟩ := pure_eq_ok.mp h
        subst h₂
        refine ⟨w₀, .last t w, ?_, hends rfl, hdepth, rfl, hp₂⟩
        change p.rest = w₀.chars ++ (t.text ++ w.chars) ++ ']' :: r
        rw [hw₀, ht, hw]
        simp
      rw [if_neg h₂] at h
      exact absurd h fail_ne_ok

variable {t : Text}

theorem array_sound (hv : Sound allowNan value) {p : Parser} {v : SynValue} (hp : p.rest = '[' :: t)
    (h : array value p = .ok v p') :
    ∃ t : Tree, p.rest = t.text ++ p'.rest ∧ t.Admitted allowNan ∧
      t.depth ≤ maxDepth - p.depth ∧ t.value = v ∧ p'.depth = p.depth := by
  unfold array at h
  rw [enter_bind_eq_ok, scan_advance_bind, bind_eq_ok] at h
  obtain ⟨hdepth, out, p₁, hitems, h⟩ := h
  rw [leave_bind, pure_eq_ok] at h
  obtain ⟨rfl, rfl⟩ := h
  unfold items at hitems
  rw [scan_ws_bind, scan_peek_bind] at hitems
  dsimp only at hitems
  rw [hp, drop_one, tail_cons] at hitems
  obtain ⟨w, hw⟩ := exists_ws t
  by_cases hc : (t.dropWhile isWs).head? = some ']'
  · rw [if_pos hc, scan_advance_bind, pure_eq_ok] at hitems
    obtain ⟨rfl, rfl⟩ := hitems
    obtain ⟨r, hr⟩ := head?_eq_some_iff.mp hc
    refine ⟨.emptyArray w, ?_, trivial, by unfold Tree.depth; omega, rfl, rfl⟩
    change p.rest = '[' :: w.chars ++ [']'] ++ (t.dropWhile isWs).drop 1
    rw [hp]
    nth_rewrite 1 [hw]
    rw [hr]
    simp
  · rw [if_neg hc, get_bind] at hitems
    obtain ⟨w', es, hes, hadm, hd, rfl, hp₁⟩ := elements_sound hv hitems
    have hes : t.dropWhile isWs = w'.chars ++ es.text ++ ']' :: p₁.rest := hes
    have hd : es.depth ≤ maxDepth - (p.depth + 1) := hd
    have hp₁ : p₁.depth = p.depth + 1 := hp₁
    refine ⟨.array (w.append w') es, ?_, hadm, ?_, rfl, ?_⟩
    · change p.rest = '[' :: (w.chars ++ w'.chars) ++ es.text ++ [']'] ++ p₁.rest
      rw [hp, hw, hes]
      simp
    · change es.depth + 1 ≤ _
      omega
    · change p₁.depth - 1 = p.depth
      omega

theorem key_eq_ok {p : Parser} {k : Text} (h : key p = .ok k p') :
    string p.rest = .ok k p'.rest ∧ p'.depth = p.depth := by
  unfold key at h
  obtain ⟨t, p₁, hs, h⟩ := bind_eq_ok.mp h
  obtain ⟨r, hr, rfl⟩ := scan_eq_ok.mp hs
  unfold shareKey at h
  split at h
  · rename_i k' hk
    obtain rfl : k' = t := by simpa using find?_some hk
    cases h
    exact ⟨hr, rfl⟩
  · cases h
    exact ⟨hr, rfl⟩

theorem members_sound (hv : Sound allowNan value) {fuel : Nat} {out l : List (Text × SynValue)}
    {p : Parser} (h : members value fuel out p = .ok l p') :
    ∃ (w : Ws) (ms : Members), p.rest = w.chars ++ ms.text ++ '\x7d' :: p'.rest ∧
      ms.Admitted allowNan ∧ ms.depth ≤ maxDepth - p.depth ∧ l = out ++ ms.entries ∧
      p'.depth = p.depth := by
  induction fuel generalizing out p with
  | zero => exact absurd h fail_ne_ok
  | succ fuel ih =>
    unfold members at h
    rw [scan_ws_bind, scan_peek_bind, require_bind_eq_ok, require_bind_eq_ok, bind_eq_ok] at h
    obtain ⟨-, hquote, k, p₁, hkey, h⟩ := h
    obtain ⟨w₀, hw₀⟩ := exists_ws p.rest
    obtain ⟨t₁, ht₁⟩ := head?_eq_some_iff.mp (of_decide_eq_true hquote)
    obtain ⟨hs, hp₁⟩ := key_eq_ok hkey
    dsimp only at ht₁ hs hp₁
    rw [ht₁] at hs hw₀
    obtain ⟨s, rfl, hdec⟩ := string_eq_ok.mp hs
    rw [scan_ws_bind, scan_peek_bind, require_bind_eq_ok, scan_advance_bind, scan_ws_bind,
      bind_eq_ok] at h
    obtain ⟨hcolon, v, p₂, hval, h⟩ := h
    obtain ⟨wk, hwk⟩ := exists_ws p₁.rest
    obtain ⟨t₂, ht₂⟩ := head?_eq_some_iff.mp (of_decide_eq_true hcolon)
    dsimp only at ht₂ hval h
    rw [ht₂] at hwk hval
    obtain ⟨wv, hwv⟩ := exists_ws t₂
    obtain ⟨t, ht, hadm, hdepth, rfl, hp₂⟩ := hv _ _ _ hval
    have ht : t₂.dropWhile isWs = t.text ++ p₂.rest := ht
    have hdepth : t.depth ≤ maxDepth - p₁.depth := hdepth
    have hp₂ : p₂.depth = p₁.depth := hp₂
    have hk : (StrItem.decode s).isSome := by rw [hdec]; rfl
    have hkv : (StrItem.decode s).getD [] = k := by rw [hdec]; rfl
    obtain ⟨w, hw⟩ := exists_ws p₂.rest
    rw [scan_ws_bind, scan_peek_bind] at h
    dsimp only at h
    rw [hp₁] at hdepth hp₂
    cases hrest : p₂.rest.dropWhile isWs with
    | nil =>
      rw [hrest] at h
      exact absurd h fail_ne_ok
    | cons c r =>
      rw [hrest] at h hw
      change (if c = ',' then _ else _ : P (List (Text × SynValue))) _ = _ at h
      have hends (hc : isWordChar c = false) : t.Admitted allowNan := by
        refine hadm ?_
        rw [hw]
        exact ends_ws isWordChar_of_isWs w (ends_cons.mpr hc)
      by_cases h₁ : c = ','
      · rw [if_pos h₁, scan_advance_bind] at h
        obtain ⟨w', ms, hms, hadm', hdepth', rfl, hp'⟩ := ih h
        subst h₁
        refine ⟨w₀, .cons s wk wv t w w' ms, ?_, ⟨hk, hends rfl, hadm'⟩, ?_, ?_,
          hp'.trans hp₂⟩
        · have hms : r = w'.chars ++ ms.text ++ '\x7d' :: p'.rest := hms
          rw [hw₀, hwk, hwv, ht, hw, hms]
          simp [quoted]
        · have hdepth' : ms.depth ≤ maxDepth - p₂.depth := hdepth'
          rw [hp₂] at hdepth'
          exact max_le hdepth hdepth'
        · simp [hkv]
      rw [if_neg h₁] at h
      by_cases h₂ : c = '\x7d'
      · rw [if_pos h₂, scan_advance_bind] at h
        obtain ⟨rfl, rfl⟩ := pure_eq_ok.mp h
        subst h₂
        refine ⟨w₀, .last s wk wv t w, ?_, ⟨hk, hends rfl⟩, hdepth, ?_, hp₂⟩
        · change p.rest = w₀.chars ++ (quoted s ++ wk.chars ++ ':' :: wv.chars ++ t.text ++
            w.chars) ++ '\x7d' :: r
          rw [hw₀, hwk, hwv, ht, hw]
          simp [quoted]
        · simp [hkv]
      rw [if_neg h₂] at h
      exact absurd h fail_ne_ok

theorem takeBuf_bind {β : Type} (f : List (Text × SynValue) → P β) (p : Parser) :
    ∃ m, (takeBuf >>= f) p = f [] { p with memo := m } :=
  ⟨_, rfl⟩

theorem object_sound (hv : Sound allowNan value) {p : Parser} {v : SynValue}
    (hp : p.rest = '\x7b' :: t) (h : object value p = .ok v p') :
    ∃ t : Tree, p.rest = t.text ++ p'.rest ∧ t.Admitted allowNan ∧
      t.depth ≤ maxDepth - p.depth ∧ t.value = v ∧ p'.depth = p.depth := by
  unfold object at h
  rw [enter_bind_eq_ok, scan_advance_bind] at h
  obtain ⟨hdepth, h⟩ := h
  obtain ⟨m, hm⟩ := takeBuf_bind (fun out => do
    let v ← entries value out
    leave
    pure v) { p with depth := p.depth + 1, rest := p.rest.drop 1 }
  have h := hm.symm.trans h
  rw [bind_eq_ok] at h
  obtain ⟨v', p₁, hentries, h⟩ := h
  rw [leave_bind, pure_eq_ok] at h
  obtain ⟨rfl, rfl⟩ := h
  unfold entries at hentries
  rw [scan_ws_bind, scan_peek_bind] at hentries
  dsimp only at hentries
  rw [hp, drop_one, tail_cons] at hentries
  obtain ⟨w, hw⟩ := exists_ws t
  by_cases hc : (t.dropWhile isWs).head? = some '\x7d'
  · rw [if_pos hc, scan_advance_bind] at hentries
    cases hentries
    obtain ⟨r, hr⟩ := head?_eq_some_iff.mp hc
    refine ⟨.emptyObject w, ?_, trivial, by unfold Tree.depth; omega, rfl, rfl⟩
    change p.rest = '\x7b' :: w.chars ++ ['\x7d'] ++ (t.dropWhile isWs).drop 1
    rw [hp]
    nth_rewrite 1 [hw]
    rw [hr]
    simp
  · rw [if_neg hc, get_bind, bind_eq_ok] at hentries
    obtain ⟨out, p₂, hmembers, hentries⟩ := hentries
    obtain ⟨w', ms, hms, hadm, hd, rfl, hp₂⟩ := members_sound hv hmembers
    cases hentries
    have hms : t.dropWhile isWs = w'.chars ++ ms.text ++ '\x7d' :: p₂.rest := hms
    have hd : ms.depth ≤ maxDepth - (p.depth + 1) := hd
    have hp₂ : p₂.depth = p.depth + 1 := hp₂
    refine ⟨.object (w.append w') ms, ?_, hadm, ?_, ?_, ?_⟩
    · change p.rest = '\x7b' :: (w.chars ++ w'.chars) ++ ms.text ++ ['\x7d'] ++ p₂.rest
      rw [hp, hw, hms]
      simp
    · change ms.depth + 1 ≤ _
      omega
    · change SynValue.map (OrderedMap.lastWins ms.entries) = _
      rw [← OrderedMap.entries_ofList]
      rfl
    · change p₂.depth - 1 = p.depth
      omega

theorem value_sound (fuel : Nat) : Sound allowNan (Exact.value allowNan fuel) := by
  induction fuel with
  | zero => exact fun p p' v h => absurd h fail_ne_ok
  | succ fuel ih =>
    intro p p' v h
    change valueWith allowNan (Exact.value allowNan fuel) p = _ at h
    unfold valueWith at h
    rw [scan_peek_bind] at h
    by_cases h₁ : p.rest.head? = some '['
    · rw [if_pos h₁] at h
      obtain ⟨r, hr⟩ := head?_eq_some_iff.mp h₁
      obtain ⟨t, ht, hadm, hrest⟩ := array_sound ih hr h
      exact ⟨t, ht, fun _ => hadm, hrest⟩
    rw [if_neg h₁] at h
    by_cases h₂ : p.rest.head? = some '\x7b'
    · rw [if_pos h₂] at h
      obtain ⟨r, hr⟩ := head?_eq_some_iff.mp h₂
      obtain ⟨t, ht, hadm, hrest⟩ := object_sound ih hr h
      exact ⟨t, ht, fun _ => hadm, hrest⟩
    rw [if_neg h₂] at h
    obtain ⟨r, hs, rfl⟩ := scan_eq_ok.mp h
    obtain ⟨t, ht, hadm, hdepth, hval⟩ := scalar_sound hs
    exact ⟨t, ht, hadm, hdepth ▸ Nat.zero_le _, hval, rfl⟩

end Sound

/-! ## Completeness -/

/-- What is run returns `a`, with the text `r` left and the depth as it was. -/
def Reads {α : Type} (x : P α) (p : Parser) (a : α) (r : Text) : Prop :=
  ∃ p', x p = .ok a p' ∧ p'.rest = r ∧ p'.depth = p.depth

theorem number_text_cons (n : NumberToken) : ∃ c t, n.text = c :: t ∧ (c = '-' ∨ c.isDigit) := by
  have hhead (c : Char) (hc : c ∈ n.text.head?) : c = '-' ∨ c.isDigit = true :=
    number_head (r := []) (by rwa [append_nil])
  cases ht : n.text with
  | nil =>
    have hint : n.int.chars = [] := by
      simp only [NumberToken.text, append_eq_nil_iff] at ht
      exact ht.1.1.2
    exact absurd hint n.int.ne_nil
  | cons c t => exact ⟨c, t, rfl, hhead c (by rw [ht]; rfl)⟩

theorem scalar_head {t : Tree} (h : t.depth = 0) :
    ∃ c s, t.text = c :: s ∧ isWs c = false ∧ c ≠ '[' ∧ c ≠ ']' ∧ c ≠ '\x7b' ∧
      c.toNat < 128 := by
  cases t with
  | null => exact ⟨'n', _, rfl, rfl, by decide, by decide, by decide, by decide⟩
  | bool b =>
    cases b
    · exact ⟨'f', _, rfl, rfl, by decide, by decide, by decide, by decide⟩
    · exact ⟨'t', _, rfl, rfl, by decide, by decide, by decide, by decide⟩
  | number n =>
    obtain ⟨c, s, hs, hc⟩ := number_text_cons n
    refine ⟨c, s, hs, ?_⟩
    have hne (x : Char) (hx : x ≠ '-') (hd : x.isDigit = false) : c ≠ x := by
      rintro rfl
      rcases hc with hc | hc
      · exact hx hc
      · rw [hd] at hc
        cases hc
    refine ⟨?_, hne _ (by decide) rfl, hne _ (by decide) rfl, hne _ (by decide) rfl, ?_⟩
    · rw [Bool.eq_false_iff]
      intro hws
      rcases isWs_iff.mp hws with h | h | h | h
      all_goals exact hne _ (by decide) rfl h
    · rcases hc with rfl | hc
      · decide
      · exact (Char.isDigit_iff_toNat.mp hc).2.trans_lt (by decide)
  | str s => exact ⟨'"', _, rfl, rfl, by decide, by decide, by decide, by decide⟩
  | nan => exact ⟨'N', _, rfl, rfl, by decide, by decide, by decide, by decide⟩
  | infinity => exact ⟨'I', _, rfl, rfl, by decide, by decide, by decide, by decide⟩
  | negInfinity => exact ⟨'-', _, rfl, rfl, by decide, by decide, by decide, by decide⟩
  | emptyArray w | array w es | emptyObject w | object w ms => cases h

theorem tree_head (t : Tree) :
    ∃ c s, t.text = c :: s ∧ isWs c = false ∧ c ≠ ']' ∧ c.toNat < 128 := by
  by_cases h : t.depth = 0
  · obtain ⟨c, s, hs, hws, -, hc, -, hascii⟩ := scalar_head h
    exact ⟨c, s, hs, hws, hc, hascii⟩
  · cases t with
    | emptyArray w | array w es => exact ⟨'[', _, rfl, rfl, by decide, by decide⟩
    | emptyObject w | object w ms => exact ⟨'\x7b', _, rfl, rfl, by decide, by decide⟩
    | _ => exact absurd rfl h

theorem ends_tree (t : Tree) (r : Text) : Ends isWs (t.text ++ r) := by
  obtain ⟨c, s, hs, hws, -⟩ := tree_head t
  rw [hs]
  exact ends_cons.mpr hws

section Complete

variable {value : P SynValue} {n : Nat} {p : Parser} {v : SynValue}

variable {out : List SynValue} {w w' wk wv : Ws} {x k : Text} {s : List StrItem}

theorem elements_last {r : Text} (hp : p.rest = w.chars ++ x) (hx : Ends isWs x)
    (h : Reads value { p with rest := x } v (w'.chars ++ ']' :: r)) :
    Reads (elements value (n + 1) out) p (out ++ [v]) r := by
  obtain ⟨p', hv, hrest, hdepth⟩ := h
  unfold Reads elements
  rw [scan_ws_bind, hp, dropWhile_ws w hx, bind_of_eq_ok hv, scan_ws_bind, scan_peek_bind, hrest]
  dsimp only
  rw [dropWhile_ws w' (ends_cons.mpr rfl)]
  exact ⟨_, rfl, rfl, hdepth⟩

theorem elements_cons {l : List SynValue} {s r : Text} (hp : p.rest = w.chars ++ x)
    (hx : Ends isWs x) (h : Reads value { p with rest := x } v (w'.chars ++ ',' :: s))
    (hrec : ∀ p', p'.rest = s → p'.depth = p.depth → Reads (elements value n (out ++ [v])) p' l r) :
    Reads (elements value (n + 1) out) p l r := by
  obtain ⟨p', hv, hrest, hdepth⟩ := h
  obtain ⟨p'', hl, hrest', hdepth'⟩ := hrec { p' with rest := s } rfl hdepth
  refine ⟨p'', ?_, hrest', hdepth'.trans hdepth⟩
  unfold elements
  rw [scan_ws_bind, hp, dropWhile_ws w hx, bind_of_eq_ok hv, scan_ws_bind, scan_peek_bind, hrest]
  dsimp only
  rw [dropWhile_ws w' (ends_cons.mpr rfl)]
  exact hl

theorem key_complete (hs : StrItem.decode s = some k) {r : Text} (hp : p.rest = quoted s ++ r) :
    Reads key p k r := by
  have hstring : string p.rest = .ok k r := by
    rw [hp, quoted_append]
    exact string_eq_ok.mpr ⟨s, rfl, hs⟩
  have hscan : scan string p = .ok k { p with rest := r } := scan_eq_ok.mpr ⟨r, hstring, rfl⟩
  unfold Reads key
  rw [bind_of_eq_ok hscan]
  unfold shareKey
  cases hk : p.memo.keys.find? (· = k) with
  | none => exact ⟨_, rfl, rfl, rfl⟩
  | some k' =>
    obtain rfl : k' = k := by simpa using find?_some hk
    exact ⟨_, rfl, rfl, rfl⟩

variable {t : Text}

theorem members_round (out : List (Text × SynValue)) {c : Char} (hs : StrItem.decode s = some k)
    (hp : p.rest = w.chars ++ (quoted s ++ (wk.chars ++ ':' :: (wv.chars ++ x)))) (hx : Ends isWs x)
    (hc : isWs c = false)
    (h : ∀ p', p'.rest = x → p'.depth = p.depth → Reads value p' v (w'.chars ++ c :: t)) :
    ∃ p', p'.rest = c :: t ∧ p'.depth = p.depth ∧ members value (n + 1) out p =
      (if c = ',' then do
          scan (advance 1)
          members value n (out ++ [(k, v)])
        else if c = '\x7d' then do
          scan (advance 1)
          pure (out ++ [(k, v)])
        else fail "expected `,` or `\x7d`" : P (List (Text × SynValue))) p' := by
  have hquote := quoted_append s (wk.chars ++ ':' :: (wv.chars ++ x))
  have hws : (p.rest).dropWhile isWs = quoted s ++ (wk.chars ++ ':' :: (wv.chars ++ x)) := by
    rw [hp]
    refine dropWhile_ws w ?_
    rw [hquote]
    exact ends_cons.mpr rfl
  obtain ⟨p₁, hkey, hrest₁, hdepth₁⟩ := key_complete hs (p := { p with rest := _ }) hws
  have hdepth₁ : p₁.depth = p.depth := hdepth₁
  obtain ⟨p₂, hval, hrest₂, hdepth₂⟩ := h { p₁ with rest := x } rfl hdepth₁
  have hdepth₂ : p₂.depth = p₁.depth := hdepth₂
  refine ⟨{ p₂ with rest := c :: t }, rfl, hdepth₂.trans hdepth₁, ?_⟩
  have hcolon : p₁.rest.dropWhile isWs = ':' :: (wv.chars ++ x) := by
    rw [hrest₁]
    exact dropWhile_ws wk (ends_cons.mpr rfl)
  have hend : p₂.rest.dropWhile isWs = c :: t := by
    rw [hrest₂]
    exact dropWhile_ws w' (ends_cons.mpr hc)
  have hhead : (p.rest.dropWhile isWs).head? = some '"' := by
    rw [hws, hquote]
    rfl
  have hhead' : (p₁.rest.dropWhile isWs).head? = some ':' := by
    rw [hcolon]
    rfl
  have hvalue : ((p₁.rest.dropWhile isWs).drop 1).dropWhile isWs = x := by
    rw [hcolon]
    exact dropWhile_ws wv hx
  rw [members, scan_ws_bind, scan_peek_bind, require_bind_of (by rw [hhead]; rfl),
    require_bind_of (decide_eq_true hhead), bind_of_eq_ok hkey, scan_ws_bind, scan_peek_bind,
    require_bind_of (decide_eq_true hhead'), scan_advance_bind, scan_ws_bind, hvalue,
    bind_of_eq_ok hval, scan_ws_bind, scan_peek_bind, hend]
  rfl

theorem members_last (out : List (Text × SynValue)) {r : Text} (hs : StrItem.decode s = some k)
    (hp : p.rest = w.chars ++ (quoted s ++ (wk.chars ++ ':' :: (wv.chars ++ x)))) (hx : Ends isWs x)
    (h : ∀ p', p'.rest = x → p'.depth = p.depth → Reads value p' v (w'.chars ++ '\x7d' :: r)) :
    Reads (members value (n + 1) out) p (out ++ [(k, v)]) r := by
  obtain ⟨p', hrest, hdepth, heq⟩ := members_round (n := n) out hs hp hx rfl h
  refine ⟨{ p' with rest := r }, ?_, rfl, hdepth⟩
  rw [heq, if_neg (by decide), if_pos rfl, scan_advance_bind, hrest]
  rfl

theorem members_cons {out l : List (Text × SynValue)}
    {r : Text} (hs : StrItem.decode s = some k)
    (hp : p.rest = w.chars ++ (quoted s ++ (wk.chars ++ ':' :: (wv.chars ++ x))))
    (hx : Ends isWs x)
    (h : ∀ p', p'.rest = x → p'.depth = p.depth → Reads value p' v (w'.chars ++ ',' :: t))
    (hrec : ∀ p', p'.rest = t → p'.depth = p.depth →
      Reads (members value n (out ++ [(k, v)])) p' l r) :
    Reads (members value (n + 1) out) p l r := by
  obtain ⟨p', hrest, hdepth, heq⟩ := members_round (n := n) out hs hp hx rfl h
  obtain ⟨p'', hl, hrest', hdepth'⟩ := hrec { p' with rest := t } rfl hdepth
  refine ⟨p'', ?_, hrest', hdepth'.trans hdepth⟩
  rw [heq, if_pos rfl, scan_advance_bind, hrest]
  exact hl

theorem array_empty {r : Text} (hdepth : p.depth + 1 ≤ maxDepth)
    (hp : p.rest = '[' :: (w.chars ++ ']' :: r)) : Reads (array value) p (.list []) r := by
  have hws : (p.rest.drop 1).dropWhile isWs = ']' :: r := by
    rw [hp]
    exact dropWhile_ws w (ends_cons.mpr rfl)
  refine ⟨{ p with rest := r }, ?_, rfl, rfl⟩
  unfold array
  refine enter_bind_eq_ok.mpr ⟨hdepth, ?_⟩
  have hitems : items value { p with depth := p.depth + 1, rest := p.rest.drop 1 } =
      .ok [] { p with depth := p.depth + 1, rest := r } := by
    unfold items
    rw [scan_ws_bind, scan_peek_bind, hws]
    rfl
  rw [scan_advance_bind, bind_of_eq_ok hitems]
  rfl

theorem array_reads {r : Text} (hdepth : p.depth + 1 ≤ maxDepth)
    (hp : p.rest = '[' :: (w.chars ++ x)) (hx : Ends isWs x) (hne : x.head? ≠ some ']')
    (h : ∀ p', p'.rest = x → p'.depth = p.depth + 1 →
      Reads (elements value (x.length + 1) []) p' out r) :
    Reads (array value) p (.list out) r := by
  have hws : (p.rest.drop 1).dropWhile isWs = x := by
    rw [hp]
    exact dropWhile_ws w hx
  obtain ⟨p', hv, hrest, hd⟩ := h { p with depth := p.depth + 1, rest := x } rfl rfl
  have hd : p'.depth = p.depth + 1 := hd
  refine ⟨{ p' with depth := p'.depth - 1 }, ?_, hrest, by rw [hd]; rfl⟩
  unfold array
  refine enter_bind_eq_ok.mpr ⟨hdepth, ?_⟩
  have hitems : items value { p with depth := p.depth + 1, rest := p.rest.drop 1 } =
      .ok out p' := by
    unfold items
    rw [scan_ws_bind, scan_peek_bind, hws, if_neg hne, get_bind]
    exact hv
  rw [scan_advance_bind, bind_of_eq_ok hitems]
  rfl

theorem object_of_entries {r : Text} (hdepth : p.depth + 1 ≤ maxDepth) (hp : p.rest = '\x7b' :: x)
    (h : ∀ p', p'.rest = x → p'.depth = p.depth + 1 → Reads (entries value []) p' v r) :
    Reads (object value) p v r := by
  obtain ⟨m, hm⟩ := takeBuf_bind (fun out => do
    let v ← entries value out
    leave
    pure v) { p with depth := p.depth + 1, rest := p.rest.drop 1 }
  have hrest : p.rest.drop 1 = x := by
    rw [hp]
    rfl
  obtain ⟨p', hv, hrest', hd⟩ :=
    h { p with depth := p.depth + 1, rest := p.rest.drop 1, memo := m } hrest rfl
  have hd : p'.depth = p.depth + 1 := hd
  refine ⟨{ p' with depth := p'.depth - 1 }, ?_, hrest', by rw [hd]; rfl⟩
  unfold object
  refine enter_bind_eq_ok.mpr ⟨hdepth, ?_⟩
  rw [scan_advance_bind]
  refine hm.trans ?_
  rw [bind_of_eq_ok hv]
  rfl

theorem entries_empty {r : Text} (hp : p.rest = w.chars ++ '\x7d' :: r) :
    Reads (entries value []) p (.map []) r := by
  have hws : p.rest.dropWhile isWs = '\x7d' :: r := by
    rw [hp]
    exact dropWhile_ws w (ends_cons.mpr rfl)
  have hhead : (p.rest.dropWhile isWs).head? = some '\x7d' := by
    rw [hws]
    rfl
  unfold Reads entries
  rw [scan_ws_bind, scan_peek_bind, if_pos hhead, scan_advance_bind, hws]
  exact ⟨_, rfl, rfl, rfl⟩

theorem entries_reads {out : List (Text × SynValue)} {r : Text}
    (hp : p.rest = w.chars ++ x) (hx : Ends isWs x) (hne : x.head? ≠ some '\x7d')
    (h : ∀ p', p'.rest = x → p'.depth = p.depth →
      Reads (members value (x.length + 1) []) p' out r) :
    Reads (entries value []) p (.map (OrderedMap.lastWins out)) r := by
  obtain ⟨p', hv, hrest, hd⟩ := h { p with rest := x } rfl rfl
  have hws : p.rest.dropWhile isWs = x := by
    rw [hp]
    exact dropWhile_ws w hx
  unfold Reads entries
  rw [scan_ws_bind, scan_peek_bind, hws, if_neg hne, get_bind, bind_of_eq_ok hv,
    ← OrderedMap.entries_ofList]
  exact ⟨_, rfl, hrest, hd⟩

end Complete

section Complete

variable {allowNan : Bool} {fuel : Nat} {p : Parser} {r : Text}

theorem value_array {v : SynValue} {x : Text} (hp : p.rest = '[' :: x)
    (h : Reads (array (value allowNan fuel)) p v r) : Reads (value allowNan (fuel + 1)) p v r := by
  change Reads (valueWith allowNan (value allowNan fuel)) p v r
  unfold Reads valueWith
  rw [scan_peek_bind, hp]
  exact h

theorem value_object {v : SynValue} {x : Text} (hp : p.rest = '\x7b' :: x)
    (h : Reads (object (value allowNan fuel)) p v r) : Reads (value allowNan (fuel + 1)) p v r := by
  change Reads (valueWith allowNan (value allowNan fuel)) p v r
  unfold Reads valueWith
  rw [scan_peek_bind, hp]
  exact h

theorem value_scalar {t : Tree} (hd : t.depth = 0) (hadm : t.Admitted allowNan)
    (hp : p.rest = t.text ++ r) (hr : Ends isNumberChar r) :
    Reads (value allowNan (fuel + 1)) p t.value r := by
  obtain ⟨c, s, hs, -, h₁, -, h₂, -⟩ := scalar_head hd
  have hscan : scan (scalar allowNan) p = .ok t.value { p with rest := r } := by
    refine scan_eq_ok.mpr ⟨r, ?_, rfl⟩
    rw [hp]
    exact scalar_complete hd hadm hr
  have hhead : p.rest.head? = some c := by
    rw [hp, hs]
    rfl
  change Reads (valueWith allowNan (value allowNan fuel)) p t.value r
  unfold Reads valueWith
  rw [scan_peek_bind, hhead, if_neg (fun h => h₁ (Option.some.inj h)),
    if_neg (fun h => h₂ (Option.some.inj h)), hscan]
  exact ⟨_, rfl, rfl, rfl⟩

end Complete

theorem elements_head (es : Elements) (r : Text) :
    Ends isWs (es.text ++ r) ∧ (es.text ++ r).head? ≠ some ']' := by
  have h (v : Tree) (r : Text) : Ends isWs (v.text ++ r) ∧ (v.text ++ r).head? ≠ some ']' := by
    obtain ⟨c, s, hs, hws, hc, -⟩ := tree_head v
    rw [hs]
    exact ⟨ends_cons.mpr hws, fun h => hc (Option.some.inj h)⟩
  cases es with
  | last v w =>
    rw [Elements.text_last, append_assoc]
    exact h v _
  | cons v w w' es =>
    simp only [Elements.text_cons, append_assoc]
    exact h v _

theorem members_head (ms : Members) (r : Text) :
    Ends isWs (ms.text ++ r) ∧ (ms.text ++ r).head? ≠ some '\x7d' := by
  have h (s : List StrItem) (r : Text) :
      Ends isWs (quoted s ++ r) ∧ (quoted s ++ r).head? ≠ some '\x7d' := by
    rw [quoted_append]
    exact ⟨ends_cons.mpr rfl, fun h => absurd (Option.some.inj h) (by decide)⟩
  cases ms with
  | last k wk wv v w =>
    simp only [Members.text_last, append_assoc]
    exact h k _
  | cons k wk wv v w w' ms =>
    simp only [Members.text_cons, append_assoc]
    exact h k _

mutual

theorem value_complete {allowNan : Bool} (t : Tree) {fuel : Nat} {p : Parser} {r : Text}
    (hadm : t.Admitted allowNan) (hfuel : t.depth < fuel) (hdepth : p.depth + t.depth ≤ maxDepth)
    (hp : p.rest = t.text ++ r) (hr : Ends isNumberChar r) :
    Reads (value allowNan fuel) p t.value r := by
  obtain ⟨fuel, rfl⟩ : ∃ k, fuel = k + 1 := ⟨fuel - 1, by omega⟩
  by_cases hd : t.depth = 0
  · exact value_scalar hd hadm hp hr
  cases t with
  | null | bool _ | number _ | str _ | nan | infinity | negInfinity => exact (hd rfl).elim
  | emptyArray w =>
    have hp : p.rest = '[' :: (w.chars ++ ']' :: r) := by
      rw [hp]
      simp
    exact value_array hp (array_empty hdepth hp)
  | array w es =>
    have hp : p.rest = '[' :: (w.chars ++ (es.text ++ ']' :: r)) := by
      rw [hp]
      simp
    have hfuel : es.depth + 1 < fuel + 1 := hfuel
    have hdepth : p.depth + (es.depth + 1) ≤ maxDepth := hdepth
    obtain ⟨hws, hne⟩ := elements_head es (']' :: r)
    refine value_array hp (array_reads (by omega) hp hws hne fun p' hp' hd' => ?_)
    refine elements_complete es (w := .none) [] hadm (by omega) (by omega) ?_ hp'
    rw [length_append]
    omega
  | emptyObject w =>
    have hp : p.rest = '\x7b' :: (w.chars ++ '\x7d' :: r) := by
      rw [hp]
      simp
    exact value_object hp (object_of_entries hdepth hp fun p' hp' _ => entries_empty hp')
  | object w ms =>
    have hp : p.rest = '\x7b' :: (w.chars ++ (ms.text ++ '\x7d' :: r)) := by
      rw [hp]
      simp
    have hfuel : ms.depth + 1 < fuel + 1 := hfuel
    have hdepth : p.depth + (ms.depth + 1) ≤ maxDepth := hdepth
    obtain ⟨hws, hne⟩ := members_head ms ('\x7d' :: r)
    refine value_object hp (object_of_entries (by omega) hp fun p' hp' hd' => ?_)
    refine entries_reads hp' hws hne fun p'' hp'' hd'' => ?_
    refine members_complete ms (w := .none) [] hadm (by omega) (by omega) ?_ hp''
    rw [length_append]
    omega

theorem elements_complete {allowNan : Bool} (es : Elements) {w : Ws} {fuel n : Nat}
    (out : List SynValue) {p : Parser} {r : Text} (hadm : es.Admitted allowNan)
    (hfuel : es.depth < fuel) (hdepth : p.depth + es.depth ≤ maxDepth) (hn : es.text.length < n)
    (hp : p.rest = w.chars ++ (es.text ++ ']' :: r)) :
    Reads (elements (value allowNan fuel) n out) p (out ++ es.values) r := by
  obtain ⟨n, rfl⟩ : ∃ k, n = k + 1 := ⟨n - 1, by omega⟩
  cases es with
  | last v w' =>
    have hp : p.rest = w.chars ++ (v.text ++ (w'.chars ++ ']' :: r)) := by
      rw [hp]
      simp
    refine elements_last hp (ends_tree v _) (value_complete v hadm hfuel hdepth rfl ?_)
    exact ends_ws isNumberChar_of_isWs w' (ends_cons.mpr rfl)
  | cons v w' w'' es =>
    have hp : p.rest = w.chars ++ (v.text ++ (w'.chars ++ ',' ::
        (w''.chars ++ (es.text ++ ']' :: r)))) := by
      rw [hp]
      simp
    have hfuel := max_lt_iff.mp hfuel
    have hdepth : p.depth + max v.depth es.depth ≤ maxDepth := hdepth
    have hdepth := And.intro ((Nat.add_le_add_left (le_max_left ..) _).trans hdepth)
      ((Nat.add_le_add_left (le_max_right ..) _).trans hdepth)
    refine elements_cons hp (ends_tree v _)
      (value_complete v hadm.1 hfuel.1 hdepth.1 rfl ?_) fun p' hp' hd' => ?_
    · exact ends_ws isNumberChar_of_isWs w' (ends_cons.mpr rfl)
    · have hlen : es.text.length < n := by
        simp at hn
        omega
      have h := elements_complete es (out ++ [v.value]) hadm.2 hfuel.2
        (hd' ▸ hdepth.2) hlen hp'
      rwa [append_assoc] at h

theorem members_complete {allowNan : Bool} (ms : Members) {w : Ws} {fuel n : Nat}
    (out : List (Text × SynValue)) {p : Parser} {r : Text} (hadm : ms.Admitted allowNan)
    (hfuel : ms.depth < fuel) (hdepth : p.depth + ms.depth ≤ maxDepth) (hn : ms.text.length < n)
    (hp : p.rest = w.chars ++ (ms.text ++ '\x7d' :: r)) :
    Reads (members (value allowNan fuel) n out) p (out ++ ms.entries) r := by
  obtain ⟨n, rfl⟩ : ∃ k, n = k + 1 := ⟨n - 1, by omega⟩
  cases ms with
  | last s wk wv v w' =>
    obtain ⟨k, hk⟩ := Option.isSome_iff_exists.mp hadm.1
    have hp : p.rest = w.chars ++ (quoted s ++ (wk.chars ++ ':' :: (wv.chars ++
        (v.text ++ (w'.chars ++ '\x7d' :: r))))) := by
      rw [hp]
      simp
    have h := members_last (n := n) out hk hp (ends_tree v _) fun p' hp' hd' =>
      value_complete v hadm.2 hfuel (hd' ▸ hdepth) hp'
        (ends_ws isNumberChar_of_isWs w' (ends_cons.mpr rfl))
    have hentries : (Members.last s wk wv v w').entries = [(k, v.value)] := by
      simp [hk]
    rw [hentries]
    exact h
  | cons s wk wv v w' w'' ms =>
    obtain ⟨k, hk⟩ := Option.isSome_iff_exists.mp hadm.1
    have hp : p.rest = w.chars ++ (quoted s ++ (wk.chars ++ ':' :: (wv.chars ++
        (v.text ++ (w'.chars ++ ',' :: (w''.chars ++ (ms.text ++ '\x7d' :: r))))))) := by
      rw [hp]
      simp
    have hfuel := max_lt_iff.mp hfuel
    have hdepth : p.depth + max v.depth ms.depth ≤ maxDepth := hdepth
    have hdepth := And.intro ((Nat.add_le_add_left (le_max_left ..) _).trans hdepth)
      ((Nat.add_le_add_left (le_max_right ..) _).trans hdepth)
    have hentries : (Members.cons s wk wv v w' w'' ms).entries = (k, v.value) :: ms.entries := by
      simp [hk]
    rw [hentries]
    refine members_cons hk hp (ends_tree v _) (fun p' hp' hd' =>
      value_complete v hadm.2.1 hfuel.1 (hd' ▸ hdepth.1) hp'
        (ends_ws isNumberChar_of_isWs w' (ends_cons.mpr rfl))) fun p' hp' hd' => ?_
    have hlen : ms.text.length < n := by
      simp at hn
      omega
    have h := members_complete ms (out ++ [(k, v.value)]) hadm.2.2 hfuel.2
      (hd' ▸ hdepth.2) hlen hp'
    rwa [append_assoc] at h

end

/-! ## Documents -/

theorem document_sound {allowNan : Bool} {s : Text} {memo : Memo} {v : SynValue} {p' : Parser}
    (h : document allowNan ⟨s, 0, memo⟩ = .ok v p') :
    ∃ d : Document, s = d.text ∧ d.Admitted allowNan ∧ d.tree.value = v := by
  unfold document at h
  rw [scan_ws_bind, bind_eq_ok] at h
  obtain ⟨v, p₁, hv, h⟩ := h
  rw [scan_ws_bind, scan_peek_bind, require_bind_eq_ok, pure_eq_ok] at h
  obtain ⟨hend, rfl, -⟩ := h
  obtain ⟨w, hw⟩ := exists_ws s
  obtain ⟨w', hw'⟩ := exists_ws p₁.rest
  obtain ⟨t, ht, hadm, hdepth, rfl, -⟩ := value_sound _ _ _ _ hv
  have hnil : p₁.rest.dropWhile isWs = [] := by
    cases hr : p₁.rest.dropWhile isWs with
    | nil => rfl
    | cons c r =>
      rw [hr] at hend
      cases hend
  rw [hnil, append_nil] at hw'
  have ht : s.dropWhile isWs = t.text ++ p₁.rest := ht
  have hends : Ends isWordChar p₁.rest := by
    have h := ends_ws isWordChar_of_isWs w' (ends_nil isWordChar)
    rwa [append_nil, ← hw'] at h
  refine ⟨⟨w, t, w'⟩, ?_, ⟨hdepth, hadm hends⟩, rfl⟩
  rw [hw, ht, hw', Document.text, append_assoc]

theorem document_complete {allowNan : Bool} (hd : d.Admitted allowNan) (memo : Memo) :
    ∃ p', document allowNan ⟨d.text, 0, memo⟩ = .ok d.tree.value p' := by
  obtain ⟨w, t, w'⟩ := d
  obtain ⟨hdepth, hadm⟩ := hd
  have hws : (Document.text ⟨w, t, w'⟩).dropWhile isWs = t.text ++ w'.chars := by
    rw [Document.text, append_assoc]
    exact dropWhile_ws w (ends_tree t _)
  have hends : Ends isNumberChar w'.chars := by
    have h := ends_ws isNumberChar_of_isWs w' (ends_nil isNumberChar)
    rwa [append_nil] at h
  have hdepth' : 0 + t.depth ≤ maxDepth := (Nat.zero_add _).trans_le hdepth
  have hfuel : t.depth < maxDepth + 1 := Nat.lt_succ_of_le hdepth
  obtain ⟨p', hv, hrest, -⟩ :=
    value_complete (p := ⟨_, 0, memo⟩) t hadm hfuel hdepth' rfl hends
  have hnil : p'.rest.dropWhile isWs = [] := by
    have h := dropWhile_ws w' (ends_nil isWs)
    rwa [append_nil, ← hrest] at h
  unfold document
  rw [scan_ws_bind, hws, bind_of_eq_ok hv, scan_ws_bind, scan_peek_bind, hnil]
  exact ⟨_, rfl⟩

/-! ## What the documents of a call share -/

/-- Two results that differ in nothing but what is shared. -/
def Same {α : Type} : EStateM.Result Text Parser α → EStateM.Result Text Parser α → Prop
  | .ok a p, .ok b q => a = b ∧ p.rest = q.rest ∧ p.depth = q.depth
  | .error e p, .error f q => e = f ∧ p.rest = q.rest
  | _, _ => False

/-- What is run does not depend on what is shared. -/
def Agree {α : Type} (x : P α) : Prop :=
  ∀ p q : Parser, p.rest = q.rest → p.depth = q.depth → Same (x p) (x q)

namespace Agree

variable {α β : Type}

theorem bind {x : P α} {f : α → P β} (hx : Agree x) (hf : ∀ a, Agree (f a)) : Agree (x >>= f) := by
  intro p q hrest hdepth
  have h := hx p q hrest hdepth
  cases hp : x p with
  | ok a p' =>
    cases hq : x q with
    | ok b q' =>
      rw [hp, hq] at h
      obtain ⟨rfl, hrest', hdepth'⟩ := h
      rw [bind_of_eq_ok hp, bind_of_eq_ok hq]
      exact hf a p' q' hrest' hdepth'
    | error e q' =>
      rw [hp, hq] at h
      exact h.elim
  | error e p' =>
    cases hq : x q with
    | ok b q' =>
      rw [hp, hq] at h
      exact h.elim
    | error f q' =>
      rw [hp, hq] at h
      rw [bind_of_eq_error hp, bind_of_eq_error hq]
      exact h

theorem pure (a : α) : Agree (pure a : P α) := fun _ _ hrest hdepth => ⟨rfl, hrest, hdepth⟩

theorem fail (msg : String) : Agree (fail msg : P α) := fun _ _ hrest _ => ⟨rfl, hrest⟩

theorem require (b : Bool) (msg : String) : Agree (require b msg : P Unit) := by
  intro p q hrest hdepth
  cases b
  · exact ⟨rfl, hrest⟩
  · exact ⟨rfl, hrest, hdepth⟩

theorem scan (x : Scan α) : Agree (scan x) := by
  intro p q hrest hdepth
  unfold Exact.scan
  rw [hrest]
  cases x q.rest with
  | ok a r => exact ⟨rfl, rfl, hdepth⟩
  | error e r => exact ⟨rfl, rfl⟩

theorem get {f : Parser → P α} (hf : ∀ p, Agree (f p))
    (heq : ∀ p q, p.rest = q.rest → f p = f q) : Agree (get >>= f) := by
  intro p q hrest hdepth
  rw [get_bind, get_bind, heq p q hrest]
  exact hf q p q hrest hdepth

theorem ite {c : Prop} [Decidable c] {x y : P α} (hx : Agree x) (hy : Agree y) :
    Agree (if c then x else y) := by
  split_ifs
  · exact hx
  · exact hy

theorem enter : Agree enter := by
  intro p q hrest hdepth
  unfold Exact.enter
  rw [hdepth]
  dsimp only
  split_ifs
  · exact ⟨rfl, hrest⟩
  · exact ⟨rfl, hrest, rfl⟩

theorem leave : Agree leave :=
  fun _ _ hrest hdepth => ⟨rfl, hrest, congrArg (· - 1) hdepth⟩

theorem takeBuf : Agree takeBuf := fun _ _ hrest hdepth => ⟨rfl, hrest, hdepth⟩

theorem putBuf (out : List (Text × SynValue)) : Agree (putBuf out) :=
  fun _ _ hrest hdepth => ⟨rfl, hrest, hdepth⟩

theorem setCap (n : Nat) : Agree (setCap n) := fun _ _ hrest hdepth => ⟨rfl, hrest, hdepth⟩

theorem shareKey (t : Text) : Agree (shareKey t) := by
  have hshare (p : Parser) : ∃ m, Exact.shareKey t p = .ok t { p with memo := m } := by
    unfold Exact.shareKey
    cases hk : p.memo.keys.find? (· = t) with
    | none => exact ⟨_, rfl⟩
    | some k =>
      obtain rfl : k = t := by simpa using find?_some hk
      exact ⟨p.memo, rfl⟩
  intro p q hrest hdepth
  obtain ⟨m, hp⟩ := hshare p
  obtain ⟨m', hq⟩ := hshare q
  rw [hp, hq]
  exact ⟨rfl, hrest, hdepth⟩

theorem key : Agree key := (scan string).bind shareKey

variable {inner : P SynValue}

theorem elements (hv : Agree inner) (n : Nat) (out : List SynValue) :
    Agree (elements inner n out) := by
  induction n generalizing out with
  | zero => exact fail _
  | succ n ih =>
    unfold Exact.elements
    refine (scan ws).bind fun _ ↦ hv.bind fun v ↦ (scan ws).bind fun _ ↦ (scan peek).bind fun c ↦ ?_
    cases c with
    | none => exact fail _
    | some c =>
      refine ite ((scan _).bind fun _ => ih _) (ite ((scan _).bind fun _ => pure _) (fail _))

theorem array (hv : Agree inner) : Agree (array inner) := by
  unfold Exact.array items
  refine enter.bind fun _ => (scan _).bind fun _ => bind ?_ fun out => leave.bind fun _ => pure _
  refine (scan ws).bind fun _ => (scan peek).bind fun c => ite ((scan _).bind fun _ => pure _) ?_
  exact get (fun p => elements hv _ _) fun p q h => by rw [h]

theorem members (hv : Agree inner) (n : Nat) (out : List (Text × SynValue)) :
    Agree (members inner n out) := by
  induction n generalizing out with
  | zero => exact fail _
  | succ n ih =>
    unfold Exact.members
    refine (scan ws).bind fun _ => (scan peek).bind fun c => (require _ _).bind fun _ =>
      (require _ _).bind fun _ ↦ key.bind fun k ↦ (scan ws).bind fun _ ↦ (scan peek).bind fun c ↦
      (require _ _).bind fun _ => (scan _).bind fun _ => (scan ws).bind fun _ => hv.bind fun v =>
      (scan ws).bind fun _ => (scan peek).bind fun c => ?_
    cases c with
    | none => exact fail _
    | some c =>
      exact ite ((scan _).bind fun _ => ih _) (ite ((scan _).bind fun _ => pure _) (fail _))

theorem object (hv : Agree inner) : Agree (object inner) := by
  unfold Exact.object entries
  refine enter.bind fun _ => (scan _).bind fun _ => takeBuf.bind fun out => bind ?_ fun v =>
    leave.bind fun _ => pure _
  refine (scan ws).bind fun _ => (scan peek).bind fun c =>
    ite ((scan _).bind fun _ => (putBuf _).bind fun _ => pure _) ?_
  refine get (fun p => (members hv _ _).bind fun out => ?_) fun p q h => by rw [h]
  exact (setCap _).bind fun _ => (putBuf _).bind fun _ => pure _

theorem value (allowNan : Bool) (fuel : Nat) : Agree (value allowNan fuel) := by
  induction fuel with
  | zero => exact fail _
  | succ fuel ih =>
    exact (scan peek).bind fun c => ite ih.array (ite ih.object (scan _))

theorem document (allowNan : Bool) : Agree (document allowNan) :=
  (scan ws).bind fun _ => (value allowNan _).bind fun _ => (scan ws).bind fun _ =>
    (scan peek).bind fun _ => (require _ _).bind fun _ => pure _

end Agree

theorem parseWith_memo (text : Text) (allowNan : Bool) (memo : Memo) :
    (parseWith text allowNan memo).1 = parseOpts text allowNan := by
  have h := Agree.document allowNan ⟨dropBom text, 0, memo⟩ ⟨dropBom text, 0, {}⟩ rfl rfl
  unfold parseOpts parseWith
  dsimp only
  cases hp : document allowNan ⟨dropBom text, 0, memo⟩ with
  | ok v p =>
    cases hq : document allowNan ⟨dropBom text, 0, {}⟩ with
    | ok w q =>
      rw [hp, hq] at h
      rw [h.1]
    | error e q =>
      rw [hp, hq] at h
      exact h.elim
  | error e p =>
    cases hq : document allowNan ⟨dropBom text, 0, {}⟩ with
    | ok w q =>
      rw [hp, hq] at h
      exact h.elim
    | error f q =>
      rw [hp, hq] at h
      obtain ⟨rfl, hrest⟩ := h
      change Except.error (report (dropBom text) e p.rest) = _
      rw [hrest]

/-- The results of the documents of a call, in their order. -/
def parseAll (allowNan : Bool) : List Text → Memo → List (Except Text SynValue)
  | [], _ => []
  | t :: ts, memo =>
    let (r, memo) := parseWith t allowNan memo
    r :: parseAll allowNan ts memo

theorem parseOpts_eq_ok {allowNan : Bool} {v : SynValue} :
    parseOpts text allowNan = .ok v ↔
      ∃ p', document allowNan ⟨dropBom text, 0, {}⟩ = .ok v p' := by
  unfold parseOpts parseWith
  dsimp only
  cases document allowNan ⟨dropBom text, 0, {}⟩ with
  | ok w p | error e p => simp

theorem parseOpts_of_document {allowNan : Bool} (ht : dropBom text = d.text)
    (hd : d.Admitted allowNan) : parseOpts text allowNan = .ok d.tree.value := by
  rw [parseOpts_eq_ok, ht]
  exact document_complete hd {}

/-- **The JSON parser accepts precisely its grammar**: without its byte order mark the text is
a document within the limits, and the result is the value of the document.  The documents of a
call do not change each other's results. -/
theorem parse_accepts (allowNan : Bool) :
    (∀ text v, parseOpts text allowNan = .ok v ↔
      ∃ d : Document, dropBom text = d.text ∧ d.Admitted allowNan ∧ d.tree.value = v) ∧
    ∀ texts memo, parseAll allowNan texts memo = texts.map fun t => parseOpts t allowNan := by
  constructor
  · intro text v
    constructor
    · intro h
      obtain ⟨p', hp⟩ := parseOpts_eq_ok.mp h
      exact document_sound hp
    · rintro ⟨d, ht, hd, rfl⟩
      exact parseOpts_of_document ht hd
  · intro texts
    induction texts with
    | nil => exact fun memo => rfl
    | cons t ts ih =>
      intro memo
      change (parseWith t allowNan memo).1 :: parseAll allowNan ts (parseWith t allowNan memo).2 = _
      rw [parseWith_memo, ih, map_cons]

end Synsema.Json.Exact
