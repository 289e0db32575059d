import Synsema.Httpsig.Model

/-!
# The parameters of a signature

The verifier finds the parameters again by searching the text for their names.  What it finds in
the parameters of a signature is what was written there, unless the key's id ends like the
beginning of another parameter.
-/

namespace Synsema.Httpsig

open Text Bytesutil List

/-! ## The first occurrence -/

theorem append_quote_inj {s t u v : Text} (hs : '"' ∉ s) (ht : '"' ∉ t)
    (h : s ++ '"' :: u = t ++ '"' :: v) : s = t ∧ u = v := by
  have h₁ := splitOnce_append hs u
  rw [h, splitOnce_append ht v] at h₁
  obtain ⟨rfl, rfl⟩ := Prod.mk.inj (Option.some.inj h₁)
  exact ⟨rfl, rfl⟩

theorem splitOnceStr_quote {n s : Text} (hn : '"' ∉ n) (hne : n ≠ []) (hs : '"' ∉ s) (rest : Text) :
    (n <:+ s → ∃ l, splitOnceStr (n ++ ['"']) (s ++ '"' :: rest) = some (l, rest)) ∧
      (¬ n <:+ s → splitOnceStr (n ++ ['"']) (s ++ '"' :: rest) =
        (splitOnceStr (n ++ ['"']) rest).map fun p => (s ++ '"' :: p.1, p.2)) := by
  have hnone : ∀ {s}, '"' ∉ s → s ≠ n → stripPrefix (n ++ ['"']) (s ++ '"' :: rest) = none := by
    intro s hs hsn
    rw [Option.eq_none_iff_forall_ne_some]
    intro u hu
    have heq := stripPrefix_eq_some.mp hu
    rw [append_assoc, singleton_append] at heq
    exact hsn (append_quote_inj hs hn heq).1
  induction s with
  | nil =>
    refine ⟨fun h => (hne (suffix_nil.mp h)).elim, fun _ => ?_⟩
    have hfirst := hnone not_mem_nil (Ne.symm hne)
    rw [nil_append] at hfirst ⊢
    rw [splitOnceStr, hfirst]
    rfl
  | cons c s ih =>
    obtain ⟨hfound, hrest⟩ := ih fun h => hs (mem_cons_of_mem _ h)
    by_cases hcs : c :: s = n
    · refine ⟨fun _ => ⟨[], ?_⟩, fun h => (h (hcs ▸ suffix_refl _)).elim⟩
      have hprefix : stripPrefix (n ++ ['"']) (c :: (s ++ '"' :: rest)) = some rest := by
        rw [stripPrefix_eq_some, ← hcs]
        simp
      rw [cons_append, splitOnceStr, hprefix]
    · have hfirst := hnone hs hcs
      rw [cons_append] at hfirst
      have hsuffix : n <:+ c :: s ↔ n <:+ s := by
        rw [suffix_cons_iff]
        exact ⟨fun h => h.resolve_left fun h => hcs h.symm, Or.inr⟩
      rw [hsuffix, cons_append, splitOnceStr, hfirst]
      refine ⟨fun h => ?_, fun h => ?_⟩
      · obtain ⟨l, hl⟩ := hfound h
        exact ⟨c :: l, by rw [hl]; rfl⟩
      · rw [hrest h, Option.map_map]
        rfl

theorem splitOnceStr_no_quote {n t : Text} (ht : '"' ∉ t) : splitOnceStr (n ++ ['"']) t = none := by
  have hnone : ∀ {t}, '"' ∉ t → stripPrefix (n ++ ['"']) t = none := by
    intro t ht
    rw [Option.eq_none_iff_forall_ne_some]
    intro u hu
    rw [stripPrefix_eq_some.mp hu] at ht
    exact ht (by simp)
  induction t with
  | nil => rw [splitOnceStr, hnone ht]; rfl
  | cons c t ih =>
    rw [splitOnceStr, hnone ht, ih fun h => ht (mem_cons_of_mem _ h)]
    rfl

/-! ## Parameters in quotes -/

/-- What stands before the value of a parameter, up to its quote. -/
def key (name : Text) : Text := [';'] ++ name ++ ['=']

section Quotes

variable {name s rest : Text}

theorem paramStr_eq (params name : Text) :
    paramStr params name = (splitOnceStr (key name ++ ['"']) params).bind fun p =>
      (splitOnce '"' p.2).map Prod.fst := by
  have hkey : [';'] ++ name ++ "=\"" = key name ++ ['"'] := by
    rw [key, append_assoc _ ['=']]
    rfl
  rw [paramStr, hkey, Option.bind_eq_bind]
  congr 1
  funext p
  cases splitOnce '"' p.2 <;> rfl

theorem paramStr_found (hname : '"' ∉ name) (hs : '"' ∉ s) (h : key name <:+ s) {v : Text}
    (hv : '"' ∉ v) : paramStr (s ++ '"' :: (v ++ '"' :: rest)) name = some v := by
  have hkey : '"' ∉ key name := by simp [key, hname]
  obtain ⟨l, hl⟩ := (splitOnceStr_quote hkey (by simp [key]) hs (v ++ '"' :: rest)).1 h
  rw [paramStr_eq, hl, Option.bind_some, splitOnce_append hv]
  rfl

theorem paramStr_skip (hname : '"' ∉ name) (hs : '"' ∉ s) (h : ¬ key name <:+ s) :
    paramStr (s ++ '"' :: rest) name = paramStr rest name := by
  have hkey : '"' ∉ key name := by simp [key, hname]
  rw [paramStr_eq, paramStr_eq,
    (splitOnceStr_quote hkey (by simp [key]) hs rest).2 h, Option.bind_map]
  rfl

theorem paramStr_none (hs : '"' ∉ s) : paramStr s name = none := by
  rw [paramStr_eq, splitOnceStr_no_quote hs, Option.bind_none]

end Quotes

/-! ## The parameters as they are written -/

/-- What a parameter in quotes may be. -/
def Plain (value : Text) : Prop :=
  value ≠ [] ∧ '"' ∉ value ∧ '\\' ∉ value ∧ ∀ c ∈ value, isAsciiControl c = false

theorem checkParam_ok {name value : Text} : checkParam name value = .ok () ↔ Plain value := by
  rw [checkParam, Plain]
  by_cases hempty : value = []
  · rw [if_pos hempty]
    exact ⟨nofun, fun h => (h.1 hempty).elim⟩
  rw [if_neg hempty]
  by_cases hbad : value.contains '"' ∨ value.contains '\\' ∨ value.any isAsciiControl
  · rw [if_pos hbad]
    refine ⟨nofun, fun h => ?_⟩
    simp only [contains_iff_mem, any_eq_true] at hbad
    rcases hbad with hq | hb | ⟨c, hc, hcontrol⟩
    · exact (h.2.1 hq).elim
    · exact (h.2.2.1 hb).elim
    · rw [h.2.2.2 c hc] at hcontrol
      cases hcontrol
  · rw [if_neg hbad]
    simp only [contains_iff_mem, any_eq_true, not_or, not_exists, not_and, Bool.not_eq_true] at hbad
    exact ⟨fun _ => ⟨hempty, hbad⟩, fun _ => rfl⟩

section Written

variable {alg : SigAlg} {created : Int64} {keyid : Text} {nonce : Option Text}

theorem shownInt_chars (n : Int64) : ∀ c ∈ shownInt n, c.isDigit ∨ c = '-' := by
  intro c hc
  rw [shownInt, toString_eq, mem_append] at hc
  rcases hc with hc | hc
  · rw [sign] at hc
    split_ifs at hc
    · exact Or.inr (mem_singleton.mp hc)
    · exact absurd hc not_mem_nil
  · exact Or.inl (all_eq_true.mp (allDigits_digits _) c hc)

theorem not_mem_shownInt {n : Int64} {c : Char} (hdigit : c.isDigit = false) (hminus : c ≠ '-') :
    c ∉ shownInt n := by
  intro hc
  rcases shownInt_chars n c hc with h | h
  · rw [hdigit] at h
    cases h
  · exact hminus h

theorem signatureParams_eq : signatureParams alg created keyid nonce =
    "(" ++ '"' :: ("@method" ++ '"' :: (" " ++ '"' ::
      ("@target-uri" ++ '"' :: (" " ++ '"' :: ("content-digest" ++ '"' ::
        ((")" ++ ";created=" ++ shownInt created ++ ";keyid=") ++ '"' ::
          (keyid ++ '"' :: (";alg=" ++ '"' :: (alg.name ++ '"' ::
            match nonce with
            | some n => ";nonce=" ++ '"' :: (n ++ '"' :: [])
            | none => []))))))))) := by
  have hcovered : covered = "(" ++ '"' :: ("@method" ++ '"' :: (" " ++ '"' ::
      ("@target-uri" ++ '"' :: (" " ++ '"' :: ("content-digest" ++ '"' ::
        ")"))))) := by decide
  cases nonce <;> simp only [signatureParams, hcovered, quoted, append_assoc,
    cons_append, nil_append, append_nil]

theorem key_suffix_keyid {name l : Text} (hlen : (key name).length ≤ 7) :
    key name <:+ l ++ ";keyid=" ↔ key name <:+ ";keyid=" := by
  constructor
  · intro h
    exact suffix_of_suffix_length_le h (suffix_append _ _) hlen
  · exact fun h => h.trans (suffix_append _ _)

theorem paramStr_keyid_piece {name : Text} (hname : '"' ∉ name)
    (hpieces : ∀ s ∈ ["(".toList, "@method".toList, " ".toList, "@target-uri".toList,
      "content-digest"], ¬ key name <:+ s) :
    paramStr (signatureParams alg created keyid nonce) name =
      paramStr ((")" ++ ";created=" ++ shownInt created ++ ";keyid=") ++ '"' ::
          (keyid ++ '"' :: (";alg=" ++ '"' :: (alg.name ++ '"' ::
            match nonce with
            | some n => ";nonce=" ++ '"' :: (n ++ '"' :: [])
            | none => [])))) name := by
  simp only [forall_mem_cons] at hpieces
  obtain ⟨h₁, h₂, h₃, h₄, h₅, -⟩ := hpieces
  rw [signatureParams_eq, paramStr_skip hname (by decide) h₁, paramStr_skip hname (by decide) h₂,
    paramStr_skip hname (by decide) h₃, paramStr_skip hname (by decide) h₄,
    paramStr_skip hname (by decide) h₃, paramStr_skip hname (by decide) h₅]

theorem not_mem_createdPiece :
    '"' ∉ ")".toList ++ ";created=" ++ shownInt created ++ ";keyid=" := by
  have h := not_mem_shownInt (n := created) (c := '"') (by decide) (by decide)
  simp [h]

theorem paramStr_keyid (hkeyid : '"' ∉ keyid) :
    paramStr (signatureParams alg created keyid nonce) "keyid" = some keyid := by
  rw [paramStr_keyid_piece (by decide) (by decide)]
  exact paramStr_found (by decide) not_mem_createdPiece (suffix_append _ _) hkeyid

theorem paramStr_alg (hkeyid : '"' ∉ keyid) :
    paramStr (signatureParams alg created keyid nonce) "alg" =
      if ";alg=" <:+ keyid then some ";alg=".toList else some alg.name := by
  have hpiece : ¬ key "alg" <:+
      ")" ++ ";created=" ++ shownInt created ++ ";keyid=" := by
    rw [key_suffix_keyid (by decide)]
    decide
  rw [paramStr_keyid_piece (by decide) (by decide),
    paramStr_skip (by decide) not_mem_createdPiece hpiece]
  have hkey : key "alg" = ";alg=" := by decide
  by_cases h : ";alg=" <:+ keyid
  · rw [if_pos h]
    exact paramStr_found (by decide) hkeyid (hkey ▸ h) (by decide)
  · rw [if_neg h, paramStr_skip (by decide) hkeyid (hkey ▸ h)]
    have halg : '"' ∉ alg.name := by cases alg <;> decide
    exact paramStr_found (by decide) (by decide) (by decide) halg

theorem paramStr_nonce (hkeyid : '"' ∉ keyid) (hnonce : ∀ n ∈ nonce, '"' ∉ n) :
    paramStr (signatureParams alg created keyid nonce) "nonce" =
      if ";nonce=" <:+ keyid then some ";alg=".toList else nonce := by
  have hpiece : ¬ key "nonce" <:+
      ")" ++ ";created=" ++ shownInt created ++ ";keyid=" := by
    rw [key_suffix_keyid (by decide)]
    decide
  rw [paramStr_keyid_piece (by decide) (by decide),
    paramStr_skip (by decide) not_mem_createdPiece hpiece]
  have hkey : key "nonce" = ";nonce=" := by decide
  by_cases h : ";nonce=" <:+ keyid
  · rw [if_pos h]
    exact paramStr_found (by decide) hkeyid (hkey ▸ h) (by decide)
  · have halg : '"' ∉ alg.name := by cases alg <;> decide
    have hnot : ¬ key "nonce" <:+ alg.name := by cases alg <;> decide
    rw [if_neg h, paramStr_skip (by decide) hkeyid (hkey ▸ h), paramStr_skip (by decide)
      (by decide) (by decide), paramStr_skip (by decide) halg hnot]
    cases nonce with
    | none => exact paramStr_none not_mem_nil
    | some n => exact paramStr_found (by decide) (by decide) (by decide) (hnonce n rfl)

/-! ## The time of the signature -/

theorem parseI64_shownInt (n : Int64) : parseI64 (shownInt n) = some n := by
  have hdigits := allDigits_digits n.toInt.natAbs
  have hne := digits_ne_nil n.toInt.natAbs
  have hlow := n.le_toInt
  have hhigh := n.toInt_lt
  have hback : ∀ i : Int, i = n.toInt →
      (if -2 ^ 63 ≤ i ∧ i < 2 ^ 63 then some (Int64.ofInt i) else none) = some n := by
    rintro i rfl
    rw [if_pos ⟨hlow, hhigh⟩, Int64.ofInt_toInt]
  have hall : ¬ (digits n.toInt.natAbs = [] ∨ allDigits (digits n.toInt.natAbs) = false) := by
    rw [hdigits, not_or]
    exact ⟨hne, Bool.true_eq_false.mp⟩
  rw [shownInt, toString_eq, sign]
  by_cases hneg : n.toInt < 0
  · simp only [if_pos hneg, parseI64, singleton_append, head?_cons, tail_cons, true_or, if_true,
      if_neg hall, ofDigitChars_digits]
    exact hback _ (by omega)
  · obtain ⟨c, t, ht⟩ := exists_cons_of_ne_nil hne
    have hc : c.isDigit := by
      rw [ht, allDigits, all_cons, Bool.and_eq_true] at hdigits
      exact hdigits.1
    have hhead : ∀ d : Char, d.isDigit = false → (digits n.toInt.natAbs).head? ≠ some d := by
      intro d hd h
      rw [ht, head?_cons, Option.some.injEq] at h
      rw [h, hd] at hc
      cases hc
    simp only [if_neg hneg, parseI64, nil_append, hhead '-' (by decide),
      hhead '+' (by decide), or_self, if_false, if_neg hall, ofDigitChars_digits]
    exact hback _ (by omega)

theorem paramInt_created :
    paramInt (signatureParams alg created keyid nonce) "created" = some created := by
  have hsplit : ∃ rest, splitOnceStr ([';'] ++ "created" ++ ['='])
      (signatureParams alg created keyid nonce) =
        some (covered, shownInt created ++ ';' :: rest) := by
    refine ⟨"keyid=" ++ quoted keyid ++ ";alg=" ++ quoted alg.name ++
      (match nonce with
        | some n => ";nonce=" ++ quoted n
        | none => []), ?_⟩
    have hparams : signatureParams alg created keyid nonce = covered ++ (';' :: "created=" ++
        (shownInt created ++ ';' :: ("keyid=" ++ quoted keyid ++ ";alg=" ++
          quoted alg.name ++ (match nonce with
            | some n => ";nonce=" ++ quoted n
            | none => [])))) := by
      cases nonce <;> simp [signatureParams]
    rw [hparams]
    exact splitOnceStr_append (by decide) _ _
  obtain ⟨rest, hrest⟩ := hsplit
  have htake : (shownInt created ++ ';' :: rest).takeWhile (fun c => c.isDigit || c == '-') =
      shownInt created := by
    rw [takeWhile_append_of_pos, takeWhile_cons_of_neg (by decide), append_nil]
    intro c hc
    rw [Bool.or_eq_true, beq_iff_eq]
    exact shownInt_chars created c hc
  rw [paramInt, hrest]
  simp only [Option.bind_eq_bind, Option.bind_some, htake, parseI64_shownInt]

theorem trim_signatureParams :
    trim (signatureParams alg created keyid nonce) = signatureParams alg created keyid nonce := by
  have hlast : ∃ l, signatureParams alg created keyid nonce = l ++ ['"'] := by
    cases nonce with
    | none =>
      refine ⟨covered ++ ";created=" ++ shownInt created ++ ";keyid=" ++
        quoted keyid ++ ";alg=" ++ '"' :: alg.name, ?_⟩
      simp only [signatureParams, quoted, append_assoc, cons_append, nil_append, append_nil]
    | some n =>
      refine ⟨covered ++ ";created=" ++ shownInt created ++ ";keyid=" ++
        quoted keyid ++ ";alg=" ++ quoted alg.name ++ ";nonce=" ++ '"' :: n, ?_⟩
      simp only [signatureParams, quoted, append_assoc, cons_append, nil_append]
  obtain ⟨l, hl⟩ := hlast
  refine trim_eq_self (fun c hc => ?_) (fun c hc => ?_)
  · rw [signatureParams_eq] at hc
    cases hc
    decide
  · rw [hl, getLast?_concat, Option.mem_some_iff] at hc
    subst hc
    decide

end Written

end Synsema.Httpsig
