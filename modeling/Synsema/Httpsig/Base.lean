import Synsema.Httpsig.Params

/-!
# What a signed text says

The signed text is its four fields between three separators.  A separator begins with a newline
and has no other, so that two ways to take a text apart either agree or one of them has the
other's separator inside a field.  Of the fields only the URL of the signer, and the parameters
as a verifier gets them, can hold a newline: what one signer wrote as a URL, a verifier may read
as a shorter URL, a digest, and the beginning of the parameters.
-/

namespace Synsema.Httpsig

open Text Bytesutil List

/-! ## Upper and lower case -/

theorem toUpper_toNat (c : Char) : c.toUpper.val.toNat =
    if 97 ≤ c.val.toNat ∧ c.val.toNat ≤ 122 then c.val.toNat - 32 else c.val.toNat := by
  have hcase : ('a'.val ≤ c.val ∧ c.val ≤ 'z'.val) ↔
      (97 ≤ c.val.toNat ∧ c.val.toNat ≤ 122) := by
    simp only [UInt32.le_iff_toNat_le]
    exact Iff.rfl
  unfold Char.toUpper
  by_cases hc : 97 ≤ c.val.toNat ∧ c.val.toNat ≤ 122
  · have hshift : ('A'.val - 'a'.val).toNat = 2 ^ 32 - 32 := by decide
    rw [dif_pos (hcase.mpr hc), if_pos hc, UInt32.toNat_add, hshift]
    omega
  · rw [dif_neg (mt hcase.mp hc), if_neg hc]

theorem toLower_toNat (c : Char) : c.toLower.val.toNat =
    if 65 ≤ c.val.toNat ∧ c.val.toNat ≤ 90 then c.val.toNat + 32 else c.val.toNat := by
  have hcase : (c.val ≥ 'A'.val ∧ c.val ≤ 'Z'.val) ↔
      (65 ≤ c.val.toNat ∧ c.val.toNat ≤ 90) := by
    simp only [ge_iff_le, UInt32.le_iff_toNat_le]
    exact Iff.rfl
  unfold Char.toLower
  by_cases hc : 65 ≤ c.val.toNat ∧ c.val.toNat ≤ 90
  · have hshift : ('a'.val - 'A'.val).toNat = 32 := by decide
    rw [dif_pos (hcase.mpr hc), if_pos hc, UInt32.toNat_add, hshift]
    omega
  · rw [dif_neg (mt hcase.mp hc), if_neg hc]

theorem toLower_toUpper (c : Char) : c.toUpper.toLower = c.toLower := by
  rw [Char.ext_iff, ← UInt32.toNat_inj, toLower_toNat, toLower_toNat, toUpper_toNat]
  split_ifs <;> omega

theorem toUpper_ne_t (c : Char) : c.toUpper ≠ 't' := by
  intro h
  have hval := toUpper_toNat c
  have ht : ('t'.val).toNat = 116 := by decide
  rw [h, ht] at hval
  split_ifs at hval <;> omega

theorem eqIgnoreAsciiCase_of_upper {s t : Text}
    (h : toAsciiUppercase s = toAsciiUppercase t) : eqIgnoreAsciiCase s t = true := by
  have hlower : ∀ s : Text, (toAsciiUppercase s).map Char.toLower = toAsciiLowercase s := by
    intro s
    rw [toAsciiUppercase, toAsciiLowercase, map_map]
    exact map_congr_left fun c _ => toLower_toUpper c
  rw [eqIgnoreAsciiCase, ← hlower, ← hlower, h]
  exact beq_self_eq_true _

/-! ## Separators -/

section Separators

variable {α : Type*} {c : α} {n a a' b b' : List α}

theorem append_sep_left (hc : c ∉ n) {z : List α} (h : c :: (n ++ b) = z ++ c :: (n ++ b')) :
    z = [] ∧ b = b' ∨ ∃ y, z = c :: (n ++ y) ∧ b = y ++ c :: (n ++ b') := by
  cases z with
  | nil => exact Or.inl ⟨rfl, append_cancel_left (cons.inj h).2⟩
  | cons d z =>
    obtain ⟨rfl, htail⟩ := cons.inj h
    rcases append_eq_append_iff.mp htail with ⟨y, rfl, hb⟩ | ⟨y, rfl, hb⟩
    · exact Or.inr ⟨y, rfl, hb⟩
    · -- the rest of the separator would hold its first character
      cases y with
      | nil => exact Or.inr ⟨[], by simp, by simpa using hb.symm⟩
      | cons d y =>
        obtain ⟨rfl, -⟩ := cons.inj hb
        exact (hc (mem_append_right _ mem_cons_self)).elim

theorem append_sep_cases (hc : c ∉ n) (h : a ++ c :: (n ++ b) = a' ++ c :: (n ++ b')) :
    a = a' ∧ b = b' ∨ (∃ y, a' = a ++ c :: (n ++ y) ∧ b = y ++ c :: (n ++ b')) ∨
      ∃ y, a = a' ++ c :: (n ++ y) ∧ b' = y ++ c :: (n ++ b) := by
  rcases append_eq_append_iff.mp h with ⟨z, rfl, hz⟩ | ⟨z, rfl, hz⟩
  · rcases append_sep_left hc hz with ⟨rfl, hb⟩ | ⟨y, rfl, hb⟩
    · exact Or.inl ⟨(append_nil a).symm, hb⟩
    · exact Or.inr (Or.inl ⟨y, rfl, hb⟩)
  · rcases append_sep_left hc hz with ⟨rfl, hb⟩ | ⟨y, rfl, hb⟩
    · exact Or.inl ⟨append_nil a', hb.symm⟩
    · exact Or.inr (Or.inr ⟨y, rfl, hb⟩)

theorem append_sep_inj (hc : c ∉ n) (ha : c ∉ a) (ha' : c ∉ a')
    (h : a ++ c :: (n ++ b) = a' ++ c :: (n ++ b')) : a = a' ∧ b = b' := by
  rcases append_sep_cases hc h with h | ⟨y, rfl, -⟩ | ⟨y, rfl, -⟩
  · exact h
  · exact (ha' (by simp)).elim
  · exact (ha (by simp)).elim

theorem append_cons_cases (h : a ++ c :: b = a' ++ c :: b') :
    a = a' ∧ b = b' ∨ (∃ y, a' = a ++ c :: y ∧ b = y ++ c :: b') ∨
      ∃ y, a = a' ++ c :: y ∧ b' = y ++ c :: b :=
  append_sep_cases (n := []) not_mem_nil h

end Separators

/-! ## The lines -/

/-- What stands before the URL, after the newline. -/
def uriName : Text := "\"@target-uri\": "

/-- What stands before the digest, after the newline. -/
def digestName : Text := "\"content-digest\": "

/-- What stands before the parameters, after the newline. -/
def paramsName : Text := "\"@signature-params\": "

theorem uriLine_eq : uriLine = '\n' :: uriName := by decide
theorem digestLine_eq : digestLine = '\n' :: digestName := by decide
theorem paramsLine_eq : paramsLine = '\n' :: paramsName := by decide

theorem signatureBase_eq (method uri digest params : Text) :
    signatureBase method uri digest params = "\"@method\": " ++
      (toAsciiUppercase method ++ '\n' :: (uriName ++ (uri ++ '\n' :: (digestName ++
        (digest ++ '\n' :: (paramsName ++ params)))))) := by
  unfold signatureBase
  rw [uriLine_eq, digestLine_eq, paramsLine_eq]
  simp only [append_assoc, cons_append]

theorem method_ne_line {s a b : Text} : toAsciiUppercase s ≠ a ++ '\n' :: (uriName ++ b) := by
  intro h
  have ht : 't' ∈ toAsciiUppercase s := by
    rw [h]
    refine mem_append_right _ (mem_cons_of_mem _ (mem_append_left _ ?_))
    decide
  obtain ⟨c, -, hc⟩ := mem_map.mp ht
  exact toUpper_ne_t c hc

theorem names_ne {r r' : Text} : paramsName ++ r ≠ digestName ++ r' := by
  have hparams : paramsName = '"' :: '@' :: paramsName.drop 2 := by decide
  have hdigest : digestName = '"' :: 'c' :: digestName.drop 2 := by decide
  intro h
  rw [hparams, hdigest] at h
  exact absurd (cons.inj (cons.inj h).2).1 (by decide)

theorem digest_split {d d' p p' z : Text} (hd' : '\n' ∉ d')
    (h : d' ++ '\n' :: (paramsName ++ p') =
      z ++ '\n' :: (digestName ++ (d ++ '\n' :: (paramsName ++ p)))) :
    ∃ y, z = d' ++ '\n' :: (paramsName ++ y) ∧
      p' = y ++ '\n' :: (digestName ++ (d ++ '\n' :: (paramsName ++ p))) := by
  have hnewline : '\n' ∉ paramsName := by decide
  rcases append_cons_cases h with ⟨-, hlines⟩ | ⟨y, rfl, hy⟩ | ⟨y, hz, -⟩
  · exact (names_ne hlines).elim
  · -- the rest of the parameters' line begins inside of the text before the digest's
    rcases append_eq_append_iff.mp hy with ⟨x, hz, hx⟩ | ⟨x, hx, hp⟩
    · exact ⟨x, by rw [hz], hx⟩
    · cases x with
      | nil =>
        rw [append_nil] at hx
        exact ⟨[], by rw [hx, append_nil], hp.symm⟩
      | cons e x =>
        obtain ⟨rfl, -⟩ := cons.inj hp
        exact (hnewline (hx ▸ mem_append_right _ mem_cons_self)).elim
  · exact (hd' (hz ▸ mem_append_right _ mem_cons_self)).elim

theorem signatureBase_split {method method' uri uri' d d' p p' : Text} (hd : '\n' ∉ d)
    (hd' : '\n' ∉ d') (hp : '\n' ∉ p)
    (h : signatureBase method' uri' d' p' = signatureBase method uri d p) :
    toAsciiUppercase method' = toAsciiUppercase method ∧
      ((uri' = uri ∧ d' = d ∧ p' = p) ∨ ∃ y, uri = uri' ++ digestLine ++ d' ++ paramsLine ++ y ∧
        p' = y ++ digestLine ++ d ++ paramsLine ++ p) := by
  rw [signatureBase_eq, signatureBase_eq, append_cancel_left_eq] at h
  rcases append_sep_cases (by decide) h with ⟨hmethod, h⟩ | ⟨y, hy, -⟩ | ⟨y, hy, -⟩
  · refine ⟨hmethod, ?_⟩
    rcases append_sep_cases (by decide) h with ⟨huri, h⟩ | ⟨z, rfl, hz⟩ | ⟨z, -, hz⟩
    · obtain ⟨hdigest, hparams⟩ := append_sep_inj (by decide) hd' hd h
      exact Or.inl ⟨huri, hdigest, hparams⟩
    · obtain ⟨y, rfl, hy⟩ := digest_split hd' hz
      refine Or.inr ⟨y, ?_, ?_⟩
      · simp only [digestLine_eq, paramsLine_eq, append_assoc, cons_append]
      · simp only [hy, digestLine_eq, paramsLine_eq, append_assoc, cons_append]
    · -- the parameters as they were signed have no newline
      obtain ⟨y, -, rfl⟩ := digest_split hd hz
      exact (hp (mem_append_right _ mem_cons_self)).elim
  · exact (method_ne_line hy).elim
  · exact (method_ne_line hy).elim

theorem signatureBase_second (method uri d d' p y : Text) :
    signatureBase method uri d' (y ++ digestLine ++ d ++ paramsLine ++ p) =
      signatureBase method (uri ++ digestLine ++ d' ++ paramsLine ++ y) d p := by
  rw [signatureBase_eq, signatureBase_eq, digestLine_eq, paramsLine_eq]
  simp only [append_assoc, cons_append]

/-! ## Fields of one line -/

theorem newline_not_mem_b64Encode (b : Bytes) : '\n' ∉ b64Encode b := fun h => by
  have hnot : ∀ c ∈ b64Alphabet, c ≠ '\n' := by decide
  rcases mem_b64Encode h with h | h
  · exact hnot _ h rfl
  · exact absurd h (by decide)

theorem newline_not_mem_contentDigest (C : Crypto) (body : Bytes) :
    '\n' ∉ contentDigest C body := by
  have hstart : '\n' ∉ "sha-256=:".toList := by decide
  unfold contentDigest
  rw [mem_append, mem_append, not_or, not_or]
  exact ⟨⟨hstart, newline_not_mem_b64Encode _⟩, by decide⟩

theorem contentDigest_inj {C : Crypto} (hinj : Function.Injective C.sha256) {b b' : Bytes}
    (h : contentDigest C b = contentDigest C b') : b = b' := by
  unfold contentDigest at h
  rw [append_cancel_right_eq, append_cancel_left_eq] at h
  have hdecode := b64Decode_b64Encode (C.sha256 b)
  rw [h, b64Decode_b64Encode] at hdecode
  exact (hinj (Option.some.inj hdecode)).symm

theorem newline_not_mem_quoted {t : Text} (ht : Plain t) : '\n' ∉ quoted t := by
  intro h
  rw [quoted, mem_append, mem_append] at h
  rcases h with (h | h) | h
  · exact absurd h (by decide)
  · exact absurd (ht.2.2.2 _ h) (by decide)
  · exact absurd h (by decide)

theorem plain_name (alg : SigAlg) : Plain alg.name := by
  rw [Plain]
  cases alg <;> decide

theorem newline_not_mem_params {alg : SigAlg} {created : Int64} {keyid : Text}
    {nonce : Option Text} (hkeyid : Plain keyid) (hnonce : ∀ n ∈ nonce, Plain n) :
    '\n' ∉ signatureParams alg created keyid nonce := by
  have hnames : ∀ t ∈ [covered, ";created=", ";keyid=", ";alg=",
      ";nonce="], '\n' ∉ t := by decide
  simp only [forall_mem_cons] at hnames
  obtain ⟨hcovered, hcreated, hid, halg, hnonce', -⟩ := hnames
  simp only [signatureParams, mem_append, not_or]
  refine ⟨⟨⟨⟨⟨⟨⟨hcovered, hcreated⟩, not_mem_shownInt (by decide) (by decide)⟩, hid⟩,
    newline_not_mem_quoted hkeyid⟩, halg⟩, newline_not_mem_quoted (plain_name alg)⟩, ?_⟩
  cases nonce with
  | none => exact not_mem_nil
  | some n =>
    rw [mem_append, not_or]
    exact ⟨hnonce', newline_not_mem_quoted (hnonce n rfl)⟩

end Synsema.Httpsig
