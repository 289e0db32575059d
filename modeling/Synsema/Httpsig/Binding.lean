import Synsema.Httpsig.Base
import Synsema.Lib.Except

/-!
# What a signature binds

A signature that `http_sign` made verifies with its own request, and with no other: under
conditions on the label, on the key's id and on the URL, and never without them.
-/

namespace Synsema.Httpsig

open Text Bytesutil List Option
open Except (bind_eq_ok)

/-! ## Messages -/

/-- What a request says to the verifier. -/
structure Message where
  method : Text
  url : Text
  body : Bytes
  params : Text
  signature : Bytes
  digest : Text

/-- Reading of a request, before anything is checked. -/
def readMessage (req : SynMap) : Option Message := do
  let method ← textField req "method"
  let url ← textField req "url"
  let headers ← headersField req
  let body ← (bodyBytes req).toOption
  let input ← headerOf headers "signature-input"
  let header ← headerOf headers "signature"
  let params ← splitLabeled input
  let labeled ← splitLabeled header
  let signature ← if params.1 ≠ labeled.1 then none else signatureBytes labeled.2
  let digest ← headerOf headers "content-digest"
  return { method, url, body, params := params.2, signature, digest }

/-- What the verifier answers on parameters, if the rest is as it should be. -/
def answer (params : Text) (alg : SigAlg) : Option Verified := do
  let declared ← paramStr params "alg"
  let keyid ← if declared ≠ alg.name then none else paramStr params "keyid"
  let created ← paramInt params "created"
  return { keyid, alg, created, nonce := paramStr params "nonce" }

/-- The text that a message should sign. -/
def Message.base (C : Crypto) (m : Message) : Text :=
  signatureBase m.method m.url (contentDigest C m.body) m.params

section Verify

variable {C : Crypto} {req : SynMap} {key : Bytes} {alg : SigAlg} {maxAge now : Int64}

theorem verifyInner_eq_some {v : Verified} :
    verifyInner C req key alg maxAge now = some v ↔
      ∃ m, readMessage req = some m ∧ answer m.params alg = some v ∧
        isStale maxAge now v.created = false ∧ trim m.digest = contentDigest C m.body ∧
        verifies C alg key (utf8 (m.base C)) m.signature = true := by
  simp only [verifyInner, readMessage, answer, ↓bind_eq_bind, ↓bind_eq_some_iff, bind_none,
    Option.pure_def, Option.some.injEq, ite_none_right_eq_some, ite_none_left_eq_some,
    Bool.not_eq_true]
  constructor
  · rintro ⟨method, hmethod, url, hurl, headers, hheaders, body, hbody, input, hinput, header,
      hheader, params, hparams, labeled, hlabeled, hsame, signature, hsignature, declared,
      hdeclared, hname, keyid, hkeyid, created, hcreated, hstale, digest, hdigest,
      ⟨htrim, hverifies⟩, rfl⟩
    exact ⟨_, ⟨method, hmethod, url, hurl, headers, hheaders, body, hbody, input, hinput, header,
      hheader, params, hparams, labeled, hlabeled, hsame, signature, hsignature, digest, hdigest,
      rfl⟩, ⟨declared, hdeclared, hname, keyid, hkeyid, created, hcreated, rfl⟩, hstale, htrim,
      hverifies⟩
  · rintro ⟨_, ⟨method, hmethod, url, hurl, headers, hheaders, body, hbody, input, hinput, header,
      hheader, params, hparams, labeled, hlabeled, hsame, signature, hsignature, digest, hdigest,
      rfl⟩, ⟨declared, hdeclared, hname, keyid, hkeyid, created, hcreated, rfl⟩, hstale, htrim,
      hverifies⟩
    exact ⟨method, hmethod, url, hurl, headers, hheaders, body, hbody, input, hinput, header,
      hheader, params, hparams, labeled, hlabeled, hsame, signature, hsignature, declared,
      hdeclared, hname, keyid, hkeyid, created, hcreated, hstale, digest, hdigest,
      ⟨htrim, hverifies⟩, rfl⟩

end Verify

/-- The bytes of the signature that a request presents. -/
def presented (req : SynMap) : Option Bytes := do
  let headers ← headersField req
  let header ← headerOf headers "signature"
  let labeled ← splitLabeled header
  signatureBytes labeled.2

theorem splitLabeled_trim {s : Text} {p : Text × Text} (h : splitLabeled s = some p) :
    trim p.2 = p.2 := by
  obtain ⟨q, -, hq⟩ := bind_eq_some_iff.mp h
  split_ifs at hq
  rw [← Option.some.inj hq]
  exact trim_trim q.2

theorem textField_trim {req : SynMap} {k t : Text} (h : textField req k = some t) : trim t = t := by
  obtain ⟨v, -, hv⟩ := bind_eq_some_iff.mp h
  cases hkind : v.kind <;> rw [hkind] at hv <;> cases hv
  exact trim_trim v.shown

theorem readMessage_facts {req : SynMap} {m : Message} (h : readMessage req = some m) :
    textField req "method" = some m.method ∧ textField req "url" = some m.url ∧
      bodyBytes req = .ok m.body ∧ presented req = some m.signature ∧ trim m.params = m.params := by
  simp only [readMessage, bind_eq_bind, bind_eq_some_iff, bind_none, Option.pure_def,
    Option.some.injEq, ite_none_left_eq_some] at h
  obtain ⟨method, hmethod, url, hurl, headers, hheaders, body, hbody, input, -, header, hheader,
    params, hparams, labeled, hlabeled, -, signature, hsignature, digest, -, rfl⟩ := h
  have hbody' : bodyBytes req = .ok body := by
    cases hb : bodyBytes req with
    | ok b =>
      rw [hb] at hbody
      rw [Option.some.inj hbody]
    | error e =>
      rw [hb] at hbody
      cases hbody
  refine ⟨hmethod, hurl, hbody', ?_, splitLabeled_trim hparams⟩
  rw [presented, hheaders, bind_eq_bind, bind_some, hheader, bind_eq_bind, bind_some, hlabeled]
  exact hsignature

/-! ## Parameters -/

/-- Does the id of the key end like the beginning of another parameter? -/
def KeyidOk (keyid : Text) (nonce : Option Text) : Prop :=
  ¬ ";alg=" <:+ keyid ∧ (";nonce=" <:+ keyid → nonce = some ";alg=".toList)

variable {created : Int64} {label : Text} {signature : Bytes}

theorem answer_signatureParams {alg : SigAlg} {keyid : Text} {nonce : Option Text}
    (hkeyid : '"' ∉ keyid) (hnonce : ∀ n ∈ nonce, '"' ∉ n) :
    answer (signatureParams alg created keyid nonce) alg =
      some { keyid, alg, created, nonce } ↔ KeyidOk keyid nonce := by
  have hne : ";alg=" ≠ alg.name := by cases alg <;> decide
  simp only [answer, paramStr_alg hkeyid, paramStr_keyid hkeyid, paramStr_nonce hkeyid hnonce,
    paramInt_created, bind_eq_bind, Option.pure_def, KeyidOk]
  by_cases halg : ";alg=" <:+ keyid
  · rw [if_pos halg, bind_some, if_pos hne]
    exact ⟨nofun, fun h => (h.1 halg).elim⟩
  · rw [if_neg halg, bind_some, if_neg (not_not_intro rfl)]
    by_cases hid : ";nonce=" <:+ keyid
    · simp only [bind_some, Option.some.injEq, Verified.mk.injEq, true_and, halg, not_false_eq_true,
        hid, true_imp_iff, if_true]
      exact eq_comm
    · simp only [bind_some, halg, not_false_eq_true, hid, false_imp_iff, and_self, if_false]

/-! ## Labels -/

/-- May the label stand before its `=`? -/
def LabelOk (label : Text) : Prop := '=' ∉ label ∧ trim label ≠ []

/-- The labelled text of a signature. -/
def signatureText (signature : Bytes) : Text := ":" ++ b64Encode signature ++ [':']

theorem splitLabeled_append {rest : Text} (hlabel : '=' ∉ label) (hrest : trim rest = rest) :
    splitLabeled (label ++ '=' :: rest) =
      if trim label = [] then none else some (trim label, rest) := by
  rw [splitLabeled, splitOnce_append hlabel, bind_eq_bind, bind_some, hrest]

variable {c : Char} {p : Char → Bool}

theorem b64Encode_kept {b : Bytes} (hc : c ∈ b64Encode b) :
    isWhitespace c = false ∧ (c == ':') = false := by
  have halphabet : ∀ c ∈ b64Alphabet, isWhitespace c = false ∧ (c == ':') = false := by decide
  rcases mem_b64Encode hc with hc | rfl
  · exact halphabet c hc
  · decide

theorem trim_signatureText (signature : Bytes) :
    trim (signatureText signature) = signatureText signature := by
  refine trim_eq_self (fun c hc => ?_) (fun c hc => ?_)
  · cases hc
    decide
  · rw [signatureText, getLast?_concat, mem_some_iff] at hc
    subst hc
    decide

theorem signatureBytes_signatureText (signature : Bytes) :
    signatureBytes (signatureText signature) = some signature := by
  have hstart : (signatureText signature).dropWhile (· == ':') =
      (b64Encode signature ++ [':']).dropWhile (· == ':') :=
    dropWhile_cons_of_pos rfl
  have htrim : trimColons (signatureText signature) = b64Encode signature := by
    rw [trimColons, hstart]
    have hkept : ∀ c ∈ b64Encode signature, (c == ':') = false := fun c hc => (b64Encode_kept hc).2
    cases h : b64Encode signature with
    | nil => rfl
    | cons c t =>
      rw [h] at hkept
      rw [cons_append, dropWhile_cons_of_neg (by simp [hkept c mem_cons_self])]
      exact trimEndMatches_append (l := c :: t) hkept (by simp)
  rw [signatureBytes, trim_signatureText, htrim, b64Decode_b64Encode]

theorem dropWhile_middle (hc : p c = false) (l r : Text) :
    ∃ l', (l ++ c :: r).dropWhile p = l' ++ c :: r := by
  rw [dropWhile_append]
  split_ifs
  · exact ⟨[], dropWhile_cons_of_neg (by simp [hc])⟩
  · exact ⟨l.dropWhile p, rfl⟩

theorem trimEndMatches_middle (hc : p c = false) (l r : Text) :
    ∃ r', trimEndMatches p (l ++ c :: r) = l ++ c :: r' := by
  obtain ⟨r', hr'⟩ := dropWhile_middle hc r.reverse l.reverse
  refine ⟨r'.reverse, ?_⟩
  rw [trimEndMatches, List.rdropWhile, reverse_append, reverse_cons, append_assoc, singleton_append,
    hr', reverse_append, reverse_cons, reverse_reverse, append_assoc, singleton_append]

theorem trim_middle {d : Char} (hc : p c = false) (hd : p d = false) (l m r : Text) :
    ∃ l' r', trimEndMatches p ((l ++ c :: (m ++ d :: r)).dropWhile p) =
      l' ++ c :: (m ++ d :: r') := by
  obtain ⟨l', hl'⟩ := dropWhile_middle hc l (m ++ d :: r)
  obtain ⟨r', hr'⟩ := trimEndMatches_middle hd (l' ++ c :: m) r
  refine ⟨l', r', ?_⟩
  rw [hl']
  simpa only [append_assoc, cons_append] using hr'

theorem signatureBytes_extra (hne : signature ≠ []) (l : Text) :
    signatureBytes (trim (l ++ '=' :: signatureText signature)) = none := by
  have hlast : ∃ t d, b64Encode signature = t ++ [d] := by
    rcases eq_nil_or_concat' (b64Encode signature) with h | h
    · have hdecode := b64Decode_b64Encode signature
      rw [h] at hdecode
      exact (hne (Option.some.inj hdecode).symm).elim
    · exact h
  obtain ⟨t, d, ht⟩ := hlast
  obtain ⟨hblank, hcolon⟩ := b64Encode_kept (b := signature) (c := d) (by simp [ht])
  have htext : l ++ '=' :: signatureText signature = l ++ '=' :: (':' :: t ++ d :: [':']) := by
    simp only [signatureText, ht, append_assoc]
    rfl
  have htrim : ∀ {u : Text}, (∃ l' r', u = l' ++ '=' :: (':' :: t ++ d :: r')) →
      ∃ l' r', trim u = l' ++ '=' :: (':' :: t ++ d :: r') := by
    rintro u ⟨l', r', rfl⟩
    exact trim_middle (by decide) hblank l' (':' :: t) r'
  obtain ⟨l', r', hkept⟩ := htrim (htrim ⟨l, [':'], htext⟩)
  obtain ⟨l'', r'', hcolons⟩ : ∃ l'' r'', trimColons (l' ++ '=' :: (':' :: t ++ d :: r')) =
      l'' ++ '=' :: (':' :: t ++ d :: r'') :=
    trim_middle (p := (· == ':')) (by decide) hcolon l' (':' :: t) r'
  rw [signatureBytes, hkept, hcolons, eq_none_iff_forall_ne_some]
  intro b hb
  have hmem : 0x3a ∈ utf8 (l'' ++ '=' :: (':' :: t ++ d :: r'')) :=
    mem_flatMap.mpr ⟨':', by simp, by decide⟩
  rcases mem_of_b64Decode hb _ hmem with h | h
  · exact absurd h (by decide)
  · exact absurd h (by decide)

theorem presented_bad_label (hne : signature ≠ []) (hlabel : ¬ LabelOk label) {p : Text × Text}
    (hp : splitLabeled (label ++ '=' :: signatureText signature) = some p) :
    signatureBytes p.2 = none := by
  by_cases heq : '=' ∈ label
  · obtain ⟨l, r, rfl, hl⟩ := eq_append_cons_of_mem heq
    rw [splitLabeled, append_assoc, cons_append, splitOnce_append hl, bind_eq_bind, bind_some] at hp
    split_ifs at hp
    rw [← Option.some.inj hp]
    exact signatureBytes_extra hne r
  · rw [splitLabeled_append heq (trim_signatureText signature),
      if_pos (not_not.mp (not_and.mp hlabel heq))] at hp
    cases hp

/-! ## The functions of other packages -/

/-- What is assumed of them: SHA-256 and HMAC-SHA-256 do not collide, a signature verifies with
its own key and its own text and with no other text, nothing is signed with no bytes, and the
codes of the one algorithm, of 32 bytes, are not the signatures of the other, of 64. -/
structure Crypto.Ideal (C : Crypto) : Prop where
  sha256_inj : Function.Injective C.sha256
  hmac_inj : ∀ k, Function.Injective (C.hmacSha256 k)
  hmac_ne_nil : ∀ k m, C.hmacSha256 k m ≠ []
  sign_ne_nil : ∀ k m, C.ed25519Sign k m ≠ []
  verify_sign : ∀ material seed m, C.ed25519Seed material = .ok seed →
    C.ed25519Verify (C.ed25519Public seed) m (C.ed25519Sign seed m) = true
  verify_inj : ∀ material seed m m', C.ed25519Seed material = .ok seed →
    C.ed25519Verify (C.ed25519Public seed) m' (C.ed25519Sign seed m) = true → m' = m
  hmac_ne_sign : ∀ k m k' m', C.hmacSha256 k m ≠ C.ed25519Sign k' m'
  not_verify_hmac : ∀ p m k m', C.ed25519Verify p m (C.hmacSha256 k m') = false

/-- The text that was signed. -/
def Signed.base (C : Crypto) (s : Signed) : Text :=
  signatureBase s.method s.url (contentDigest C s.body) s.params

/-- A signature as `http_sign` makes it. -/
structure Signed.Made (C : Crypto) (s : Signed) : Prop where
  keyid : Plain s.keyid
  nonce : ∀ n ∈ s.nonce, Plain n
  text : ∃ material, signText C s.alg material (utf8 (s.base C)) = .ok (s.verifyKey, s.signature)

section Signing

variable {C : Crypto}

theorem checkParams_ok {keyid label : Text} {nonce : Option Text}
    (h : checkParams keyid label nonce = .ok ()) :
    Plain keyid ∧ Plain label ∧ ∀ n ∈ nonce, Plain n := by
  obtain ⟨_, hkeyid, h⟩ := bind_eq_ok.mp h
  obtain ⟨_, hlabel, h⟩ := bind_eq_ok.mp h
  refine ⟨checkParam_ok.mp hkeyid, checkParam_ok.mp hlabel, ?_⟩
  rintro n rfl
  exact checkParam_ok.mp h

theorem signing_spec {gate : Text → SigAlg → Except Text Unit} {clock : Except Text Int64}
    {req opts : SynMap} {key : Key} {s : Signed} (h : signing C gate clock req key opts = .ok s) :
    reqText req "method" = .ok s.method ∧ reqText req "url" = .ok s.url ∧
      bodyBytes req = .ok s.body ∧ s.Made C := by
  obtain ⟨method, hmethod, h⟩ := bind_eq_ok.mp h
  obtain ⟨url, hurl, h⟩ := bind_eq_ok.mp h
  obtain ⟨body, hbody, h⟩ := bind_eq_ok.mp h
  obtain ⟨o, -, h⟩ := bind_eq_ok.mp h
  obtain ⟨material, -, h⟩ := bind_eq_ok.mp h
  obtain ⟨_, hparams, h⟩ := bind_eq_ok.mp h
  obtain ⟨_, -, h⟩ := bind_eq_ok.mp h
  obtain ⟨created, -, h⟩ := bind_eq_ok.mp h
  obtain ⟨r, hr, h⟩ := bind_eq_ok.mp h
  obtain ⟨hkeyid, -, hnonce⟩ := checkParams_ok hparams
  cases h
  exact ⟨hmethod, hurl, hbody, hkeyid, hnonce, material, hr⟩

variable {s : Signed}

theorem Signed.Made.signature_ne_nil (hC : C.Ideal) (hs : s.Made C) : s.signature ≠ [] := by
  obtain ⟨material, hsign⟩ := hs.text
  cases halg : s.alg with
  | ed25519 =>
    rw [halg] at hsign
    obtain ⟨seed, -, hsign⟩ := bind_eq_ok.mp hsign
    rw [← (Prod.mk.inj (Except.ok.inj hsign)).2]
    exact hC.sign_ne_nil seed _
  | hmacSha256 =>
    rw [halg] at hsign
    rw [← (Prod.mk.inj (Except.ok.inj hsign)).2]
    exact hC.hmac_ne_nil material _

theorem Signed.Made.verifies_iff (hC : C.Ideal) (hs : s.Made C) {alg : SigAlg} {text : Text} :
    verifies C alg s.verifyKey (utf8 text) s.signature ↔ alg = s.alg ∧ text = s.base C := by
  have hutf8 : ∀ {t t' : Text}, utf8 t = utf8 t' → t = t' := by
    intro t t' h
    have hread := fromUtf8_utf8 t
    rw [h, fromUtf8_utf8] at hread
    exact (Option.some.inj hread).symm
  obtain ⟨material, hsign⟩ := hs.text
  cases halg : s.alg with
  | ed25519 =>
    rw [halg] at hsign
    obtain ⟨seed, hseed, hsign⟩ := bind_eq_ok.mp hsign
    have hseed := Except.mapError_eq_ok.mp hseed
    obtain ⟨hkey, hsignature⟩ := Prod.mk.inj (Except.ok.inj hsign)
    rw [← hkey, ← hsignature]
    cases alg with
    | ed25519 =>
      refine ⟨fun h => ⟨rfl, hutf8 (hC.verify_inj _ _ _ _ hseed h)⟩, ?_⟩
      rintro ⟨-, rfl⟩
      exact hC.verify_sign _ _ _ hseed
    | hmacSha256 =>
      refine ⟨fun h => (hC.hmac_ne_sign _ _ _ _ (beq_iff_eq.mp h)).elim, nofun⟩
  | hmacSha256 =>
    rw [halg] at hsign
    obtain ⟨hkey, hsignature⟩ := Prod.mk.inj (Except.ok.inj hsign)
    rw [← hkey, ← hsignature]
    cases alg with
    | ed25519 =>
      refine ⟨fun h => ?_, nofun⟩
      rw [verifies, hC.not_verify_hmac] at h
      cases h
    | hmacSha256 =>
      refine ⟨fun h => ⟨rfl, hutf8 (hC.hmac_inj _ (beq_iff_eq.mp h))⟩, ?_⟩
      rintro ⟨-, rfl⟩
      exact beq_self_eq_true _

end Signing

/-! ## Staleness -/

/-- Is `now` within `max_age` of the time of the signature?  A `max_age` of zero takes any. -/
def Within (maxAge now created : Int64) : Prop :=
  maxAge = 0 ∨ ((now.toInt - created.toInt).natAbs : Int) ≤ maxAge.toInt

theorem isStale_of_within {maxAge now : Int64} (h : Within maxAge now created) :
    isStale maxAge now created = false := by
  rw [isStale, Bool.and_eq_false_iff, decide_eq_false_iff_not, decide_eq_false_iff_not]
  rcases h with rfl | h
  · exact Or.inl (by decide)
  · refine Or.inr (Int.not_lt.mpr (Int.le_trans ?_ h))
    unfold saturate
    omega

/-! ## The property -/

/-- Do the headers have what `http_sign` returned? -/
def Carries (headers returned : List (Text × Text)) : Prop :=
  ∀ p ∈ returned, headerOf headers p.1 = some p.2

/-- What the verifier should answer. -/
def Signed.verified (s : Signed) : Verified :=
  { keyid := s.keyid, alg := s.alg, created := s.created, nonce := s.nonce }

/-- The signature of a request verifies with it: for the same method, URL and body, the headers
that were returned, the matching key and algorithm, and a time within `max_age`. -/
def Verifies (C : Crypto) (req : SynMap) (s : Signed) : Prop :=
  ∀ (clock : Except Text Int64) (req' opts : SynMap) (key : SigAlg → Except Text Bytes)
    (headers : List (Text × Text)) (o : VerifyOpts) (now : Int64),
    get req' "method" = get req "method" →
    get req' "url" = get req "url" →
    get req' "body" = get req "body" →
    headersField req' = some headers → Carries headers (s.headers C) →
    opts.foldlM verifyOpt {} = .ok o → o.alg = some s.alg → key s.alg = .ok s.verifyKey →
    o.now.elim clock Except.ok = .ok now → Within o.maxAge now s.created →
    httpSignatureVerify C clock req' key opts = .ok (some s.verified)

/-- Are two requests the same, the method up to ASCII case, the URL without the blanks around
it, and the body by its bytes? -/
structure SameRequest (req req' : SynMap) : Prop where
  method : ∃ t t', textField req "method" = some t ∧
    textField req' "method" = some t' ∧ eqIgnoreAsciiCase t' t = true
  url : textField req' "url" = textField req "url"
  body : bodyBytes req' = bodyBytes req

/-- No other request is accepted with the signature, and no other answer is given. -/
def Binds (C : Crypto) (req : SynMap) (s : Signed) : Prop :=
  ∀ (clock : Except Text Int64) (req' opts : SynMap) (key : SigAlg → Except Text Bytes)
    (o : VerifyOpts) (alg : SigAlg) (v : Verified),
    opts.foldlM verifyOpt {} = .ok o → o.alg = some alg → key alg = .ok s.verifyKey →
    presented req' = some s.signature →
    httpSignatureVerify C clock req' key opts = .ok (some v) →
    SameRequest req req' ∧ v = s.verified

/-- Has the URL no second reading?  It has one if it holds a line of a digest and the beginning
of a line of parameters, which its own signature's lines then end. -/
def UrlOk (C : Crypto) (s : Signed) : Prop :=
  ∀ (url : Text) (body : Bytes) (params : Text),
    s.url = url ++ digestLine ++ contentDigest C body ++ paramsLine ++ params →
    trim url = url →
    trim (params ++ digestLine ++ contentDigest C s.body ++ paramsLine ++ s.params) =
      params ++ digestLine ++ contentDigest C s.body ++ paramsLine ++ s.params →
    answer (params ++ digestLine ++ contentDigest C s.body ++ paramsLine ++ s.params) s.alg = none

theorem urlOk_of_line {C : Crypto} {s : Signed} (h : '\n' ∉ s.url) : UrlOk C s := by
  intro url body params hurl
  rw [hurl, digestLine_eq] at h
  simp only [append_assoc, cons_append, mem_append, List.mem_cons] at h
  exact (h (Or.inr (Or.inl trivial))).elim

section Property

variable {C : Crypto} {req : SynMap} {s : Signed}

variable {k : Text} {body : Bytes}

theorem textField_of_reqText {t : Text} (h : reqText req k = .ok t) : textField req k = some t := by
  rw [reqText] at h
  rw [textField]
  cases hv : get req k with
  | none =>
    rw [hv] at h
    cases h
  | some v =>
    rw [hv] at h
    cases hk : v.kind <;> simp only [hk] at h <;> try cases h
    rw [bind_eq_bind, bind_some, hk]
    split_ifs at h
    rw [Except.ok.inj h]

theorem headerOf_congr {headers : List (Text × Text)} {name name' : Text}
    (h : toAsciiLowercase name = toAsciiLowercase name') :
    headerOf headers name = headerOf headers name' := by
  unfold headerOf eqIgnoreAsciiCase
  rw [h]

theorem Carries.headers {headers : List (Text × Text)} (h : Carries headers (s.headers C)) :
    headerOf headers "content-digest" = some (contentDigest C s.body) ∧
      headerOf headers "signature-input" = some (s.label ++ '=' :: s.params) ∧
      headerOf headers "signature" =
        some (s.label ++ '=' :: signatureText s.signature) := by
  have hdigest : headerOf headers "Content-Digest" = _ := h _ mem_cons_self
  have hinput : headerOf headers "Signature-Input" = _ :=
    h _ (mem_cons_of_mem _ mem_cons_self)
  have hheader : headerOf headers "Signature" = _ :=
    h _ (mem_cons_of_mem _ (mem_cons_of_mem _ mem_cons_self))
  refine ⟨?_, ?_, ?_⟩
  · rw [← hdigest]
    exact headerOf_congr (by decide)
  · rw [append_assoc, singleton_append] at hinput
    rw [← hinput]
    exact headerOf_congr (by decide)
  · have htext : s.label ++ "=:" ++ b64Encode s.signature ++ [':'] =
        s.label ++ '=' :: signatureText s.signature := by
      unfold signatureText
      simp only [append_assoc]
      rfl
    rw [← htext, ← hheader]
    exact headerOf_congr (by decide)

theorem carries_self : Carries (s.headers C) (s.headers C) := by
  have hnames : ∀ d i h : Text,
      headerOf [("Content-Digest", d), ("Signature-Input", i),
        ("Signature", h)] "Content-Digest" = some d ∧
      headerOf [("Content-Digest", d), ("Signature-Input", i),
        ("Signature", h)] "Signature-Input" = some i ∧
      headerOf [("Content-Digest", d), ("Signature-Input", i),
        ("Signature", h)] "Signature" = some h := fun _ _ _ => ⟨rfl, rfl, rfl⟩
  intro p hp
  simp only [Signed.headers, List.mem_cons, not_mem_nil, or_false] at hp
  obtain ⟨hd, hi, hh⟩ := hnames (contentDigest C s.body) (s.label ++ ['='] ++ s.params)
    (s.label ++ "=:" ++ b64Encode s.signature ++ [':'])
  rcases hp with rfl | rfl | rfl
  · exact hd
  · exact hi
  · exact hh

variable {req' : SynMap} {headers : List (Text × Text)}

theorem readMessage_carried (hlabel : LabelOk s.label)
    (hmethod : textField req' "method" = some s.method)
    (hurl : textField req' "url" = some s.url) (hbody : bodyBytes req' = .ok s.body)
    (hheaders : headersField req' = some headers) (hcarries : Carries headers (s.headers C)) :
    readMessage req' = some
      { method := s.method, url := s.url, body := s.body, params := s.params,
        signature := s.signature, digest := contentDigest C s.body } := by
  obtain ⟨hdigest, hinput, hheader⟩ := hcarries.headers
  have hparams : splitLabeled (s.label ++ '=' :: s.params) = some (trim s.label, s.params) := by
    rw [Signed.params, splitLabeled_append hlabel.1 trim_signatureParams, if_neg hlabel.2]
  have htext : splitLabeled (s.label ++ '=' :: signatureText s.signature) =
      some (trim s.label, signatureText s.signature) := by
    rw [splitLabeled_append hlabel.1 (trim_signatureText _), if_neg hlabel.2]
  simp only [readMessage, hmethod, hurl, hheaders, hbody, hinput, hheader, hdigest, hparams, htext,
    bind_eq_bind, bind_some, Except.toOption, ne_eq, not_true_eq_false, if_false,
    signatureBytes_signatureText, Option.pure_def]

theorem readMessage_bad_label (hne : s.signature ≠ []) (hlabel : ¬ LabelOk s.label)
    (hheaders : headersField req' = some headers) (hcarries : Carries headers (s.headers C)) :
    readMessage req' = none := by
  rw [eq_none_iff_forall_ne_some]
  intro m hm
  obtain ⟨-, -, -, hpresented, -⟩ := readMessage_facts hm
  obtain ⟨-, -, hheader⟩ := hcarries.headers
  rw [presented, hheaders, bind_eq_bind, bind_some, hheader, bind_eq_bind, bind_some] at hpresented
  obtain ⟨p, hp, hsignature⟩ := bind_eq_some_iff.mp hpresented
  rw [presented_bad_label hne hlabel hp] at hsignature
  cases hsignature

/-! ## The first half -/

/-- The options of a call: the algorithm, no limit on the age, and the time. -/
def anyAge (alg : SigAlg) (now : Int64) : SynMap :=
  [("alg", synText alg.name),
    ("max_age",
      { typeName := "number", shown := ['0'], kind := .number (some 0) }),
    ("now",
      { typeName := "number", shown := shownInt now, kind := .number (some now) })]

theorem foldlM_anyAge (alg : SigAlg) (now : Int64) :
    (anyAge alg now).foldlM verifyOpt {} =
      .ok { alg := some alg, maxAge := 0, now := some now } := by
  cases alg <;> rfl

/-- A request with these headers. -/
def withHeaders (headers : List (Text × Text)) (req : SynMap) : SynMap :=
  ("headers", { typeName := "map", shown := [], kind := .map headers }) :: req

theorem textField_congr (h : get req' k = get req k) : textField req' k = textField req k := by
  rw [textField, textField, h]

theorem bodyBytes_congr (h : get req' "body" = get req "body") :
    bodyBytes req' = bodyBytes req := by
  rw [bodyBytes, bodyBytes, h]

theorem httpSignatureVerify_eq {clock : Except Text Int64} {opts : SynMap}
    {key : SigAlg → Except Text Bytes} {o : VerifyOpts} {alg : SigAlg} {material : Bytes}
    {now : Int64} (hopts : opts.foldlM verifyOpt {} = .ok o) (halg : o.alg = some alg)
    (hkey : key alg = .ok material) (hnow : o.now.elim clock Except.ok = .ok now) :
    httpSignatureVerify C clock req' key opts =
      .ok (verifyInner C req' material alg o.maxAge now) := by
  simp only [httpSignatureVerify, hopts, halg, hkey, hnow, bind, Except.bind, elim_some,
    Except.mapError]
  rfl

theorem trim_contentDigest :
    trim (contentDigest C body) = contentDigest C body := by
  unfold contentDigest
  refine trim_eq_self (fun c hc => ?_) (fun c hc => ?_)
  · cases hc
    decide
  · rw [getLast?_concat, mem_some_iff] at hc
    subst hc
    decide

theorem verifyInner_carried {maxAge now : Int64} (hC : C.Ideal) (hs : s.Made C)
    (hread : readMessage req' = some
      { method := s.method, url := s.url, body := s.body, params := s.params,
        signature := s.signature, digest := contentDigest C s.body })
    (hstale : isStale maxAge now s.created = false) :
    verifyInner C req' s.verifyKey s.alg maxAge now = some s.verified ↔
      KeyidOk s.keyid s.nonce := by
  have hanswers : answer s.params s.alg = some s.verified ↔ _ :=
    answer_signatureParams hs.keyid.2.1 (fun n hn => (hs.nonce n hn).2.1)
  rw [verifyInner_eq_some, ← hanswers]
  constructor
  · rintro ⟨m, hm, hanswer, -⟩
    rw [hread] at hm
    rw [← Option.some.inj hm] at hanswer
    exact hanswer
  · intro hanswer
    exact ⟨_, hread, hanswer, hstale, trim_contentDigest, (hs.verifies_iff hC).mpr ⟨rfl, rfl⟩⟩

theorem verifies_iff (hC : C.Ideal) (hs : s.Made C)
    (hmethod : reqText req "method" = .ok s.method)
    (hurl : reqText req "url" = .ok s.url) (hbody : bodyBytes req = .ok s.body) :
    Verifies C req s ↔ LabelOk s.label ∧ KeyidOk s.keyid s.nonce := by
  have hmethod := textField_of_reqText hmethod
  have hurl := textField_of_reqText hurl
  constructor
  · intro h
    -- the request itself, with the headers as they were returned
    have hcall := h (.ok 0) (withHeaders (s.headers C) req) (anyAge s.alg s.created)
      (fun _ => .ok s.verifyKey) (s.headers C) _ s.created rfl rfl rfl rfl carries_self
      (foldlM_anyAge s.alg s.created) rfl rfl rfl (Or.inl rfl)
    rw [httpSignatureVerify_eq (foldlM_anyAge s.alg s.created) rfl rfl rfl,
      Except.ok.injEq] at hcall
    have hlabel : LabelOk s.label := by
      by_contra hbad
      obtain ⟨m, hm, -⟩ := verifyInner_eq_some.mp hcall
      rw [readMessage_bad_label (hs.signature_ne_nil hC) hbad rfl carries_self] at hm
      cases hm
    have hread : readMessage (withHeaders (s.headers C) req) = _ :=
      readMessage_carried hlabel hmethod hurl hbody rfl carries_self
    exact ⟨hlabel, (verifyInner_carried hC hs hread (isStale_of_within (Or.inl rfl))).mp hcall⟩
  · rintro ⟨hlabel, hid⟩
    intro clock req' opts key headers o now hm hu hb hheaders hcarries hopts halg hkey hnow hwithin
    have hread := readMessage_carried (C := C) hlabel ((textField_congr hm).trans hmethod)
      ((textField_congr hu).trans hurl) ((bodyBytes_congr hb).trans hbody) hheaders hcarries
    rw [httpSignatureVerify_eq hopts halg hkey hnow,
      (verifyInner_carried hC hs hread (isStale_of_within hwithin)).mpr hid]

/-! ## The second half -/

theorem binds_of_ok (hC : C.Ideal) (hs : s.Made C)
    (hmethod : reqText req "method" = .ok s.method)
    (hurl : reqText req "url" = .ok s.url) (hbody : bodyBytes req = .ok s.body)
    (hid : KeyidOk s.keyid s.nonce) (hok : UrlOk C s) : Binds C req s := by
  intro clock req' opts key o alg v hopts halg hkey hpresented hcall
  cases hnow : o.now.elim clock Except.ok with
  | error e =>
    simp only [httpSignatureVerify, hopts, halg, hkey, hnow, bind, Except.bind, elim_some,
      Except.mapError] at hcall
    cases hcall
  | ok now =>
    rw [httpSignatureVerify_eq hopts halg hkey hnow, Except.ok.injEq] at hcall
    obtain ⟨m, hm, hanswer, -, -, hverifies⟩ := verifyInner_eq_some.mp hcall
    obtain ⟨hmethod', hurl', hbody', hpresented', hparams'⟩ := readMessage_facts hm
    rw [hpresented, Option.some.injEq] at hpresented'
    rw [← hpresented', hs.verifies_iff hC] at hverifies
    obtain ⟨rfl, hbase⟩ := hverifies
    obtain ⟨hupper, ⟨heq, hdigest, hparams⟩ | ⟨y, hsecond, hparams⟩⟩ :=
      signatureBase_split (newline_not_mem_contentDigest C s.body)
        (newline_not_mem_contentDigest C m.body) (newline_not_mem_params hs.keyid hs.nonce) hbase
    · refine ⟨⟨⟨_, _, textField_of_reqText hmethod, hmethod', eqIgnoreAsciiCase_of_upper hupper⟩,
        ?_, ?_⟩, ?_⟩
      · rw [hurl', textField_of_reqText hurl, heq]
      · rw [hbody', hbody, contentDigest_inj hC.sha256_inj hdigest]
      · rw [hparams, (answer_signatureParams hs.keyid.2.1
          fun n hn => (hs.nonce n hn).2.1).mpr hid] at hanswer
        exact (Option.some.inj hanswer).symm
    · -- the second reading of the URL
      have hnone := hok m.url m.body y hsecond (textField_trim hurl') (hparams ▸ hparams')
      rw [hparams] at hanswer
      cases hnone.symm.trans hanswer

/-- A request with a signature and its parameters, under a label of its own. -/
def forged (C : Crypto) (method url : Text) (body : Bytes) (params : Text) (signature : Bytes) :
    SynMap :=
  withHeaders [("content-digest", contentDigest C body),
    ("signature-input", "sig1" ++ '=' :: params),
    ("signature", "sig1" ++ '=' :: signatureText signature)]
    [("method", synText method), ("url", synText url),
      ("body", { typeName := "bytes", shown := [], kind := .bytes body })]

theorem readMessage_forged {method url : Text} {signature : Bytes} {params : Text}
    (hmethod : trim method = method) (hurl : trim url = url) (hparams : trim params = params) :
    readMessage (forged C method url body params signature) = some
      { method, url, body, params, signature, digest := contentDigest C body } := by
  have hlabel : '=' ∉ "sig1".toList := by decide
  have hblank : trim "sig1" ≠ [] := by decide
  have hinput : splitLabeled ("sig1" ++ '=' :: params) =
      some (trim "sig1", params) := by
    rw [splitLabeled_append hlabel hparams, if_neg hblank]
  have htext : splitLabeled ("sig1" ++ '=' :: signatureText signature) =
      some (trim "sig1", signatureText signature) := by
    rw [splitLabeled_append hlabel (trim_signatureText _), if_neg hblank]
  have hmethod' : textField (forged C method url body params signature) "method" =
      some method := congrArg some hmethod
  have hurl' : textField (forged C method url body params signature) "url" = some url :=
    congrArg some hurl
  have hbody : bodyBytes (forged C method url body params signature) = .ok body := rfl
  have hheaders : headersField (forged C method url body params signature) =
      some [("content-digest".toList, contentDigest C body),
        ("signature-input", "sig1" ++ '=' :: params),
        ("signature", "sig1" ++ '=' :: signatureText signature)] := rfl
  have hfound : ∀ d i h : Text,
      headerOf [("content-digest", d), ("signature-input", i),
        ("signature", h)] "signature-input" = some i ∧
      headerOf [("content-digest", d), ("signature-input", i),
        ("signature", h)] "signature" = some h ∧
      headerOf [("content-digest", d), ("signature-input", i),
        ("signature", h)] "content-digest" = some d := fun _ _ _ => ⟨rfl, rfl, rfl⟩
  simp only [readMessage, hmethod', hurl', hbody, hheaders, hfound, hinput, htext, bind_eq_bind,
    bind_some, Except.toOption, ne_eq, not_true_eq_false, if_false, signatureBytes_signatureText,
    Option.pure_def]

theorem urlOk_of_binds (hC : C.Ideal) (hs : s.Made C)
    (hmethod : reqText req "method" = .ok s.method)
    (hurl : reqText req "url" = .ok s.url) (h : Binds C req s) : UrlOk C s := by
  intro url body params hsplit htrim hread
  by_contra hne
  obtain ⟨v, hanswer⟩ := ne_none_iff_exists'.mp hne
  have hurl := textField_of_reqText hurl
  have hm : readMessage (forged C s.method url body _ s.signature) = _ :=
    readMessage_forged (textField_trim (textField_of_reqText hmethod)) htrim hread
  obtain ⟨-, hurl', -, hpresented, -⟩ := readMessage_facts hm
  have hbase : s.base C = signatureBase s.method url (contentDigest C body)
      (params ++ digestLine ++ contentDigest C s.body ++ paramsLine ++ s.params) := by
    rw [Signed.base, hsplit, signatureBase_second]
  have hstale : isStale 0 v.created v.created = false := isStale_of_within (Or.inl rfl)
  have haccepted := verifyInner_eq_some.mpr ⟨_, hm, hanswer,
    hstale, trim_contentDigest,
    (hs.verifies_iff hC).mpr ⟨rfl, hbase.symm⟩⟩
  obtain ⟨hsame, -⟩ := h (.ok 0) _ (anyAge s.alg v.created) (fun _ => .ok s.verifyKey) _ s.alg v
    (foldlM_anyAge s.alg v.created) rfl rfl hpresented
    ((httpSignatureVerify_eq (foldlM_anyAge s.alg v.created) rfl rfl rfl).trans
      (congrArg Except.ok haccepted))
  have hequal := hsame.url
  rw [hurl', hurl, Option.some.injEq, hsplit] at hequal
  have hlength := congrArg List.length hequal
  rw [digestLine_eq] at hlength
  simp only [length_append, length_cons] at hlength
  omega

/-- A signature verifies with its request and with no other, precisely when its label has no `=`
and is not blank, the id of its key does not end like the beginning of another parameter, and
its URL has one reading. -/
theorem signature_binds_iff {gate : Text → SigAlg → Except Text Unit} {clock : Except Text Int64}
    {opts : SynMap} {key : Key} (hC : C.Ideal) (h : signing C gate clock req key opts = .ok s) :
    Verifies C req s ∧ Binds C req s ↔
      LabelOk s.label ∧ KeyidOk s.keyid s.nonce ∧ UrlOk C s := by
  obtain ⟨hmethod, hurl, hbody, hs⟩ := signing_spec h
  rw [verifies_iff hC hs hmethod hurl hbody]
  constructor
  · rintro ⟨⟨hlabel, hid⟩, hbinds⟩
    exact ⟨hlabel, hid, urlOk_of_binds hC hs hmethod hurl hbinds⟩
  · rintro ⟨hlabel, hid, hok⟩
    exact ⟨⟨hlabel, hid⟩, binds_of_ok hC hs hmethod hurl hbody hid hok⟩

end Property

/-! ## One signature -/

deriving instance DecidableEq for Signed

/-- The digest and the code of a request with the body `hi` and a key `k`, and functions that do
not collide elsewhere. -/
def sampleCrypto : Crypto where
  sha256 b :=
    if b = utf8 "hi" then
      [143, 67, 67, 70, 100, 143, 107, 150, 223, 137, 221, 169, 1, 197, 23, 107, 16, 166, 216, 57,
        97, 221, 60, 26, 200, 139, 89, 178, 220, 50, 122, 164]
    else 1 :: b
  hmacSha256 k m :=
    if k = utf8 "k" ∧ m = utf8 (signatureBase "POST" "https://api.test/a"
        "sha-256=:j0NDRmSPa5bfid2pAcUXaxCm2Dlh3TwayItZstwyeqQ=:"
        (signatureParams .hmacSha256 5 "K" (some "n1".toList))) then
      [44, 231, 233, 50, 169, 94, 208, 146, 198, 117, 107, 186, 60, 50, 214, 64, 104, 173, 220, 185,
        244, 129, 238, 121, 0, 15, 151, 219, 0, 196, 149, 60]
    else 2 :: m
  ed25519Seed := .ok
  ed25519Sign _ m := 3 :: m
  ed25519Public seed := seed
  ed25519Verify _ m signature := signature == 3 :: m

theorem sampleCrypto_ideal : sampleCrypto.Ideal where
  sha256_inj := by
    intro b b' h
    simp only [sampleCrypto] at h
    split_ifs at h with hb hb'
    · rw [hb, hb']
    all_goals simp_all
  hmac_inj := by
    intro k m m' h
    simp only [sampleCrypto] at h
    split_ifs at h with hm hm'
    · rw [hm.2, hm'.2]
    · simp at h
    · simp at h
    · exact (cons.inj h).2
  hmac_ne_nil := by
    intro k m
    simp only [sampleCrypto]
    split_ifs <;> exact cons_ne_nil _ _
  sign_ne_nil _ _ := cons_ne_nil _ _
  verify_sign _ _ _ _ := beq_self_eq_true _
  verify_inj _ _ _ _ _ h := (cons.inj (beq_iff_eq.mp h)).2.symm
  hmac_ne_sign := by
    intro k m k' m'
    simp only [sampleCrypto]
    split_ifs <;> simp
  not_verify_hmac := by
    intro p m k m'
    simp only [sampleCrypto]
    split_ifs <;> simp

/-- The request. -/
def sampleRequest : SynMap :=
  [("method", synText "POST"), ("url", synText "https://api.test/a"),
    ("body", synText "hi")]

/-- The request signed with a key and options, under a label. -/
def sampleSigning (label : Text) : Except Fault Signed :=
  signing sampleCrypto (fun _ _ => .ok ()) (.error []) sampleRequest
    { name := "K", material := fun _ => .ok (utf8 "k") }
    [("alg", synText "hmac-sha256"),
      ("created", { typeName := "number", shown := ['5'], kind := .number (some 5) }),
      ("nonce", synText "n1"), ("label", synText label)]

/-- The signature of the request under a label. -/
def sampleSigned (label : Text) : Signed where
  method := "POST"
  url := "https://api.test/a"
  body := utf8 "hi"
  alg := .hmacSha256
  created := 5
  keyid := "K"
  nonce := some "n1".toList
  label := label
  verifyKey := utf8 "k"
  signature := [44, 231, 233, 50, 169, 94, 208, 146, 198, 117, 107, 186, 60, 50, 214, 64, 104, 173,
    220, 185, 244, 129, 238, 121, 0, 15, 151, 219, 0, 196, 149, 60]

theorem sampleSigning_eq : ∀ label ∈ ["sig1".toList, "a=b".toList],
    sampleSigning label = .ok (sampleSigned label) := by
  decide +kernel

theorem sampleSigning_sig1 : sampleSigning "sig1" = .ok (sampleSigned "sig1") :=
  sampleSigning_eq _ mem_cons_self

theorem sampleSigning_equals : sampleSigning "a=b" = .ok (sampleSigned "a=b") :=
  sampleSigning_eq _ (mem_cons_of_mem _ mem_cons_self)

/-- The signature under `sig1` binds its request. -/
theorem signature_binds_sig1 : Verifies sampleCrypto sampleRequest (sampleSigned "sig1") ∧
    Binds sampleCrypto sampleRequest (sampleSigned "sig1") := by
  refine (signature_binds_iff sampleCrypto_ideal sampleSigning_sig1).mpr
    ⟨⟨?_, ?_⟩, ⟨?_, ?_⟩, urlOk_of_line ?_⟩
  · decide
  · decide
  · decide
  · intro h
    exact absurd h (by decide)
  · decide

/-- Under the label `a=b`, which `http_sign` takes, the signature does not verify with its own
request. -/
theorem label_with_equals : ¬ ∀ (C : Crypto) (gate : Text → SigAlg → Except Text Unit)
    (clock : Except Text Int64) (req opts : SynMap) (key : Key) (s : Signed), C.Ideal →
    signing C gate clock req key opts = .ok s → Verifies C req s ∧ Binds C req s := by
  intro h
  obtain ⟨hmethod, hurl, hbody, hs⟩ := signing_spec sampleSigning_equals
  obtain ⟨hverifies, -⟩ := h _ _ _ _ _ _ _ sampleCrypto_ideal sampleSigning_equals
  obtain ⟨hlabel, -⟩ := (verifies_iff sampleCrypto_ideal hs hmethod hurl hbody).mp hverifies
  exact absurd hlabel.1 (by decide)

end Synsema.Httpsig
