import Synsema.Http.Client
import Synsema.Lib.Http1

/-!
# One call, one request

The client writes a request from the texts that it is given without looking at them.  Read as
HTTP/1.1, what it sends is the one request that was meant exactly when every text can stand in
its place (`Carriable`); a line break in a header is enough to make it another request.
-/

namespace Synsema.Http

open Text Bytesutil List
open Http1 (Request IsToken IsTarget IsValue readRequest named bodyLength)

/-! ## The request that is meant -/

/-- A header as a field. -/
def field (p : Text × Text) : Bytes × Bytes := (utf8 p.1, utf8 p.2)

/-- The headers of a request: those of the client, and between them the given ones, with the
`Authorization` that the URL stands for. -/
def allHeaders (method : Text) (u : Url) (headers : Option (List (Text × Text)))
    (body : Option Bytes) : List (Text × Text) :=
  ("Host", hostHeader u) :: ("Connection", "close") ::
    ((withAuth u headers).getD [] ++ lengthHeader method body)

/-- The request that a call means: the upper-cased method, the path and the query of the URL, the
headers and the body. -/
def intended (upper : Text → Text) (method : Text) (u : Url)
    (headers : Option (List (Text × Text))) (body : Option Bytes) : Request where
  method := utf8 (upper method)
  target := utf8 u.path
  fields := (allHeaders method u headers body).map field
  body := body.getD []

theorem utf8_append (s t : Text) : utf8 (s ++ t) = utf8 s ++ utf8 t := flatMap_append

theorem utf8_headerLines (headers : List (Text × Text)) :
    utf8 (headers.flatMap headerLine) =
      ((headers.map field).map Http1.fieldLine).flatMap (· ++ Http1.crlf) := by
  induction headers with
  | nil => rfl
  | cons p headers ih =>
    have hcolon : utf8 ": " = [0x3a, 0x20] := by decide
    have hcrlf : utf8 crlf = Http1.crlf := by decide
    rw [flatMap_cons, utf8_append, ih, headerLine, utf8_append, utf8_append, utf8_append, hcolon,
      hcrlf]
    rfl

theorem buildHttpRequest_eq (upper : Text → Text) (method : Text) (u : Url)
    (headers : Option (List (Text × Text))) (body : Option Bytes) :
    buildHttpRequest upper method u.path (hostHeader u) (withAuth u headers) body =
      (intended upper method u headers body).write := by
  have hcrlf : utf8 crlf = Http1.crlf := by decide
  have hspace : utf8 [' '] = [0x20] := by decide
  have hversion : utf8 " HTTP/1.1" = [0x20] ++ Http1.version := by decide
  have hlines : "Host: " ++ hostHeader u ++ crlf ++ "Connection: close" ++ crlf ++
      ((withAuth u headers).getD []).flatMap headerLine ++
      (lengthHeader method body).flatMap headerLine =
        (allHeaders method u headers body).flatMap headerLine := by
    have hclose : "Connection: close" ++ crlf =
        headerLine ("Connection", "close") := rfl
    rw [allHeaders, flatMap_cons, flatMap_cons, flatMap_append, ← hclose, headerLine]
    simp only [append_assoc]
    rfl
  have hutf8 := utf8_headerLines (allHeaders method u headers body)
  rw [← hlines] at hutf8
  simp only [utf8_append, hcrlf] at hutf8
  rw [Request.write, flatMap_cons, intended, ← hutf8]
  simp only [buildHttpRequest, Request.line, utf8_append, hcrlf, hspace, hversion, append_assoc]

/-! ## The texts that can be carried -/

/-- The header has this name, whatever its letters; `name` is in small letters. -/
def Named (name : Bytes) (p : Text × Text) : Prop := (utf8 p.1).map Http1.lowerByte = name

instance (name : Bytes) (p : Text × Text) : Decidable (Named name p) :=
  inferInstanceAs (Decidable (_ = _))

/-- Every text can stand where the client writes it.  The method is a token, and the path has no
blank and no control; of a header, the name is a token and the value has no control and no blank
around it; no given header is a `Host` or a `Transfer-Encoding`, and none a `Content-Length`
beside the client's own: where there is none of its own, there is at most one, and it is zero. -/
structure Carriable (upper : Text → Text) (method : Text) (u : Url)
    (headers : Option (List (Text × Text))) (body : Option Bytes) : Prop where
  token : IsToken (utf8 (upper method))
  path : IsTarget (utf8 u.path)
  host : IsValue (utf8 (hostHeader u))
  given : ∀ p ∈ (withAuth u headers).getD [], IsToken (utf8 p.1) ∧ IsValue (utf8 p.2) ∧
    ¬ Named Http1.hostName p ∧ ¬ Named Http1.transferEncodingName p
  length : match ((withAuth u headers).getD []).filter fun p => Named Http1.contentLengthName p with
    | [] => True
    | [p] => lengthHeader method body = [] ∧ Http1.decimal (utf8 p.2) = some 0
    | _ => False

/-! ## The length of the body -/

theorem utf8_digit {c : Char} (hc : c.isDigit) :
    ∃ b : UInt8, String.utf8EncodeChar c = [b] ∧ 0x30 ≤ b ∧ b ≤ 0x39 ∧
      b.toNat - 0x30 = c.toNat - '0'.toNat := by
  have hall : ∀ n < 10, ∃ b : UInt8, String.utf8EncodeChar (Char.ofNat (48 + n)) = [b] ∧
      0x30 ≤ b ∧ b ≤ 0x39 ∧ b.toNat - 0x30 = (Char.ofNat (48 + n)).toNat - '0'.toNat := by
    intro n hn
    refine ⟨UInt8.ofNat (48 + n), ?_⟩
    revert n
    decide
  rw [Char.isDigit, Bool.and_eq_true, decide_eq_true_eq, decide_eq_true_eq] at hc
  have hlow : 48 ≤ c.toNat := UInt32.le_iff_toNat_le.mp hc.1
  have hhigh : c.toNat ≤ 57 := UInt32.le_iff_toNat_le.mp hc.2
  have h := hall (c.toNat - 48) (by omega)
  rwa [Nat.add_sub_cancel' hlow, Char.ofNat_toNat] at h

theorem foldl_utf8_digits {t : Text} (ht : allDigits t) :
    (∀ c ∈ utf8 t, 0x30 ≤ c ∧ c ≤ 0x39) ∧ ∀ n,
      (utf8 t).foldl (fun n c => n * 10 + (c.toNat - 0x30)) n = Nat.ofDigitChars 10 t n := by
  induction t with
  | nil => exact ⟨fun c hc => absurd hc not_mem_nil, fun n => rfl⟩
  | cons c t ih =>
    rw [allDigits, all_cons, Bool.and_eq_true] at ht
    obtain ⟨b, hb, hlow, hhigh, hval⟩ := utf8_digit ht.1
    obtain ⟨hbytes, hfold⟩ := ih ht.2
    have hutf8 : utf8 (c :: t) = b :: utf8 t := by
      rw [utf8, flatMap_cons, hb]
      rfl
    rw [hutf8]
    refine ⟨forall_mem_cons.mpr ⟨⟨hlow, hhigh⟩, hbytes⟩, fun n => ?_⟩
    rw [foldl_cons, hfold, Nat.ofDigitChars_cons, hval, Nat.mul_comm]

theorem decimal_digits (n : Nat) : Http1.decimal (utf8 (digits n)) = some n := by
  obtain ⟨hbytes, hfold⟩ := foldl_utf8_digits (allDigits_digits n)
  have hne : utf8 (digits n) ≠ [] := by
    intro h
    have hback := fromUtf8_utf8 (digits n)
    rw [h] at hback
    exact digits_ne_nil n (Option.some.inj (hback.symm.trans (fromUtf8_utf8 [])))
  rw [Http1.decimal, if_pos ⟨hne, hbytes⟩, hfold, ofDigitChars_digits]

/-! ## When the request that is meant is read -/

section Fields

variable {name : Bytes} {method : Text} {u : Url} {headers : Option (List (Text × Text))}
variable {body : Option Bytes} {upper : Text → Text}

theorem named_map_field (name : Bytes) (l : List (Text × Text)) :
    named name (l.map field) = (l.filter fun p => Named name p).map field := by
  rw [named, filter_map]
  congr 1
  refine filter_congr fun p _ => ?_
  rw [Bool.eq_iff_iff, decide_eq_true_eq, Function.comp_apply, beq_iff_eq]
  rfl

theorem lengthHeader_cases (method : Text) (body : Option Bytes) :
    lengthHeader method body = [] ∧ body = none ∨
      lengthHeader method body = [("Content-Length".toList, digits (body.getD []).length)] := by
  cases body with
  | some b => exact Or.inr rfl
  | none =>
    rw [lengthHeader]
    split_ifs
    · exact Or.inr rfl
    · exact Or.inl ⟨rfl, rfl⟩

theorem named_contentLength (t : Text) : Named Http1.contentLengthName ("Content-Length", t) := by
  have h : (utf8 "Content-Length").map Http1.lowerByte = Http1.contentLengthName := by decide
  exact h

variable {l : List (Text × Text)}

theorem filter_named {p : Text × Text} (h : Named name p) :
    (p :: l).filter (fun p => Named name p) = p :: l.filter fun p => Named name p :=
  filter_cons_of_pos (decide_eq_true h)

theorem filter_not_named {p : Text × Text} (h : ¬ Named name p) :
    (p :: l).filter (fun p => Named name p) = l.filter fun p => Named name p :=
  filter_cons_of_neg fun hp => h (of_decide_eq_true hp)

theorem filter_lengthHeader (hname : name ≠ Http1.contentLengthName) :
    (lengthHeader method body).filter (fun p => Named name p) = [] := by
  have hnot : ∀ t, ¬ Named name ("Content-Length", t) :=
    fun t h => hname (h.symm.trans (named_contentLength t))
  obtain ⟨h, -⟩ | h := lengthHeader_cases method body
  · rw [h, filter_nil]
  · rw [h, filter_not_named (hnot _), filter_nil]

theorem filter_allHeaders (hconnection : ¬ Named name ("Connection".toList, "close".toList)) :
    (allHeaders method u headers body).filter (fun p => Named name p) =
      [("Host".toList, hostHeader u)].filter (fun p => Named name p) ++
        (((withAuth u headers).getD []).filter (fun p => Named name p) ++
          (lengthHeader method body).filter fun p => Named name p) := by
  have hcons : allHeaders method u headers body = [("Host".toList, hostHeader u)] ++
      ("Connection".toList, "close".toList) ::
        ((withAuth u headers).getD [] ++ lengthHeader method body) := rfl
  rw [hcons, filter_append, filter_not_named hconnection, filter_append]

theorem filter_eq_nil_iff :
    l.filter (fun p => Named name p) = [] ↔ ∀ p ∈ l, ¬ Named name p := by
  rw [List.filter_eq_nil_iff]
  simp only [decide_eq_true_eq]

theorem length_named_host :
    (named Http1.hostName ((allHeaders method u headers body).map field)).length = 1 ↔
      ∀ p ∈ (withAuth u headers).getD [], ¬ Named Http1.hostName p := by
  have hhost : Named Http1.hostName ("Host", hostHeader u) := by
    have h : (utf8 "Host").map Http1.lowerByte = Http1.hostName := by decide
    exact h
  rw [named_map_field, filter_allHeaders (by decide), filter_lengthHeader (by decide),
    append_nil, filter_named hhost, filter_nil,
    singleton_append, length_map, length_cons, Nat.add_eq_right,
    length_eq_zero_iff, filter_eq_nil_iff]

theorem named_transferEncoding :
    named Http1.transferEncodingName ((allHeaders method u headers body).map field) = [] ↔
      ∀ p ∈ (withAuth u headers).getD [], ¬ Named Http1.transferEncodingName p := by
  have hhost : ¬ Named Http1.transferEncodingName ("Host", hostHeader u) := by
    have h : (utf8 "Host").map Http1.lowerByte ≠ Http1.transferEncodingName := by decide
    exact h
  rw [named_map_field, filter_allHeaders (by decide), filter_lengthHeader (by decide),
    append_nil, filter_not_named hhost, filter_nil,
    nil_append, map_eq_nil_iff, filter_eq_nil_iff]

theorem named_contentLength_allHeaders :
    named Http1.contentLengthName ((allHeaders method u headers body).map field) =
      (((withAuth u headers).getD []).filter (fun p => Named Http1.contentLengthName p) ++
        lengthHeader method body).map field := by
  have hhost : ¬ Named Http1.contentLengthName ("Host", hostHeader u) := by
    have h : (utf8 "Host").map Http1.lowerByte ≠ Http1.contentLengthName := by decide
    exact h
  have hlength : (lengthHeader method body).filter (fun p => Named Http1.contentLengthName p) =
      lengthHeader method body := by
    rw [filter_eq_self]
    intro p hp
    rw [decide_eq_true_eq]
    obtain ⟨h, -⟩ | h := lengthHeader_cases method body
    · rw [h] at hp
      exact absurd hp not_mem_nil
    · rw [h] at hp
      rw [mem_singleton.mp hp]
      exact named_contentLength _
  rw [named_map_field, filter_allHeaders (by decide), hlength,
    filter_not_named hhost, filter_nil, nil_append]

theorem bodyLength_allHeaders
    (hplain : ∀ p ∈ (withAuth u headers).getD [], ¬ Named Http1.transferEncodingName p) :
    bodyLength ((allHeaders method u headers body).map field) = some (body.getD []).length ↔
      match ((withAuth u headers).getD []).filter fun p => Named Http1.contentLengthName p with
      | [] => True
      | [p] => lengthHeader method body = [] ∧ Http1.decimal (utf8 p.2) = some 0
      | _ => False := by
  rw [bodyLength, if_neg (not_not.mpr (named_transferEncoding.mpr hplain)),
    named_contentLength_allHeaders]
  obtain ⟨h, rfl⟩ | h := lengthHeader_cases method body
  · rw [h, append_nil]
    rcases ((withAuth u headers).getD []).filter fun p => Named Http1.contentLengthName p with
      _ | ⟨p, _ | ⟨q, l⟩⟩
    · exact iff_of_true rfl trivial
    · exact ⟨fun hp => ⟨rfl, hp⟩, And.right⟩
    · exact iff_of_false nofun id
  · rw [h]
    rcases ((withAuth u headers).getD []).filter fun p => Named Http1.contentLengthName p with
      _ | ⟨p, _ | ⟨q, l⟩⟩
    · exact iff_of_true (decimal_digits _) trivial
    · exact iff_of_false nofun fun hp => by cases hp.1
    · exact iff_of_false nofun id

theorem wellFormed_intended :
    (intended upper method u headers body).WellFormed ↔ Carriable upper method u headers body := by
  constructor
  · intro h
    have hgiven : ∀ p ∈ (withAuth u headers).getD [], p ∈ allHeaders method u headers body := by
      intro p hp
      exact mem_cons_of_mem _ (mem_cons_of_mem _ (mem_append_left _ hp))
    have hplain : ∀ p ∈ (withAuth u headers).getD [], ¬ Named Http1.transferEncodingName p := by
      have hlength := h.length
      rw [bodyLength] at hlength
      split_ifs at hlength with hte
      exact named_transferEncoding.mp (not_not.mp hte)
    refine ⟨h.method, h.target, ?_, ?_, (bodyLength_allHeaders hplain).mp h.length⟩
    · exact (h.fields (field ("Host", hostHeader u)) (mem_map_of_mem
        mem_cons_self)).2
    · intro p hp
      obtain ⟨htoken, hvalue⟩ := h.fields (field p) (mem_map_of_mem (hgiven p hp))
      exact ⟨htoken, hvalue, length_named_host.mp h.host p hp, hplain p hp⟩
  · intro h
    have hhost : ∀ p ∈ (withAuth u headers).getD [], ¬ Named Http1.hostName p :=
      fun p hp => (h.given p hp).2.2.1
    have hplain : ∀ p ∈ (withAuth u headers).getD [], ¬ Named Http1.transferEncodingName p :=
      fun p hp => (h.given p hp).2.2.2
    refine ⟨h.token, h.path, ?_, length_named_host.mpr hhost,
      (bodyLength_allHeaders hplain).mpr h.length⟩
    intro f hf
    obtain ⟨p, hp, rfl⟩ := mem_map.mp hf
    have hlength : ∀ n, IsToken (utf8 "Content-Length") ∧ IsValue (utf8 (digits n)) := by
      intro n
      have hbytes := (foldl_utf8_digits (allDigits_digits n)).1
      have hdigit : ∀ c : UInt8, 0x30 ≤ c ∧ c ≤ 0x39 →
          Http1.isFieldByte c = true ∧ Http1.isBlank c = false := by
        intro c
        have hall : ∀ n < 256, 0x30 ≤ UInt8.ofNat n ∧ UInt8.ofNat n ≤ 0x39 →
            Http1.isFieldByte (UInt8.ofNat n) = true ∧ Http1.isBlank (UInt8.ofNat n) = false := by
          decide +kernel
        have hc := hall c.toNat c.toNat_lt
        rwa [UInt8.ofNat_toNat] at hc
      refine ⟨by decide, fun c hc => (hdigit c (hbytes c hc)).1, ?_, ?_⟩
      · exact fun c hc => (hdigit c (hbytes c (mem_of_mem_head? hc))).2
      · exact fun c hc => (hdigit c (hbytes c (mem_of_getLast? hc))).2
    rcases List.mem_cons.mp hp with rfl | hp
    · have htoken : IsToken (utf8 "Host") := by decide
      exact ⟨htoken, h.host⟩
    rcases List.mem_cons.mp hp with rfl | hp
    · have htoken : IsToken (utf8 "Connection") := by decide
      exact ⟨htoken, by decide⟩
    rcases mem_append.mp hp with hp | hp
    · exact ⟨(h.given p hp).1, (h.given p hp).2.1⟩
    · obtain ⟨hnone, -⟩ | hone := lengthHeader_cases method body
      · rw [hnone] at hp
        exact absurd hp not_mem_nil
      · rw [hone] at hp
        rw [mem_singleton.mp hp]
        exact hlength _

end Fields

/-! ## What is sent -/

/-- The bytes, read as HTTP/1.1, are the request `r` and nothing after it; it has one `Host`, and
at most one `Content-Length`, which is the length of the body. -/
structure OneRequest (bytes : Bytes) (r : Request) : Prop where
  read : readRequest bytes = some (r, [])
  host : (named Http1.hostName r.fields).length = 1
  length : named Http1.contentLengthName r.fields = [] ∧ r.body = [] ∨
    ∃ f, named Http1.contentLengthName r.fields = [f] ∧ Http1.decimal f.2 = some r.body.length

theorem oneRequest_iff {r : Request} : OneRequest r.write r ↔ r.WellFormed := by
  refine ⟨fun h => Http1.wellFormed_of_readRequest h.read, fun h => ?_⟩
  refine ⟨Http1.readRequest_write_iff.mpr h, h.host, ?_⟩
  have hlength := h.length
  rw [bodyLength] at hlength
  split_ifs at hlength
  rcases hnamed : named Http1.contentLengthName r.fields with _ | ⟨f, _ | ⟨g, l⟩⟩
  · rw [hnamed] at hlength
    exact Or.inl ⟨rfl, eq_nil_of_length_eq_zero (Option.some.inj hlength).symm⟩
  · rw [hnamed] at hlength
    exact Or.inr ⟨f, rfl, hlength⟩
  · rw [hnamed] at hlength
    cases hlength

theorem outgoing_ok {upper lower : Text → Text} {method url : Text}
    {headers : Option (List (Text × EdgeValue))} {body : Option EdgeValue} {tls : Option TlsCheck}
    {u : Url} {h : Option (List (Text × Text))} {b : Option Bytes} {bytes : Bytes}
    (hsent : outgoing upper lower method url headers body tls = .ok (u, h, b, bytes)) :
    bytes = (intended upper method u h b).write := by
  have hbind : ∀ {ε α β : Type} {x : Except ε α} {f : α → Except ε β} {c : β},
      (x >>= f) = .ok c → ∃ a, x = .ok a ∧ f a = .ok c := by
    intro ε α β x f c hx
    cases x with
    | error e => cases hx
    | ok a => exact ⟨a, rfl, hx⟩
  obtain ⟨⟨b₀, ct⟩, -, hsent⟩ := hbind hsent
  obtain ⟨pairs, -, hsent⟩ := hbind hsent
  obtain ⟨⟨u', bytes'⟩, hr, hsent⟩ := hbind hsent
  cases hsent
  rw [← buildHttpRequest_eq]
  cases hreq : requestBytes upper lower method url (withDefaultContentType pairs ct) b₀ tls with
  | error e =>
    rw [hreq] at hr
    cases hr
  | ok r =>
    rw [hreq] at hr
    cases hr
    obtain ⟨v, -, hbytes⟩ := hbind hreq
    split_ifs at hbytes
    cases hbytes
    rfl

/-- An outgoing call is exactly one request, the one that is meant, where every text can be
carried, and only there. -/
theorem oneRequest_outgoing_iff (upper lower : Text → Text) (method url : Text)
    (headers : Option (List (Text × EdgeValue))) (body : Option EdgeValue) (tls : Option TlsCheck)
    (u : Url) (h : Option (List (Text × Text))) (b : Option Bytes) (bytes : Bytes)
    (hsent : outgoing upper lower method url headers body tls = .ok (u, h, b, bytes)) :
    OneRequest bytes (intended upper method u h b) ↔ Carriable upper method u h b := by
  rw [outgoing_ok hsent, oneRequest_iff, wellFormed_intended]

/-- The URL of the calls below. -/
def sampleUrl : Url where
  scheme := "http"
  host := "127.0.0.1"
  port := 80
  path := "/a?b=1"
  userinfo := none

theorem oneRequest_outgoing_sample :
    OneRequest (intended toAsciiUppercase "get" sampleUrl
        (some [("X", "a b")]) (some [0x68, 0x69])).write
      (intended toAsciiUppercase "get" sampleUrl
        (some [("X", "a b")]) (some [0x68, 0x69])) := by
  refine (oneRequest_outgoing_iff toAsciiUppercase toAsciiLowercase "get"
    "HTTP://127.0.0.1/a?b=1#c" (some [("X", .text "a b")])
    (some (.text "hi")) none sampleUrl _ _ _ ?_).mpr ?_
  · rfl
  · refine ⟨by decide, by decide, by decide, ?_, trivial⟩
    intro p hp
    rw [mem_singleton.mp hp]
    exact ⟨by decide, by decide, by decide, by decide⟩

/-- A line break in a header makes it two. -/
theorem header_value_splits :
    outgoing toAsciiUppercase toAsciiLowercase "GET" "http://127.0.0.1/a?b=1"
        (some [("X", .text "1\r\nEvil: 2")]) none none =
      .ok (sampleUrl, some [("X", "1\r\nEvil: 2")], none,
        (intended toAsciiUppercase "GET" sampleUrl
          (some [("X", "1"), ("Evil", "2")]) none).write) ∧
      ¬ OneRequest (intended toAsciiUppercase "GET" sampleUrl
          (some [("X", "1"), ("Evil", "2")]) none).write
        (intended toAsciiUppercase "GET" sampleUrl
          (some [("X", "1\r\nEvil: 2")]) none) := by
  refine ⟨rfl, fun h => ?_⟩
  have hread := h.read
  revert hread
  decide

end Synsema.Http
