import Synsema.Lib.Delimited
import Synsema.Llm.Utf8
import Synsema.Capscope.Normal

/-!
# Multipart bodies

`multipart_boundary` and `parse_multipart` (`synsema-stdlib/src/routing.rs`): an uploaded form is a
list of parts between delimiters, each with its header lines and its bytes.

The delimiter is looked for everywhere in the body, not only behind a line end, and the header lines
are cut at every `;`, also within quotes.  So what a form is built of is read back exactly when no
part has the delimiter within it, no name and no file name has a `;`, and no type has blanks around
it or a line end (`parseMultipart_formBody`).
-/

namespace Synsema.Server

open Text Bytesutil Delimited Llm List Option

/-! ## The parser -/

structure FormPart where
  name : Text
  filename : Option Text
  contentType : Option Text
  data : Bytes
  deriving DecidableEq, Repr

/-- The bytes that end a line. -/
def crlf : Bytes := [0x0d, 0x0a]

/-- What ends a line. -/
def lineEnd : Text := ['\r', '\n']

/-- `str::trim_matches('"')`. -/
def trimQuotes (s : Text) : Text := trimEndMatches (· == '"') (s.dropWhile (· == '"'))

def multipartBoundary (contentType : Text) : Option Text :=
  let ct := trim contentType
  if startsWith "multipart/form-data" (toAsciiLowercase ct) then
    ((split ';' ct).drop 1).findSome? fun param => do
      let v ← stripPrefix "boundary=" (trim param)
      let v := trimQuotes (trim v)
      if v.isEmpty then none else some v
  else none

/-- Where delimiters start, from `pos` on: behind one that is found the search goes on. -/
def starts (delim body : Bytes) (pos : Nat) : List Nat :=
  if h : pos + delim.length ≤ body.length ∧ delim ≠ [] then
    if (body.drop pos).take delim.length = delim then
      pos :: starts delim body (pos + delim.length)
    else starts delim body (pos + 1)
  else []
  termination_by body.length - pos
  decreasing_by
  all_goals
    have := length_pos_iff.mpr h.2
    omega

/-- What stands between two starts that follow each other. -/
def between (delim body : Bytes) : List Nat → List Bytes
  | s :: e :: rest =>
    (body.take e).drop (s + delim.length) :: between delim body (e :: rest)
  | _ => []

/-- What the header lines of a part have given so far. -/
structure PartHead where
  name : Option Text := none
  filename : Option Text := none
  contentType : Option Text := none
  deriving DecidableEq, Repr

/-- A parameter of a `Content-Disposition` line. -/
def readParam (h : PartHead) (param : Text) : PartHead :=
  match stripPrefix "name=" (trim param) with
  | some v => { h with name := some (trimQuotes v) }
  | none =>
    match stripPrefix "filename=" (trim param) with
    | some v => { h with filename := some (trimQuotes v) }
    | none => h

/-- A header line of a part. -/
def readLine (h : PartHead) (line : Text) : PartHead :=
  let low := toAsciiLowercase line
  if startsWith "content-disposition:" low then
    ((split ';' line).drop 1).foldl readParam h
  else if startsWith "content-type:" low then
    { h with contentType := some (trim (line.drop 13)) }
  else h

/-- The header lines of a part. -/
def readHead (head : Text) : PartHead := (pieces lineEnd head).foldl readLine {}

/-- The bytes without the line end at their end. -/
def dropLineEnd (content : Bytes) : Bytes :=
  if crlf <:+ content then content.take (content.length - 2) else content

/-- What stands between two delimiters, as a part; none without header lines or a name. -/
def readSection (sec : Bytes) : Option FormPart := do
  let sec := (List.isPrefixOf? crlf sec).getD sec
  let (head, content) ← cut (crlf ++ crlf) sec
  let h := readHead (lossy none head)
  let name ← h.name
  some ⟨name, h.filename, h.contentType, dropLineEnd content⟩

/-- The bytes in front of every part. -/
def delimiter (boundary : Text) : Bytes := utf8 ("--" ++ boundary)

def parseMultipart (boundary : Text) (body : Bytes) : List FormPart :=
  let delim := delimiter boundary
  (between delim body (starts delim body 0)).filterMap readSection

/-! ## A form as it is sent -/

/-- A parameter of a header line, its value in quotes. -/
def quoted (key value : Text) : Text := ' ' :: key ++ '=' :: '"' :: value ++ ['"']

/-- The parameter that names a file. -/
def fileParam : Option Text → Text
  | none => []
  | some f => ';' :: quoted "filename" f

/-- What the line of a part begins with. -/
def formData : Text := "Content-Disposition: form-data"

/-- The line that names a part, and its file. -/
def disposition (p : FormPart) : Text :=
  formData ++ (';' :: quoted "name" p.name ++ fileParam p.filename)

/-- The line that gives a type. -/
def typeLine (t : Text) : Text := "Content-Type: " ++ t

/-- The line of a type behind another line. -/
def typePart : Option Text → Text
  | none => []
  | some t => lineEnd ++ typeLine t

/-- The header lines of a part. -/
def headText (p : FormPart) : Text := disposition p ++ typePart p.contentType

/-- What stands between the delimiters of a part and of what follows it. -/
def sectionOf (p : FormPart) : Bytes :=
  crlf ++ utf8 (headText p) ++ (crlf ++ crlf) ++ (p.data ++ crlf)

/-- The body behind its first delimiter. -/
def formRest (delim : Bytes) : List FormPart → Bytes
  | [] => utf8 "--\r\n"
  | p :: ps => sectionOf p ++ delim ++ formRest delim ps

/-- The body of a form (RFC 7578): every part behind a delimiter, the last delimiter closed. -/
def formBody (boundary : Text) (ps : List FormPart) : Bytes :=
  delimiter boundary ++ formRest (delimiter boundary) ps

/-! ## The bytes of a text -/

variable {c : Char} {t s v key line : Text} {sec : Bytes}

variable {b : UInt8} {u data : Bytes} {param pre head : Text} {h : PartHead}

theorem eq_of_mem_utf8EncodeChar (h : b ∈ String.utf8EncodeChar c) (hb : b.toNat < 0x80) :
    String.utf8EncodeChar c = [b] ∧ c = Char.ofNat b.toNat := by
  have hofNat (n : Nat) : (UInt8.ofNat (n % 64 + 0x80)).toNat = n % 64 + 0x80 :=
    toNat_ofNat_of_lt (by omega)
  have hval : c.val.toNat = c.toNat := rfl
  have hvalid : c.toNat < 0xd800 ∨ 0xdfff < c.toNat ∧ c.toNat < 0x110000 := c.valid
  simp only [String.utf8EncodeChar, hval] at h ⊢
  split at h
  next hc =>
    rw [mem_singleton] at h
    subst h
    refine ⟨by rw [if_pos hc], ?_⟩
    rw [toNat_ofNat_of_lt (by omega), Char.ofNat_toNat]
  next hc =>
    exfalso
    split at h
    next =>
      rcases mem_pair.mp h with rfl | rfl
      · rw [toNat_ofNat_of_lt (by omega)] at hb
        omega
      · rw [hofNat] at hb
        omega
    next =>
      split at h
      next =>
        simp only [List.mem_cons, not_mem_nil, or_false] at h
        rcases h with rfl | rfl | rfl
        · rw [toNat_ofNat_of_lt (by omega)] at hb
          omega
        · rw [hofNat] at hb
          omega
        · rw [hofNat] at hb
          omega
      next =>
        simp only [List.mem_cons, not_mem_nil, or_false] at h
        rcases h with rfl | rfl | rfl | rfl
        · rw [toNat_ofNat_of_lt (by omega)] at hb
          omega
        · rw [hofNat] at hb
          omega
        · rw [hofNat] at hb
          omega
        · rw [hofNat] at hb
          omega

theorem exists_of_utf8_eq_cons {v : Bytes} (h : utf8 t = u ++ b :: v) (hb : b.toNat < 0x80) :
    ∃ s s', t = s ++ Char.ofNat b.toNat :: s' ∧ utf8 s = u ∧ utf8 s' = v := by
  induction t generalizing u with
  | nil => exact absurd h.symm (by simp [utf8])
  | cons c t ih =>
    rw [utf8_cons] at h
    rcases append_eq_append_iff.mp h with ⟨w, rfl, ht⟩ | ⟨w, hc, hv⟩
    · obtain ⟨s, s', rfl, rfl, rfl⟩ := ih ht
      exact ⟨c :: s, s', rfl, utf8_cons c s, rfl⟩
    · cases w with
      | nil =>
        rw [append_nil] at hc
        obtain ⟨s, s', rfl, hs, rfl⟩ := ih (u := []) hv.symm
        refine ⟨c :: s, s', rfl, ?_, rfl⟩
        rw [utf8_cons, hs, append_nil, hc]
      | cons y w =>
        obtain ⟨rfl, htail⟩ := cons.inj hv
        obtain ⟨henc, hchar⟩ := eq_of_mem_utf8EncodeChar
          (hc ▸ mem_append_right u mem_cons_self) hb
        rw [henc] at hc
        obtain ⟨hu, hw⟩ := append_eq_singleton_iff.mp hc.symm |>.resolve_right
          (fun ⟨_, he⟩ => absurd he (cons_ne_nil _ _))
        cases hw
        exact ⟨[], t, by rw [hchar]; rfl, by rw [hu]; rfl, htail.symm⟩

theorem exists_of_utf8_eq_append {v : Bytes} (h : utf8 t = utf8 s ++ v) :
    ∃ t', t = s ++ t' ∧ utf8 t' = v := by
  have hscan := scanUtf8_append s v
  rw [← h, scanUtf8_utf8] at hscan
  cases hv : scanUtf8 none [] v with
  | whole t' =>
    rw [hv, Utf8.append_whole] at hscan
    obtain rfl := Utf8.whole.inj hscan
    rw [utf8, flatMap_append] at h
    exact ⟨t', rfl, append_cancel_left h⟩
  | cut valid tail =>
    rw [hv, Utf8.append_cut] at hscan
    cases hscan
  | broken =>
    rw [hv] at hscan
    have hbroken (s : Text) : Utf8.append s .broken = .broken := by
      induction s with
      | nil => rfl
      | cons c s ih => exact congrArg (Utf8.cons c) ih
    rw [hbroken] at hscan
    cases hscan

theorem exists_of_utf8_eq {v : Bytes} (hc : c.toNat < 0x80) (h : utf8 t = u ++ utf8 (c :: s) ++ v) :
    ∃ t₁ t₂, t = t₁ ++ c :: s ++ t₂ ∧ utf8 t₁ = u ∧ utf8 t₂ = v := by
  have henc : String.utf8EncodeChar c = [UInt8.ofNat c.toNat] := by
    have hval : c.val.toNat = c.toNat := rfl
    simp only [String.utf8EncodeChar, hval]
    rw [if_pos (by omega)]
  have hnat : (UInt8.ofNat c.toNat).toNat = c.toNat := toNat_ofNat_of_lt (by omega)
  rw [utf8_cons, henc, append_assoc, append_assoc, singleton_append] at h
  obtain ⟨t₁, s', rfl, hu, hv⟩ := exists_of_utf8_eq_cons h (by omega)
  obtain ⟨t₂, rfl, hv₂⟩ := exists_of_utf8_eq_append hv
  rw [hnat, Char.ofNat_toNat]
  exact ⟨t₁, t₂, by simp, hu, hv₂⟩

theorem lossy_of_awaits {p : Pending} {bs : Bytes} (h : Awaits p bs c) (rest : Bytes) :
    lossy (some p) (bs ++ rest) = c :: lossy none rest := by
  induction h with
  | last hrange hmore hc =>
    subst hc
    simp only [cons_append, nil_append, lossy, if_pos hrange, hmore]
  | more hrange hmore _ ih => simp only [cons_append, lossy, if_pos hrange, hmore, ih]

theorem lossy_utf8 (t : Text) : lossy none (utf8 t) = t := by
  induction t with
  | nil => rfl
  | cons c t ih =>
    rw [utf8_cons]
    rcases utf8EncodeChar_cases c with ⟨b, henc, hfirst⟩ | ⟨b, bs, p, henc, hfirst, hwaits⟩
    · rw [henc, singleton_append, lossy, lossyStart, hfirst]
      exact congrArg (List.cons c) ih
    · rw [henc, cons_append, lossy, lossyStart, hfirst]
      exact (lossy_of_awaits hwaits _).trans (congrArg _ ih)

/-! ## The sections of a body -/

variable {delim body : Bytes}

theorem starts_eq (hd : delim ≠ []) (pos : Nat) :
    starts delim body pos =
      match cut delim (body.drop pos) with
      | none => []
      | some (a, _) => (pos + a.length) :: starts delim body (pos + a.length + delim.length) := by
  fun_induction starts delim body pos with
  | case1 pos h htake ih =>
    have hcut : cut delim (body.drop pos) = some ([], (body.drop pos).drop delim.length) := by
      refine cut_eq_some_iff.mpr ⟨?_, clear_nil⟩
      rw [nil_append]
      conv_lhs => rw [← take_append_drop delim.length (body.drop pos), htake]
    rw [hcut]
    rfl
  | case2 pos h htake ih =>
    have hpos := length_pos_iff.mpr hd
    have hlt : pos < body.length := by omega
    rw [drop_eq_getElem_cons hlt, cut]
    have hnot : ¬ delim <+: body[pos] :: body.drop (pos + 1) := by
      rw [← drop_eq_getElem_cons hlt]
      intro hpre
      exact htake (prefix_iff_eq_take.mp hpre).symm
    rw [if_neg hnot, ih]
    cases cut delim (body.drop (pos + 1)) with
    | none => rfl
    | some ab =>
      simp only [map_some, length_cons]
      rw [show pos + 1 + ab.1.length = pos + (ab.1.length + 1) by omega]
  | case3 pos h =>
    have hlen : body.length < pos + delim.length := by
      rcases not_and_or.mp h with h | h
      · omega
      · exact absurd hd h
    have hcut : cut delim (body.drop pos) = none := by
      refine cut_eq_none_iff.mpr fun hinf => ?_
      have hle := hinf.length_le
      rw [length_drop] at hle
      have := length_pos_iff.mpr hd
      omega
    rw [hcut]

theorem between_starts (hd : delim ≠ []) (pos : Nat) :
    between delim body (starts delim body pos) = (pieces delim (body.drop pos)).tail.dropLast := by
  induction hn : body.length - pos using Nat.strong_induction_on generalizing pos with
  | _ n ih =>
    subst hn
    rw [starts_eq hd]
    cases hcut : cut delim (body.drop pos) with
    | none =>
      rw [pieces_eq_singleton (cut_eq_none_iff.mp hcut)]
      rfl
    | some ab =>
      obtain ⟨a, b⟩ := ab
      rw [pieces_of_cut hd hcut, tail_cons]
      have hbody := eq_of_cut hcut
      have hb : body.drop (pos + a.length + delim.length) = b := by
        rw [Nat.add_assoc, ← drop_drop, hbody, ← length_append, drop_left]
      have hpos := length_pos_iff.mpr hd
      have hlen := congrArg List.length hbody
      simp only [length_append, length_drop] at hlen
      have ih' := ih _ (by omega) (pos + a.length + delim.length) rfl
      rw [hb] at ih'
      change between delim body ((pos + a.length) :: starts delim body _) = _
      rw [starts_eq hd (pos + a.length + delim.length), hb]
      cases hcut' : cut delim b with
      | none =>
        rw [pieces_eq_singleton (cut_eq_none_iff.mp hcut')]
        rfl
      | some ab' =>
        obtain ⟨a', b'⟩ := ab'
        rw [starts_eq hd, hb, hcut', pieces_of_cut hd hcut', tail_cons] at ih'
        rw [pieces_of_cut hd hcut', dropLast_cons_of_ne_nil (pieces_ne_nil _ _), ← ih']
        refine congrArg (List.cons · _) ?_
        rw [List.drop_take, hb, eq_of_cut hcut', append_assoc]
        rw [show pos + a.length + delim.length + a'.length - (pos + a.length + delim.length) =
          a'.length by omega, take_left]

theorem delimiter_ne_nil (boundary : Text) : delimiter boundary ≠ [] := cons_ne_nil _ _

theorem parseMultipart_eq (boundary : Text) (body : Bytes) :
    parseMultipart boundary body =
      (pieces (delimiter boundary) body).tail.dropLast.filterMap readSection :=
  congrArg (List.filterMap readSection) (between_starts (delimiter_ne_nil boundary) 0)

/-! ## What a part can be -/

/-- What every part that is read has: no `;` in its names, no blanks around its type and no line end
in it. -/
structure Readable (name filename contentType : Option Text) : Prop where
  name : ∀ n ∈ name, ';' ∉ n
  filename : ∀ f ∈ filename, ';' ∉ f
  contentType : ∀ t ∈ contentType, trim t = t ∧ ¬ lineEnd <:+: t

theorem trim_within (t : Text) : trim t <:+: t :=
  (List.rdropWhile_prefix _ _).isInfix.trans (dropWhile_suffix _).isInfix

theorem trimQuotes_within (t : Text) : trimQuotes t <:+: t :=
  (List.rdropWhile_prefix _ _).isInfix.trans (dropWhile_suffix _).isInfix

theorem value_within (h : stripPrefix key (trim param) = some v) : trimQuotes v <:+: param := by
  refine (trimQuotes_within v).trans (List.IsInfix.trans ?_ (trim_within param))
  rw [stripPrefix_eq_some.mp h]
  exact (suffix_append key v).isInfix

/-- A head that holds what can be read. -/
def PartHead.Readable (h : PartHead) : Prop := Server.Readable h.name h.filename h.contentType

theorem readable_readParam (hr : h.Readable) (hp : ';' ∉ param) : (readParam h param).Readable := by
  rw [readParam]
  split
  next v hv =>
    refine ⟨fun n hn => ?_, hr.filename, hr.contentType⟩
    obtain rfl := Option.some.inj hn
    exact fun hm => hp ((value_within hv).subset hm)
  next =>
    split
    next v hv =>
      refine ⟨hr.name, fun f hf => ?_, hr.contentType⟩
      obtain rfl := Option.some.inj hf
      exact fun hm => hp ((value_within hv).subset hm)
    next => exact hr

theorem readable_readLine (hr : h.Readable) (hl : ¬ lineEnd <:+: line) :
    (readLine h line).Readable := by
  simp only [readLine]
  split
  · have hparams : ∀ param ∈ (split ';' line).drop 1, ';' ∉ param := fun param hm =>
      Capscope.not_mem_of_mem_split (mem_of_mem_drop hm)
    exact List.foldlRecOn _ _ hr fun h' hr' param hm => readable_readParam hr' (hparams param hm)
  · split
    · refine ⟨hr.name, hr.filename, fun t ht => ?_⟩
      obtain rfl := Option.some.inj ht
      refine ⟨trim_trim _, fun hin => hl ?_⟩
      exact hin.trans ((trim_within _).trans (drop_suffix _ _).isInfix)
    · exact hr

theorem readable_readHead (head : Text) : (readHead head).Readable := by
  have hnone : PartHead.Readable {} := by
    refine ⟨fun n hn => ?_, fun n hn => ?_, fun n hn => ?_⟩
    · cases hn
    · cases hn
    · cases hn
  exact List.foldlRecOn _ _ hnone fun h hr line hm =>
    readable_readLine hr (not_infix_of_mem_pieces (cons_ne_nil _ _) hm)

theorem readSection_eq_some {p : FormPart} (h : readSection sec = some p) :
    ∃ lead head content, sec = lead ++ head ++ (crlf ++ crlf) ++ content ∧
      (lead = [] ∨ lead = crlf) ∧ Clear (crlf ++ crlf) head ∧ dropLineEnd content = p.data ∧
      readHead (lossy none head) = ⟨some p.name, p.filename, p.contentType⟩ := by
  rw [readSection] at h
  obtain ⟨⟨head, content⟩, hcut, h⟩ := bind_eq_some_iff.mp h
  obtain ⟨name, hname, h⟩ := bind_eq_some_iff.mp h
  obtain rfl := Option.some.inj h
  obtain ⟨hsec, hclear⟩ := cut_eq_some_iff.mp hcut
  have hhead : readHead (lossy none head) = ⟨some name, (readHead (lossy none head)).filename,
      (readHead (lossy none head)).contentType⟩ := by rw [← hname]
  cases hpre : List.isPrefixOf? crlf sec with
  | none =>
    rw [hpre, getD_none] at hsec
    exact ⟨[], head, content, hsec, .inl rfl, hclear, rfl, hhead⟩
  | some sec' =>
    rw [hpre, getD_some] at hsec
    refine ⟨crlf, head, content, ?_, .inr rfl, hclear, rfl, hhead⟩
    rw [← isPrefixOf?_eq_some_iff_append_eq.mp hpre, hsec]
    simp only [append_assoc]

theorem readable_of_readSection {p : FormPart} (h : readSection sec = some p) :
    Readable (some p.name) p.filename p.contentType := by
  obtain ⟨-, head, -, -, -, -, -, hhead⟩ := readSection_eq_some h
  have hr := readable_readHead (lossy none head)
  rwa [hhead] at hr

/-! ## Reading a part that was sent -/

/-- The names of the part can stand in quotes on a line. -/
structure Quotable (p : FormPart) : Prop where
  name : ∀ c ∈ p.name, c ≠ '"' ∧ c ≠ '\r' ∧ c ≠ '\n'
  filename : ∀ f ∈ p.filename, ∀ c ∈ f, c ≠ '"' ∧ c ≠ '\r' ∧ c ≠ '\n'

theorem trimQuotes_quoted (hv : '"' ∉ v) : trimQuotes ('"' :: v ++ ['"']) = v := by
  have hhead : ('"' :: v ++ ['"']).dropWhile (· == '"') = (v ++ ['"']).dropWhile (· == '"') := rfl
  rw [trimQuotes, hhead]
  cases v with
  | nil => rfl
  | cons c v =>
    have hc : ¬ (c == '"') := fun he =>
      hv (List.mem_cons.mpr (.inl (beq_iff_eq.mp he).symm))
    rw [cons_append, dropWhile_cons_of_neg (p := (· == '"')) hc, trimEndMatches,
      ← cons_append,
      rdropWhile_concat_pos _ _ _ rfl, rdropWhile_eq_self_iff]
    intro hne he
    exact hv (beq_iff_eq.mp he ▸ getLast_mem hne)

theorem trim_quoted (hkey : ∀ c ∈ key.head?, isWhitespace c = false) (hne : key ≠ []) (v : Text) :
    trim (quoted key v) = key ++ '=' :: ('"' :: v ++ ['"']) := by
  have hhead : trim (quoted key v) = trim (key ++ '=' :: '"' :: v ++ ['"']) := rfl
  rw [hhead, trim_eq_self]
  · simp
  · intro c hc
    rw [append_assoc, head?_append_of_ne_nil _ hne] at hc
    exact hkey c hc
  · intro c hc
    rw [getLast?_concat] at hc
    obtain rfl := Option.some.inj hc
    rfl

theorem readParam_name (h : PartHead) (hv : '"' ∉ v) :
    readParam h (quoted "name" v) = { h with name := some v } := by
  have hstrip : stripPrefix "name=" (trim (quoted "name" v)) =
      some ('"' :: v ++ ['"']) := by
    rw [stripPrefix_eq_some, trim_quoted (by decide) (by decide)]
    rfl
  rw [readParam, hstrip]
  simp only [trimQuotes_quoted hv]

theorem stripPrefix_name_filename (v : Text) :
    stripPrefix "name=" (trim (quoted "filename" v)) = none := by
  rw [trim_quoted (by decide) (by decide)]
  rfl

theorem readParam_filename (h : PartHead) (hv : '"' ∉ v) :
    readParam h (quoted "filename" v) = { h with filename := some v } := by
  have hstrip : stripPrefix "filename=" (trim (quoted "filename" v)) =
      some ('"' :: v ++ ['"']) := by
    rw [stripPrefix_eq_some, trim_quoted (by decide) (by decide)]
    rfl
  rw [readParam, stripPrefix_name_filename, hstrip]
  simp only [trimQuotes_quoted hv]

theorem startsWith_append (h : pre <+: toAsciiLowercase s) (t : Text) :
    startsWith pre (toAsciiLowercase (s ++ t)) = true := by
  rw [startsWith, toAsciiLowercase, map_append]
  exact isPrefixOf_iff_prefix.mpr (h.trans (prefix_append _ _))

theorem not_startsWith_append (h : ¬ pre <+: toAsciiLowercase s) (h' : ¬ toAsciiLowercase s <+: pre)
    (t : Text) : startsWith pre (toAsciiLowercase (s ++ t)) = false := by
  rw [startsWith, toAsciiLowercase, map_append, Bool.eq_false_iff, ne_eq, isPrefixOf_iff_prefix]
  intro hpre
  rcases prefix_or_prefix_of_prefix hpre (prefix_append _ _) with hp | hp
  · exact h hp
  · exact h' hp

theorem lower_disposition : "content-disposition:" <+: toAsciiLowercase formData := by
  decide

theorem lower_type : "content-type:" <+: toAsciiLowercase "Content-Type: " := by
  decide

theorem lower_type_ne_disposition :
    ¬ "content-disposition:" <+: toAsciiLowercase "Content-Type: " ∧
      ¬ toAsciiLowercase "Content-Type: " <+: "content-disposition:" := by
  decide

theorem semicolon_not_mem_quoted (hkey : ';' ∉ key) (hv : ';' ∉ v) : ';' ∉ quoted key v := by
  simp [quoted, hkey, hv]

variable {p : FormPart}

theorem readLine_disposition (hq : Quotable p)
    (hr : Readable (some p.name) p.filename p.contentType) (h : PartHead) :
    readLine h (disposition p) =
      { h with name := some p.name, filename := p.filename.or h.filename } := by
  have hn : '"' ∉ p.name := fun hm => (hq.name _ hm).1 rfl
  have hsemi : ';' ∉ quoted "name" p.name :=
    semicolon_not_mem_quoted (by decide) (hr.name _ rfl)
  have hlow : startsWith "content-disposition:"
      (toAsciiLowercase (disposition p)) = true := by
    rw [disposition]
    exact startsWith_append lower_disposition _
  simp only [readLine, hlow, if_true]
  rw [disposition, cons_append, split, splitOn_append_cons_self_of_not_mem (by decide)]
  cases hf : p.filename with
  | none =>
    rw [fileParam, append_nil, splitOn_eq_singleton hsemi]
    exact readParam_name h hn
  | some f =>
    have hfq : '"' ∉ f := fun hm => (hq.filename f hf _ hm).1 rfl
    have hfs : ';' ∉ quoted "filename" f :=
      semicolon_not_mem_quoted (by decide) (hr.filename f hf)
    rw [fileParam, splitOn_append_cons_self_of_not_mem hsemi, splitOn_eq_singleton hfs]
    change readParam (readParam h _) _ = _
    rw [readParam_name h hn, readParam_filename _ hfq]
    rfl

theorem not_disposition_typeLine (t : Text) :
    startsWith "content-disposition:" (toAsciiLowercase (typeLine t)) = false :=
  not_startsWith_append lower_type_ne_disposition.1 lower_type_ne_disposition.2 t

theorem readLine_typeLine (ht : trim t = t) (h : PartHead) :
    readLine h (typeLine t) = { h with contentType := some t } := by
  have hlow : startsWith "content-type:" (toAsciiLowercase (typeLine t)) :=
    startsWith_append lower_type t
  have htrim : trim ((typeLine t).drop 13) = trim t := rfl
  simp only [readLine, not_disposition_typeLine, hlow, htrim, ht, if_true, Bool.false_eq_true,
    if_false]

theorem return_not_mem_quoted (hkey : '\r' ∉ key) (hv : '\r' ∉ v) : '\r' ∉ quoted key v := by
  simp [quoted, hkey, hv]

theorem return_not_mem_disposition (hq : Quotable p) : '\r' ∉ disposition p := by
  have hn : '\r' ∉ quoted "name" p.name :=
    return_not_mem_quoted (by decide) fun hm => (hq.name _ hm).2.1 rfl
  rw [disposition, mem_append, cons_append, List.mem_cons, mem_append]
  rintro (hm | hm | hm | hm)
  · exact absurd hm (by decide)
  · exact absurd hm (by decide)
  · exact hn hm
  · cases hf : p.filename with
    | none =>
      rw [hf] at hm
      exact not_mem_nil hm
    | some f =>
      rw [hf] at hm
      rcases List.mem_cons.mp hm with hm | hm
      · exact absurd hm (by decide)
      · exact return_not_mem_quoted (by decide) (fun hm => (hq.filename f hf _ hm).2.1 rfl) hm

/-! ### Line ends -/

theorem utf8_lineEnds : utf8 (lineEnd ++ lineEnd) = crlf ++ crlf := by decide

theorem clear_of_no_lineEnd (ht : ¬ lineEnd <:+: t) : Clear (lineEnd ++ lineEnd) t := by
  intro u v huv
  rw [append_assoc] at huv
  rcases append_eq_append_iff.mp huv with ⟨w, -, hw⟩ | ⟨w, rfl, hw⟩
  · have hlen := congrArg List.length hw
    simp only [length_append] at hlen
    exact length_eq_zero_iff.mp (by omega)
  · rcases w with _ | ⟨x, _ | ⟨y, w⟩⟩
    · exact append_cancel_left (hw.trans (append_nil _).symm)
    · exact absurd (cons.inj (cons.inj hw).2).1 (by decide)
    · obtain ⟨rfl, hrest⟩ := cons.inj hw
      obtain ⟨rfl, -⟩ := cons.inj hrest
      exact absurd ⟨u, w, by rw [append_assoc]; rfl⟩ ht

theorem clear_line {x : Char} {a : Text} (hx : x ≠ '\r') (h : Clear (lineEnd ++ lineEnd) (x :: a)) :
    Clear (lineEnd ++ lineEnd) (lineEnd ++ x :: a) := by
  intro u v huv
  rcases u with _ | ⟨c, _ | ⟨d, u⟩⟩
  · exact absurd (cons.inj (cons.inj (cons.inj huv).2).2).1 hx
  · exact absurd (cons.inj (cons.inj huv).2).1 (by decide)
  · exact h u v (cons.inj (cons.inj huv).2).2

theorem clear_utf8 (hc : c.toNat < 0x80) (h : Clear (c :: s) t) :
    Clear (utf8 (c :: s)) (utf8 t) := by
  intro u v huv
  have happ : utf8 (t ++ c :: s) = u ++ utf8 (c :: s) ++ v := by
    rw [← huv, utf8, flatMap_append]
    rfl
  obtain ⟨t₁, t₂, ht, -, rfl⟩ := exists_of_utf8_eq hc happ
  rw [h t₁ t₂ ht]
  rfl

theorem typeLine_no_lineEnd (ht : ¬ lineEnd <:+: t) : ¬ lineEnd <:+: typeLine t :=
  fun h => ht (infix_of_infix_append (l := "Content-Type: ".toList) (by decide) h)

theorem clear_headText (hq : Quotable p) (hr : Readable (some p.name) p.filename p.contentType) :
    Clear (lineEnd ++ lineEnd) (lineEnd ++ headText p) := by
  have hhead : Clear (lineEnd ++ lineEnd) (headText p) := by
    refine Clear.append (return_not_mem_disposition hq) ?_
    cases ht : p.contentType with
    | none => exact clear_nil
    | some t =>
      exact clear_line (x := 'C') (by decide)
        (clear_of_no_lineEnd (typeLine_no_lineEnd (hr.contentType t ht).2))
  exact clear_line (x := 'C') (by decide) hhead

theorem readHead_headText (hq : Quotable p) (hr : Readable (some p.name) p.filename p.contentType) :
    readHead (headText p) = ⟨some p.name, p.filename, p.contentType⟩ := by
  have hdisp : Clear lineEnd (disposition p) := by
    have := Clear.append (s := "\n") (return_not_mem_disposition hq) clear_nil
    rwa [append_nil] at this
  rw [readHead, headText]
  cases ht : p.contentType with
  | none =>
    have hnot : ¬ lineEnd <:+: disposition p := fun hin =>
      return_not_mem_disposition hq (hin.subset mem_cons_self)
    rw [typePart, append_nil, pieces_eq_singleton hnot]
    simp [readLine_disposition hq hr]
  | some t =>
    obtain ⟨htrim, hline⟩ := hr.contentType t ht
    rw [typePart, ← append_assoc, pieces_append (by decide) hdisp,
      pieces_eq_singleton (typeLine_no_lineEnd hline)]
    simp [readLine_disposition hq hr, readLine_typeLine htrim]

theorem dropLineEnd_append (data : Bytes) : dropLineEnd (data ++ crlf) = data := by
  rw [dropLineEnd, if_pos (suffix_append _ _), length_append]
  exact take_left

theorem readSection_sectionOf (hq : Quotable p)
    (hr : Readable (some p.name) p.filename p.contentType) :
    readSection (sectionOf p) = some p := by
  have hclear : Clear (crlf ++ crlf) (utf8 (headText p)) := by
    rw [← utf8_lineEnds]
    exact clear_utf8 (by decide) (clear_headText hq hr).tail.tail
  have hpre : List.isPrefixOf? crlf (sectionOf p) =
      some (utf8 (headText p) ++ (crlf ++ crlf) ++ (p.data ++ crlf)) := by
    rw [isPrefixOf?_eq_some_iff_append_eq, sectionOf]
    simp only [append_assoc]
  rw [readSection, hpre, getD_some, cut_append hclear]
  simp only [bind_eq_bind, bind_some, lossy_utf8, readHead_headText hq hr, dropLineEnd_append]

/-! ## What stands behind a delimiter in the header lines

A delimiter within the header lines of a part leaves no line behind it that names the part, or
none that gives its type. -/

theorem drop_split_suffix {w : Text} (h : w <:+ s) : (split c w).drop 1 <:+ (split c s).drop 1 := by
  induction s with
  | nil => rw [suffix_nil.mp h]
  | cons x s ih =>
    rcases suffix_cons_iff.mp h with rfl | h
    · exact suffix_rfl
    · refine (ih h).trans ?_
      simp only [split, splitOn_cons_eq_if_modifyHead]
      split
      · exact drop_suffix 1 _
      · cases s.splitOn c with
        | nil | cons t parts => exact suffix_rfl

theorem contentType_foldl_readParam (params : List Text) (h : PartHead) :
    (params.foldl readParam h).contentType = h.contentType := by
  refine List.foldlRecOn params readParam (motive := fun h' ↦ h'.contentType = h.contentType) rfl ?_
  intro h' hh' param _
  rw [readParam]
  split
  · exact hh'
  · split
    · exact hh'
    · exact hh'

theorem name_foldl_readParam {params : List Text} (h : PartHead)
    (hparams : ∀ param ∈ params, stripPrefix "name=" (trim param) = none) :
    (params.foldl readParam h).name = h.name := by
  refine List.foldlRecOn params readParam (motive := fun h' => h'.name = h.name) rfl ?_
  intro h' hh' param hm
  rw [readParam, hparams param hm]
  simp only
  split
  · exact hh'
  · exact hh'

theorem name_readLine_of_not
    (hl : startsWith "content-disposition:" (toAsciiLowercase line) = false) (h : PartHead) :
    (readLine h line).name = h.name := by
  simp only [readLine, hl, Bool.false_eq_true, if_false]
  split
  · rfl
  · rfl

theorem name_readLine_of_params
    (hl : ∀ param ∈ (split ';' line).drop 1, stripPrefix "name=" (trim param) = none)
    (h : PartHead) : (readLine h line).name = h.name := by
  simp only [readLine]
  split
  · exact name_foldl_readParam h hl
  · split
    · rfl
    · rfl

theorem name_readHead (hl : ∀ line ∈ pieces lineEnd head, ∀ h, (readLine h line).name = h.name) :
    (readHead head).name = none := by
  refine List.foldlRecOn (pieces lineEnd head) readLine (b := {})
    (motive := fun h => h.name = none) rfl ?_
  intro h hh line hm
  rw [hl line hm, hh]

theorem name_readLine_tail (hr : Readable (some p.name) p.filename p.contentType) {w : Text}
    (hw : w <:+ quoted "name" p.name ++ fileParam p.filename) (h : PartHead) :
    (readLine h w).name = h.name := by
  refine name_readLine_of_params (fun param hm => ?_) h
  have hsemi : ';' ∉ quoted "name" p.name :=
    semicolon_not_mem_quoted (by decide) (hr.name _ rfl)
  have hm' := (drop_split_suffix hw).subset hm
  cases hf : p.filename with
  | none =>
    rw [hf, fileParam, append_nil, split, splitOn_eq_singleton hsemi] at hm'
    exact absurd hm' not_mem_nil
  | some f =>
    have hfs : ';' ∉ quoted "filename" f :=
      semicolon_not_mem_quoted (by decide) (hr.filename f hf)
    rw [hf, fileParam, split, splitOn_append_cons_self_of_not_mem hsemi,
      splitOn_eq_singleton hfs] at hm'
    obtain rfl := mem_singleton.mp hm'
    exact stripPrefix_name_filename f

/-- A text without a line end. -/
def LineFree (s : Text) : Prop := '\r' ∉ s ∧ '\n' ∉ s

instance (s : Text) : Decidable (LineFree s) := inferInstanceAs (Decidable (_ ∧ _))

variable {boundary t₁ t₂ t₃ w : Text}

theorem suffix_of_disposition (h : lineEnd ++ disposition p = t₁ ++ '-' :: '-' :: boundary ++ w) :
    w <:+ quoted "name" p.name ++ fileParam p.filename := by
  have hsplit : lineEnd ++ disposition p =
      lineEnd ++ formData ++ [';'] ++ (quoted "name" p.name ++ fileParam p.filename) := by
    rw [disposition]
    simp only [append_assoc, cons_append, nil_append]
  have hnot : ¬ ['-', '-'] <:+: lineEnd ++ formData ++ [';'] := by decide
  have heq := hsplit.symm.trans h
  rcases Nat.lt_or_ge (t₁ ++ '-' :: '-' :: boundary).length
      (lineEnd ++ formData ++ [';']).length with hlt | hge
  · have hpre : t₁ ++ ['-', '-'] <+: lineEnd ++ formData ++ [';'] := by
      refine @List.prefix_of_prefix_length_le _ _ _ (lineEnd ++ disposition p) ?_ ?_ ?_
      · exact ⟨boundary ++ w, by rw [h]; simp⟩
      · exact ⟨_, hsplit.symm⟩
      · simp only [length_append, length_cons, length_nil] at hlt ⊢
        omega
    exact absurd ((suffix_append _ _).isInfix.trans hpre.isInfix) hnot
  · obtain ⟨r, hr⟩ := prefix_of_prefix_length_le ⟨_, hsplit.symm⟩ ⟨w, h.symm⟩ hge
    rw [← hr, append_assoc (lineEnd ++ formData ++ [';'])] at heq
    exact ⟨r, (append_cancel_left heq).symm⟩

theorem lines_behind (hr : Readable (some p.name) p.filename p.contentType) (hw : '\r' ∉ w)
    (h : w ++ typePart p.contentType = t₃ ∨ w ++ typePart p.contentType = lineEnd ++ t₃) :
    ∀ line ∈ pieces lineEnd t₃, line = w ∨ ∃ t, p.contentType = some t ∧ line = typeLine t := by
  have hclear : Clear lineEnd w := by
    have := Clear.append (s := ['\n']) hw clear_nil
    rwa [append_nil] at this
  have hnot : ¬ lineEnd <:+: w := fun hin => hw (hin.subset mem_cons_self)
  intro line hm
  rcases h with rfl | h
  · cases ht : p.contentType with
    | none =>
      rw [ht, typePart, append_nil, pieces_eq_singleton hnot] at hm
      exact .inl (mem_singleton.mp hm)
    | some t =>
      have hline := typeLine_no_lineEnd (hr.contentType t ht).2
      rw [ht, typePart, ← append_assoc, pieces_append (by decide) hclear,
        pieces_eq_singleton hline, mem_pair] at hm
      rcases hm with rfl | rfl
      · exact .inl rfl
      · exact .inr ⟨t, rfl, rfl⟩
  · cases w with
    | cons c w =>
      exact absurd (cons.inj h).1 (fun he => hw (he ▸ mem_cons_self))
    | nil =>
      cases ht : p.contentType with
      | none =>
        rw [ht] at h
        cases h
      | some t =>
        rw [ht, typePart, nil_append] at h
        obtain rfl := append_cancel_left h
        rw [pieces_eq_singleton (typeLine_no_lineEnd (hr.contentType t ht).2)] at hm
        exact .inr ⟨t, rfl, mem_singleton.mp hm⟩

theorem getLast_ne_of_lineFree (hs : c ∉ s) (hne : s ≠ []) (h : t₁ ++ s = t₂ ++ [c]) : False := by
  have hlast := congrArg List.getLast? h
  rw [getLast?_concat, getLast?_append_of_ne_nil _ hne] at hlast
  exact hs (mem_of_getLast? hlast)

theorem readHead_behind_disposition (hq : Quotable p)
    (hr : Readable (some p.name) p.filename p.contentType)
    (hd : lineEnd ++ disposition p = t₁ ++ '-' :: '-' :: boundary ++ w)
    (h : w ++ typePart p.contentType = t₃ ∨ w ++ typePart p.contentType = lineEnd ++ t₃) :
    (readHead t₃).name = none := by
  have hw : '\r' ∉ w := by
    intro hm
    obtain ⟨r, hr'⟩ := suffix_of_disposition hd
    refine return_not_mem_disposition hq (mem_append_right formData ?_)
    rw [cons_append, ← hr']
    exact mem_cons_of_mem _ (mem_append_right r hm)
  refine name_readHead fun line hm h' => ?_
  rcases lines_behind hr hw h line hm with rfl | ⟨t, -, rfl⟩
  · exact name_readLine_tail hr (suffix_of_disposition hd) h'
  · exact name_readLine_of_not (not_disposition_typeLine t) h'

theorem readHead_behind_typeLine (ht : ¬ lineEnd <:+: t) (hsuffix : t₂ <:+ typeLine t)
    (ht₃ : t₂ = t₃ ∨ t₂ = lineEnd ++ t₃) :
    (readHead t₃).name = none ∨ (readHead t₃).contentType = none := by
  have hnot : ¬ lineEnd <:+: t₂ := fun hin =>
    typeLine_no_lineEnd ht (hin.trans hsuffix.isInfix)
  rcases ht₃ with rfl | rfl
  · rw [readHead, pieces_eq_singleton hnot, foldl_cons, foldl_nil]
    cases hl : startsWith "content-disposition:" (toAsciiLowercase t₂) with
    | false => exact .inl (name_readLine_of_not hl _)
    | true =>
      right
      simp only [readLine, hl, if_true]
      exact contentType_foldl_readParam _ _
  · exact absurd (prefix_append _ _).isInfix hnot

theorem readHead_behind (hB : LineFree boundary) (hq : Quotable p)
    (hr : Readable (some p.name) p.filename p.contentType)
    (h : lineEnd ++ headText p = t₁ ++ '-' :: '-' :: boundary ++ t₂)
    (ht₃ : t₂ = t₃ ∨ t₂ = lineEnd ++ t₃) :
    (readHead t₃).name = none ∨ ((readHead t₃).contentType = none ∧ p.contentType ≠ none) := by
  have hdr : '\r' ∉ '-' :: '-' :: boundary := by simp [hB.1]
  rw [headText, ← append_assoc] at h
  rcases append_eq_append_iff.mp h with ⟨w, hd, htail⟩ | ⟨w, hd, rfl⟩
  · -- the delimiter ends behind the first line
    rcases w with _ | ⟨c, w⟩
    · rw [nil_append] at htail
      rw [← htail] at ht₃
      exact .inl (readHead_behind_disposition (w := []) hq hr
        (by rw [append_nil, hd, append_nil]) ht₃)
    · cases hct : p.contentType with
      | none =>
        rw [hct] at htail
        cases htail
      | some t =>
        rw [hct] at htail
        obtain ⟨rfl, hline⟩ := cons.inj htail
        rcases w with _ | ⟨c, w⟩
        · exact (getLast_ne_of_lineFree hdr (cons_ne_nil _ _) hd).elim
        · have hsuffix : t₂ <:+ typeLine t := ⟨w, (cons.inj hline).2.symm⟩
          rcases readHead_behind_typeLine (hr.contentType t hct).2 hsuffix ht₃ with hn | hn
          · exact .inl hn
          · exact .inr ⟨hn, some_ne_none t⟩
  · exact .inl (readHead_behind_disposition hq hr hd ht₃)

/-! ## Where a part comes from -/

theorem readHead_name_of_short (hl : ¬ lineEnd <:+: head)
    (hlow : startsWith "content-disposition:" (toAsciiLowercase head) = false) :
    (readHead head).name = none := by
  refine name_readHead fun line hm h => ?_
  rw [pieces_eq_singleton hl] at hm
  obtain rfl := mem_singleton.mp hm
  exact name_readLine_of_not hlow h

theorem dropLineEnd_cases {content : Bytes} (h : dropLineEnd content = data) :
    content = data ++ crlf ∨ (content = data ∧ ¬ crlf <:+ content) := by
  rw [dropLineEnd] at h
  split at h
  next hsuf =>
    obtain ⟨u, rfl⟩ := hsuf
    rw [length_append] at h
    exact .inl (congrArg (· ++ crlf) (take_left.symm.trans h))
  next hsuf => exact .inr ⟨h, hsuf⟩

theorem head_short_of_no_lineEnd {front head all : Bytes}
    (h : front ++ head ++ (crlf ++ crlf) ++ data = all ++ (crlf ++ crlf) ++ (data ++ crlf))
    (hclear : Clear (crlf ++ crlf) head) (hdata : ¬ crlf <:+ data) : head = [] ∨ head = [0x0a] := by
  rcases data with _ | ⟨b, _ | ⟨c, data⟩⟩
  · rw [append_nil, nil_append] at h
    have hfront : front ++ head = all ++ crlf := by
      rw [append_assoc all, append_assoc crlf, ← append_assoc all] at h
      exact append_cancel_right h
    have hnot : ¬ crlf <:+ head := by
      rintro ⟨u, rfl⟩
      have hnil := hclear u crlf (by simp only [append_assoc])
      cases hnil
    rcases eq_nil_or_concat head with rfl | ⟨u, x, rfl⟩
    · exact .inl rfl
    · rcases eq_nil_or_concat u with rfl | ⟨u, y, rfl⟩
      · refine .inr ?_
        have hlast := congrArg List.getLast? hfront
        rw [concat_eq_append, ← append_assoc, getLast?_concat,
          show all ++ crlf = all ++ [0x0d] ++ [0x0a] by simp [crlf], getLast?_concat] at hlast
        rw [Option.some.inj hlast]
        rfl
      · refine absurd (suffix_of_suffix_length_le ⟨all, rfl⟩ ⟨front, hfront⟩ ?_) hnot
        simp [crlf]
  · -- the byte would be both ends of a line
    exfalso
    have h₁ : front ++ head ++ crlf ++ [0x0d] ++ [0x0a] ++ [b] =
        all ++ (crlf ++ crlf) ++ [b] ++ [0x0d] ++ [0x0a] := by
      simpa [crlf] using h
    obtain ⟨h₂, -⟩ := append_inj' h₁ rfl
    obtain ⟨-, h₃⟩ := append_inj' h₂ rfl
    exact absurd (singleton_inj.mp h₃) (by decide)
  · refine absurd (suffix_of_suffix_length_le
      ⟨all ++ (crlf ++ crlf) ++ (b :: c :: data), by rw [append_assoc]⟩ ⟨_, h⟩ ?_) hdata
    simp [crlf]

theorem utf8_lineEnd : utf8 lineEnd = crlf := by decide

theorem eq_sectionOf_of_mem (hB : LineFree boundary) (hq : Quotable p) {a : Bytes}
    (ha : a ∈ pieces (delimiter boundary) (sectionOf p)) (hread : readSection a = some p) :
    a = sectionOf p := by
  have hr := readable_of_readSection hread
  obtain ⟨x, y, hseg, hx, hy⟩ := exists_of_mem_pieces (delimiter_ne_nil boundary) ha
  obtain ⟨lead, head, content, rfl, hlead, hclear, hdata, hhead⟩ := readSection_eq_some hread
  have hname : (readHead (lossy none head)).name ≠ none := by
    rw [hhead]
    exact some_ne_none _
  have hH : Clear (crlf ++ crlf) (crlf ++ utf8 (headText p)) := by
    have happ : utf8 (lineEnd ++ headText p) = crlf ++ utf8 (headText p) := by
      rw [← utf8_lineEnd]
      exact flatMap_append
    rw [← happ, ← utf8_lineEnds]
    exact clear_utf8 (by decide) (clear_headText hq hr)
  have hcut := cut_append hH (p.data ++ crlf)
  have hall : sectionOf p = (x ++ lead ++ head) ++ (crlf ++ crlf) ++ (content ++ y) := by
    rw [hseg]
    simp only [append_assoc]
  have hle := length_le_of_cut hcut hall
  have hlen := congrArg List.length hall
  rw [sectionOf] at hall hlen
  simp only [length_append, show crlf.length = 2 from rfl] at hle hlen
  rcases dropLineEnd_cases hdata with rfl | ⟨rfl, hnot⟩
  · -- the head ends where the head of the part ends
    simp only [length_append, show crlf.length = 2 from rfl] at hlen
    obtain rfl : y = [] := length_eq_zero_iff.mp (by omega)
    rw [append_nil] at hall hseg
    have hfront : crlf ++ utf8 (headText p) = x ++ lead ++ head :=
      append_cancel_right (append_cancel_right hall)
    rcases hx with rfl | ⟨x, rfl⟩
    · rw [nil_append] at hseg
      exact hseg.symm
    · exfalso
      have htext : utf8 (lineEnd ++ headText p) =
          x ++ utf8 ('-' :: '-' :: boundary) ++ (lead ++ head) := by
        rw [← append_assoc, utf8, flatMap_append]
        exact hfront
      obtain ⟨t₁, t₂, ht, -, ht₂⟩ := exists_of_utf8_eq (by decide) htext
      have hbehind {t₃ : Text} (ht₃ : t₂ = t₃ ∨ t₂ = lineEnd ++ t₃) (hh : utf8 t₃ = head) :
          False := by
        rw [← hh, lossy_utf8] at hhead
        rcases readHead_behind hB hq hr ht ht₃ with hn | ⟨hn, hct⟩
        · rw [hhead] at hn
          exact some_ne_none _ hn
        · rw [hhead] at hn
          exact hct hn
      rcases hlead with rfl | rfl
      · exact hbehind (.inl rfl) ht₂
      · rw [← utf8_lineEnd] at ht₂
        obtain ⟨t₃, rfl, hh⟩ := exists_of_utf8_eq_append ht₂
        exact hbehind (.inr rfl) hh
  · exfalso
    obtain rfl : y = [] := by
      rcases hy with hy | hpre
      · exact hy
      · have hcrlf : crlf <:+ sectionOf p :=
          (suffix_append _ _).trans (suffix_append _ _)
        have hshort : y <:+ crlf := by
          refine suffix_of_suffix_length_le ⟨_, hseg.symm⟩ hcrlf ?_
          change y.length ≤ 2
          omega
        exact absurd (hshort.subset (hpre.subset (mem_cons_self (a := 0x2d)))) (by decide)
    rw [append_nil] at hall
    rcases head_short_of_no_lineEnd hall.symm hclear hnot with rfl | rfl
    · exact hname (readHead_name_of_short (by decide) (by decide))
    · exact hname (readHead_name_of_short (by decide) (by decide))

/-! ## The whole form -/

/-- What the section of a part is read as. -/
def emits (boundary : Text) (p : FormPart) : List FormPart :=
  (pieces (delimiter boundary) (sectionOf p)).filterMap readSection

variable {ps : List FormPart}

theorem eq_singleton_of_flatMap {α : Type*} {f : α → List α} {l : List α}
    (hf : ∀ x ∈ l, x ∈ f x → f x = [x]) {front : List α} (h : l.flatMap f = front ++ l) :
    front = [] ∧ ∀ x ∈ l, f x = [x] := by
  induction l generalizing front with
  | nil =>
    rw [flatMap_nil, append_nil] at h
    exact ⟨h.symm, fun _ hx => absurd hx not_mem_nil⟩
  | cons x l ih =>
    have ih' {front : List α} (h : l.flatMap f = front ++ l) := ih
      (fun y hy => hf y (mem_cons_of_mem x hy)) h
    have hshift {front : List α} (h : l.flatMap f = front ++ x :: l) : False := by
      rw [← singleton_append, ← append_assoc] at h
      exact absurd (append_eq_nil_iff.mp (ih' h).1).2 (cons_ne_nil _ _)
    rw [flatMap_cons] at h
    by_cases hx : x ∈ f x
    · have hfx := hf x mem_cons_self hx
      rw [hfx, singleton_append] at h
      rcases front with _ | ⟨y, front⟩
      · obtain ⟨-, hall⟩ := @ih' [] (cons.inj h).2
        exact ⟨rfl, forall_mem_cons.mpr ⟨hfx, hall⟩⟩
      · exact (hshift (cons.inj h).2).elim
    · exfalso
      rcases append_eq_append_iff.mp h with ⟨w, -, hw⟩ | ⟨w, hfx, hw⟩
      · exact hshift hw
      · rcases w with _ | ⟨y, w⟩
        · exact @hshift [] hw.symm
        · obtain ⟨rfl, -⟩ := cons.inj hw
          exact hx (hfx ▸ mem_append_right front mem_cons_self)

theorem readSection_formRest_nil (hd : delim ≠ []) (h : sec ∈ pieces delim (formRest delim [])) :
    readSection sec = none := by
  rw [eq_none_iff_forall_not_mem]
  intro q hq
  obtain ⟨lead, head, content, rfl, -⟩ := readSection_eq_some hq
  obtain ⟨x, y, hxy, -, -⟩ := exists_of_mem_pieces hd h
  have hin : crlf ++ crlf <:+: formRest delim [] :=
    ⟨x ++ (lead ++ head), content ++ y, by rw [hxy]; simp only [append_assoc]⟩
  rw [formRest] at hin
  exact absurd hin (by decide)

theorem filterMap_dropLast_formRest_nil (hd : delim ≠ []) :
    (pieces delim (formRest delim [])).dropLast.filterMap readSection = [] :=
  filterMap_eq_nil_iff.mpr fun _ h =>
    readSection_formRest_nil hd (dropLast_subset _ h)

theorem parseMultipart_formBody_eq (boundary : Text) (ps : List FormPart) :
    parseMultipart boundary (formBody boundary ps) =
      (pieces (delimiter boundary) (formRest (delimiter boundary) ps)).dropLast.filterMap
        readSection := by
  have hpieces := pieces_append (delimiter_ne_nil boundary) clear_nil
    (formRest (delimiter boundary) ps)
  rw [nil_append] at hpieces
  rw [parseMultipart_eq, formBody, hpieces, tail_cons]

theorem parseMultipart_of_clear (hclear : ∀ p ∈ ps, Clear (delimiter boundary) (sectionOf p))
    (hread : ∀ p ∈ ps, readSection (sectionOf p) = some p) :
    parseMultipart boundary (formBody boundary ps) = ps := by
  rw [parseMultipart_formBody_eq]
  induction ps with
  | nil => exact filterMap_dropLast_formRest_nil (delimiter_ne_nil boundary)
  | cons p ps ih =>
    rw [formRest, pieces_append (delimiter_ne_nil boundary) (hclear p mem_cons_self),
      dropLast_cons_of_ne_nil (pieces_ne_nil _ _),
      filterMap_cons_some (hread p mem_cons_self),
      ih (fun q hq => hclear q (mem_cons_of_mem p hq))
        fun q hq => hread q (mem_cons_of_mem p hq)]

theorem not_mem_delimiter (hB : LineFree boundary) : (0x0a : UInt8) ∉ delimiter boundary := by
  intro hm
  obtain ⟨u, v, huv⟩ := append_of_mem hm
  obtain ⟨s, s', hs, -, -⟩ := exists_of_utf8_eq_cons huv (by decide)
  have hmem : '\n' ∈ "--".toList ++ boundary := by
    rw [hs]
    exact mem_append_right s mem_cons_self
  rcases mem_append.mp hmem with h | h
  · exact absurd h (by decide)
  · exact hB.2 h

theorem sectionOf_eq (p : FormPart) : sectionOf p =
    crlf ++ utf8 (headText p) ++ (crlf ++ crlf) ++ (p.data ++ [0x0d]) ++ [0x0a] := by
  simp [sectionOf, crlf]

theorem clear_sectionOf (hB : LineFree boundary)
    (h : ¬ delimiter boundary <:+: sectionOf p) : Clear (delimiter boundary) (sectionOf p) := by
  rw [sectionOf_eq] at h ⊢
  exact clear_of_absent (not_mem_delimiter hB) h

theorem parseMultipart_eq_flatMap (hB : LineFree boundary) (ps : List FormPart) :
    parseMultipart boundary (formBody boundary ps) = ps.flatMap (emits boundary) := by
  rw [parseMultipart_formBody_eq]
  induction ps with
  | nil => exact filterMap_dropLast_formRest_nil (delimiter_ne_nil boundary)
  | cons p ps ih =>
    rw [formRest, sectionOf_eq,
      pieces_append_barrier (delimiter_ne_nil boundary) (not_mem_delimiter hB), ← sectionOf_eq,
      dropLast_append_of_ne_nil (pieces_ne_nil _ _), filterMap_append, ih, flatMap_cons, emits]

theorem readable_of_mem_emits {q : FormPart} (h : q ∈ emits boundary p) :
    Readable (some q.name) q.filename q.contentType := by
  obtain ⟨sec, -, hsec⟩ := mem_filterMap.mp h
  exact readable_of_readSection hsec

theorem not_infix_of_mem_emits (hB : LineFree boundary) (hq : Quotable p)
    (h : p ∈ emits boundary p) : ¬ delimiter boundary <:+: sectionOf p := by
  obtain ⟨sec, hsec, hread⟩ := mem_filterMap.mp h
  obtain rfl := eq_sectionOf_of_mem hB hq hsec hread
  exact not_infix_of_mem_pieces (delimiter_ne_nil boundary) hsec

theorem mem_emits_of_parse (hB : LineFree boundary) (hq : ∀ p ∈ ps, Quotable p)
    (h : parseMultipart boundary (formBody boundary ps) = ps) : ∀ p ∈ ps, p ∈ emits boundary p := by
  rw [parseMultipart_eq_flatMap hB] at h
  have hself : ∀ p ∈ ps, p ∈ emits boundary p → emits boundary p = [p] := by
    intro p hp hm
    have hnot := not_infix_of_mem_emits hB (hq p hp) hm
    rw [emits, pieces_eq_singleton hnot] at hm ⊢
    obtain ⟨sec, hsec, hread⟩ := mem_filterMap.mp hm
    rw [mem_singleton.mp hsec] at hread
    rw [filterMap_cons_some hread, filterMap_nil]
  intro p hp
  have hflat : ps.flatMap (emits boundary) = [] ++ ps := h
  rw [(eq_singleton_of_flatMap hself hflat).2 p hp]
  exact mem_singleton_self p

/-- What a part needs to be read back behind this boundary: names without `;`, a type without
blanks around it and without a line end, and no delimiter before the one that ends it. -/
structure ReadsBack (boundary : Text) (p : FormPart) : Prop where
  readable : Readable (some p.name) p.filename p.contentType
  clear : Clear (delimiter boundary) (sectionOf p)

/-- A form is read back when each of its parts can be, and, with a boundary on one line, only
then. -/
theorem parseMultipart_formBody (boundary : Text) (ps : List FormPart) (hq : ∀ p ∈ ps, Quotable p) :
    ((∀ p ∈ ps, ReadsBack boundary p) →
      parseMultipart boundary (formBody boundary ps) = ps) ∧
    (LineFree boundary → (parseMultipart boundary (formBody boundary ps) = ps ↔
      ∀ p ∈ ps, ReadsBack boundary p)) := by
  have hback : (∀ p ∈ ps, ReadsBack boundary p) →
      parseMultipart boundary (formBody boundary ps) = ps := fun h =>
    parseMultipart_of_clear (fun p hp => (h p hp).clear)
      fun p hp => readSection_sectionOf (hq p hp) (h p hp).readable
  refine ⟨hback, fun hB => ⟨fun h p hp => ?_, hback⟩⟩
  have hm := mem_emits_of_parse hB hq h p hp
  exact ⟨readable_of_mem_emits hm, clear_sectionOf hB (not_infix_of_mem_emits hB (hq p hp) hm)⟩

/-- An uploaded text file. -/
def upload (data : Bytes) : FormPart :=
  ⟨"doc", some "a.txt".toList, some "text/plain".toList, data⟩

theorem quotable_upload (data : Bytes) : Quotable (upload data) := by
  have hname : ∀ c ∈ "doc".toList, c ≠ '"' ∧ c ≠ '\r' ∧ c ≠ '\n' := by decide
  have hfile : ∀ f ∈ some "a.txt".toList, ∀ c ∈ f, c ≠ '"' ∧ c ≠ '\r' ∧ c ≠ '\n' := by decide
  exact ⟨hname, hfile⟩

theorem parseMultipart_formBody_sample :
    parseMultipart "xyz" (formBody "xyz" [upload [1, 2, 13, 10]]) =
      [upload [1, 2, 13, 10]] :=
  (parseMultipart_formBody _ _ (forall_mem_singleton.mpr (quotable_upload _))).1
    (forall_mem_singleton.mpr
      ⟨⟨by decide, by decide, by decide⟩, clear_sectionOf (by decide) (by decide +kernel)⟩)

/-- A file that has the delimiter within a line is not read back, though no line begins with it. -/
theorem form_not_exact :
    ¬ ∀ (boundary : Text) (ps : List FormPart), (∀ p ∈ ps, Quotable p) →
      (∀ p ∈ ps, ¬ crlf ++ delimiter boundary <:+: p.data) →
      parseMultipart boundary (formBody boundary ps) = ps := by
  intro h
  have hB : LineFree "xyz" := by decide
  have hq := quotable_upload (utf8 "a--xyz")
  have hparse := h "xyz" [upload (utf8 "a--xyz")]
    (forall_mem_singleton.mpr hq) (forall_mem_singleton.mpr (by decide))
  have hm := mem_emits_of_parse hB (forall_mem_singleton.mpr hq) hparse _
    (mem_singleton_self _)
  exact not_infix_of_mem_emits hB hq hm (by decide +kernel)

end Synsema.Server
