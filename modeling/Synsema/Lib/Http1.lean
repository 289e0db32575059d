import Mathlib.Data.List.DropRight
import Mathlib.Data.List.Forall2

/-!
# HTTP/1.1 requests

A reader of requests in the syntax of HTTP/1.1, and a writer.  The reader is strict: lines end
with CR LF, a field has its name directly before the colon, there is one `Host`, and the body is
as long as `Content-Length` says.  A body in another framing (`Transfer-Encoding`) is not read.

What the writer writes of a well-formed request the reader reads, whatever follows, and what the
reader reads is well formed.
-/

namespace Http1

open List

/-! ## Syntax -/

/-- The bytes of a token. -/
def isTchar (c : UInt8) : Bool :=
  (0x30 ≤ c && c ≤ 0x39) || (0x41 ≤ c && c ≤ 0x5a) || (0x61 ≤ c && c ≤ 0x7a) ||
    [0x21, 0x23, 0x24, 0x25, 0x26, 0x27, 0x2a, 0x2b, 0x2d, 0x2e, 0x5e, 0x5f, 0x60, 0x7c,
      0x7e].contains c

/-- The bytes of a request target: no blank and no control. -/
def isTargetByte (c : UInt8) : Bool := 0x20 < c && c != 0x7f

/-- The bytes of a field value: no control but the tab. -/
def isFieldByte (c : UInt8) : Bool := c == 9 || (0x20 ≤ c && c != 0x7f)

/-- Space and tab. -/
def isBlank (c : UInt8) : Bool := c == 0x20 || c == 9

/-- A token: the method and the names of the fields. -/
def IsToken (b : List UInt8) : Prop := b ≠ [] ∧ ∀ c ∈ b, isTchar c = true

/-- A request target. -/
def IsTarget (b : List UInt8) : Prop := b ≠ [] ∧ ∀ c ∈ b, isTargetByte c = true

/-- A field value: without blanks around it. -/
def IsValue (b : List UInt8) : Prop :=
  (∀ c ∈ b, isFieldByte c = true) ∧ (∀ c ∈ b.head?, isBlank c = false) ∧
    ∀ c ∈ b.getLast?, isBlank c = false

local instance (priority := 2000) decidableForallByte {p : UInt8 → Prop} [DecidablePred p]
    (l : List UInt8) : Decidable (∀ x ∈ l, p x) := List.decidableBAll p l

local instance (priority := 2000) decidableForallHead {p : UInt8 → Prop} [DecidablePred p]
    (o : Option UInt8) : Decidable (∀ x ∈ o, p x) :=
  Option.decidableForallMem o

instance (b : List UInt8) : Decidable (IsToken b) := inferInstanceAs (Decidable (_ ∧ _))

instance (b : List UInt8) : Decidable (IsTarget b) := inferInstanceAs (Decidable (_ ∧ _))

instance (b : List UInt8) : Decidable (IsValue b) := inferInstanceAs (Decidable (_ ∧ _ ∧ _))

/-- A request. -/
structure Request where
  method : List UInt8
  target : List UInt8
  fields : List (List UInt8 × List UInt8)
  body : List UInt8
deriving DecidableEq

/-- The small letter of a letter. -/
def lowerByte (c : UInt8) : UInt8 := if 0x41 ≤ c && c ≤ 0x5a then c + 0x20 else c

/-- The fields of a name, which is given in small letters. -/
def named (name : List UInt8) (fields : List (List UInt8 × List UInt8)) :
    List (List UInt8 × List UInt8) :=
  fields.filter fun f => f.1.map lowerByte == name

/-- `host` -/
def hostName : List UInt8 := [0x68, 0x6f, 0x73, 0x74]

/-- `content-length` -/
def contentLengthName : List UInt8 :=
  [0x63, 0x6f, 0x6e, 0x74, 0x65, 0x6e, 0x74, 0x2d, 0x6c, 0x65, 0x6e, 0x67, 0x74, 0x68]

/-- `transfer-encoding` -/
def transferEncodingName : List UInt8 :=
  [0x74, 0x72, 0x61, 0x6e, 0x73, 0x66, 0x65, 0x72, 0x2d, 0x65, 0x6e, 0x63, 0x6f, 0x64, 0x69,
    0x6e, 0x67]

/-- A number in decimal digits. -/
def decimal (b : List UInt8) : Option Nat :=
  if b ≠ [] ∧ ∀ c ∈ b, 0x30 ≤ c ∧ c ≤ 0x39 then
    some (b.foldl (fun n c => n * 10 + (c.toNat - 0x30)) 0)
  else none

/-- The length of the body, as the fields say it. -/
def bodyLength (fields : List (List UInt8 × List UInt8)) : Option Nat :=
  if named transferEncodingName fields ≠ [] then none
  else
    match named contentLengthName fields with
    | [] => some 0
    | [f] => decimal f.2
    | _ => none

/-- The requests that can be written. -/
structure Request.WellFormed (r : Request) : Prop where
  method : IsToken r.method
  target : IsTarget r.target
  fields : ∀ f ∈ r.fields, IsToken f.1 ∧ IsValue f.2
  host : (named hostName r.fields).length = 1
  length : bodyLength r.fields = some r.body.length

/-! ## Writing -/

def crlf : List UInt8 := [13, 10]

/-- ` HTTP/1.1` -/
def version : List UInt8 := [0x48, 0x54, 0x54, 0x50, 0x2f, 0x31, 0x2e, 0x31]

/-- The line of a field. -/
def fieldLine (f : List UInt8 × List UInt8) : List UInt8 := f.1 ++ [0x3a, 0x20] ++ f.2

/-- The first line of a request. -/
def Request.line (r : Request) : List UInt8 := r.method ++ [0x20] ++ r.target ++ [0x20] ++ version

/-- The bytes of a request. -/
def Request.write (r : Request) : List UInt8 :=
  (r.line :: r.fields.map fieldLine).flatMap (· ++ crlf) ++ crlf ++ r.body

/-! ## Reading -/

/-- The lines up to the first empty one, and what follows it; `cur` is the line so far, from its
end. -/
def headLines : List UInt8 → List UInt8 → Option (List (List UInt8) × List UInt8)
  | cur, 13 :: 10 :: rest =>
    if cur = [] then some ([], rest)
    else (headLines [] rest).map fun p => (cur.reverse :: p.1, p.2)
  | cur, c :: rest => headLines (c :: cur) rest
  | _, [] => none

/-- The parts before and after the first `c`. -/
def cut (c : UInt8) : List UInt8 → Option (List UInt8 × List UInt8)
  | [] => none
  | d :: t => if d = c then some ([], t) else (cut c t).map fun p => (d :: p.1, p.2)

/-- A value without the blanks around it. -/
def trim (b : List UInt8) : List UInt8 := (b.dropWhile isBlank).rdropWhile isBlank

/-- The first line of a request. -/
def readLine (line : List UInt8) : Option (List UInt8 × List UInt8) := do
  let p ← cut 0x20 line
  let q ← cut 0x20 p.2
  if IsToken p.1 ∧ IsTarget q.1 ∧ q.2 = version then some (p.1, q.1) else none

/-- A field. -/
def readField (line : List UInt8) : Option (List UInt8 × List UInt8) := do
  let p ← cut 0x3a line
  if IsToken p.1 ∧ ∀ c ∈ p.2, isFieldByte c = true then some (p.1, trim p.2) else none

/-- One request, and what follows it. -/
def readRequest (b : List UInt8) : Option (Request × List UInt8) := do
  let head ← headLines [] b
  match head.1 with
  | [] => none
  | line :: lines =>
    let p ← readLine line
    let fields ← lines.mapM readField
    let n ← bodyLength fields
    if (named hostName fields).length = 1 ∧ n ≤ head.2.length then
      some (⟨p.1, p.2, fields, head.2.take n⟩, head.2.drop n)
    else none

/-! ## What is written is read -/

variable {c : UInt8} {l line : List UInt8} {lines : List (List UInt8)}
  {f : List UInt8 × List UInt8} {fields : List (List UInt8 × List UInt8)}

theorem cut_append (hl : c ∉ l) (r : List UInt8) : cut c (l ++ c :: r) = some (l, r) := by
  induction l with
  | nil => rw [nil_append, cut, if_pos rfl]
  | cons d l ih =>
    rw [List.mem_cons, not_or] at hl
    rw [cons_append, cut, if_neg (Ne.symm hl.1), ih hl.2]
    rfl

theorem headLines_append (hl : 13 ∉ l) (cur rest : List UInt8) :
    headLines cur (l ++ rest) = headLines (l.reverse ++ cur) rest := by
  induction l generalizing cur with
  | nil => rfl
  | cons c l ih =>
    rw [List.mem_cons, not_or] at hl
    have hstep : headLines cur (c :: (l ++ rest)) = headLines (c :: cur) (l ++ rest) := by
      rw [headLines]
      rintro _ rfl
      exact (hl.1 rfl).elim
    rw [cons_append, hstep, ih hl.2, reverse_cons, append_assoc, singleton_append]

theorem headLines_lines (h : ∀ l ∈ lines, l ≠ [] ∧ 13 ∉ l) (rest : List UInt8) :
    headLines [] (lines.flatMap (· ++ crlf) ++ crlf ++ rest) = some (lines, rest) := by
  induction lines with
  | nil => rfl
  | cons l lines ih =>
    obtain ⟨⟨hne, hl⟩, h⟩ := forall_mem_cons.mp h
    rw [flatMap_cons, append_assoc, append_assoc, append_assoc,
      headLines_append hl, append_nil, crlf, cons_append, cons_append,
      nil_append, headLines, if_neg (by simpa using hne), reverse_reverse,
      ← append_assoc, ← crlf, ih h]
    rfl

variable {b : List UInt8} {r : Request}

theorem not_mem_of_token (hb : IsToken b) (hc : isTchar c = false) : c ∉ b := by
  intro hmem
  rw [hb.2 c hmem] at hc
  cases hc

theorem trim_space {v : List UInt8} (hv : IsValue v) : trim (0x20 :: v) = v := by
  have hdrop : (0x20 :: v).dropWhile isBlank = v := by
    rw [dropWhile_cons_of_pos (by decide)]
    cases v with
    | nil => rfl
    | cons c v => exact dropWhile_cons_of_neg (by simp [hv.2.1 c rfl])
  rw [trim, hdrop, rdropWhile_eq_self_iff]
  intro hne
  rw [hv.2.2 _ (getLast?_eq_some_getLast hne)]
  decide

theorem readField_fieldLine (hf : IsToken f.1 ∧ IsValue f.2) :
    readField (fieldLine f) = some f := by
  have hcut : cut 0x3a (fieldLine f) = some (f.1, 0x20 :: f.2) := by
    rw [fieldLine, append_assoc]
    exact cut_append (not_mem_of_token hf.1 (by decide)) _
  have hbytes : ∀ c ∈ 0x20 :: f.2, isFieldByte c :=
    forall_mem_cons.mpr ⟨by decide, hf.2.1⟩
  simp only [readField, hcut, Option.bind_eq_bind, Option.bind_some]
  rw [if_pos ⟨hf.1, hbytes⟩, trim_space hf.2]

theorem readLine_line (hm : IsToken r.method) (ht : IsTarget r.target) :
    readLine r.line = some (r.method, r.target) := by
  have hblank : (0x20 : UInt8) ∉ r.target := fun h => absurd (ht.2 _ h) (by decide)
  have hcut : cut 0x20 r.line = some (r.method, r.target ++ 0x20 :: version) := by
    rw [Request.line, append_assoc, append_assoc, append_assoc]
    exact cut_append (not_mem_of_token hm (by decide)) _
  simp only [readLine, hcut, Option.bind_eq_bind, Option.bind_some, cut_append hblank]
  rw [if_pos ⟨hm, ht, trivial⟩]

theorem mapM_readField (h : ∀ f ∈ fields, IsToken f.1 ∧ IsValue f.2) :
    (fields.map fieldLine).mapM readField = some fields := by
  induction fields with
  | nil => rfl
  | cons f fields ih =>
    obtain ⟨hf, h⟩ := forall_mem_cons.mp h
    rw [map_cons, mapM_cons, readField_fieldLine hf, ih h]
    rfl

theorem line_ne_nil (hr : r.WellFormed) :
    ∀ l ∈ r.line :: r.fields.map fieldLine, l ≠ [] ∧ 13 ∉ l := by
  intro l hl
  rcases List.mem_cons.mp hl with rfl | hl
  · have hm := not_mem_of_token hr.method (c := 13) (by decide)
    have ht : (13 : UInt8) ∉ r.target := fun h => absurd (hr.target.2 _ h) (by decide)
    refine ⟨by simp [Request.line], ?_⟩
    simp [Request.line, version, hm, ht]
  · obtain ⟨f, hf, rfl⟩ := mem_map.mp hl
    obtain ⟨htoken, hvalue⟩ := hr.fields f hf
    have hn := not_mem_of_token htoken (c := 13) (by decide)
    have hv : (13 : UInt8) ∉ f.2 := fun h => absurd (hvalue.1 _ h) (by decide)
    refine ⟨by simp [fieldLine], ?_⟩
    simp [fieldLine, hn, hv]

theorem readRequest_write (hr : r.WellFormed) (rest : List UInt8) :
    readRequest (r.write ++ rest) = some (r, rest) := by
  have hhead : headLines [] (r.write ++ rest) =
      some (r.line :: r.fields.map fieldLine, r.body ++ rest) := by
    rw [Request.write, append_assoc]
    exact headLines_lines (line_ne_nil hr) _
  simp only [readRequest, hhead, Option.bind_eq_bind, Option.bind_some,
    readLine_line hr.method hr.target, mapM_readField hr.fields, hr.length]
  rw [if_pos ⟨hr.host, by simp⟩, take_left, drop_left]

/-! ## What is read is well formed -/

theorem isValue_trim (hb : ∀ c ∈ b, isFieldByte c) : IsValue (trim b) := by
  have hsub : ∀ c ∈ trim b, c ∈ b := fun c hc =>
    (dropWhile_suffix _).subset ((List.rdropWhile_prefix _ _).subset hc)
  refine ⟨fun c hc => hb c (hsub c hc), ?_, ?_⟩
  · intro c hc
    have hhead : c ∈ (b.dropWhile isBlank).head? := by
      obtain ⟨t, ht⟩ := rdropWhile_prefix isBlank (b.dropWhile isBlank)
      rw [← ht]
      exact mem_head?_append_of_mem_head? hc
    have hnot := head?_dropWhile_not isBlank b
    rw [Option.mem_def.mp hhead] at hnot
    simpa using hnot
  · intro c hc
    obtain ⟨hne, rfl⟩ := mem_getLast?_eq_getLast hc
    exact Bool.of_not_eq_true (rdropWhile_last_not _ _ hne)

theorem readField_eq_some (h : readField line = some f) : IsToken f.1 ∧ IsValue f.2 := by
  simp only [readField, Option.bind_eq_bind, Option.bind_eq_some_iff] at h
  obtain ⟨p, -, h⟩ := h
  split_ifs at h with hp
  cases h
  exact ⟨hp.1, isValue_trim hp.2⟩

theorem readLine_eq_some {p : List UInt8 × List UInt8} (h : readLine line = some p) :
    IsToken p.1 ∧ IsTarget p.2 := by
  simp only [readLine, Option.bind_eq_bind, Option.bind_eq_some_iff] at h
  obtain ⟨q, -, s, -, h⟩ := h
  split_ifs at h with hp
  cases h
  exact ⟨hp.1, hp.2.1⟩

theorem wellFormed_of_mapM (h : lines.mapM readField = some fields) :
    ∀ f ∈ fields, IsToken f.1 ∧ IsValue f.2 := by
  induction lines generalizing fields with
  | nil =>
    cases h
    exact fun f hf => absurd hf not_mem_nil
  | cons line lines ih =>
    simp only [mapM_cons, Option.bind_eq_bind, Option.bind_eq_some_iff] at h
    obtain ⟨f, hf, fs, hfs, h⟩ := h
    cases h
    exact forall_mem_cons.mpr ⟨readField_eq_some hf, ih hfs⟩

theorem wellFormed_of_readRequest {rest : List UInt8} (h : readRequest b = some (r, rest)) :
    r.WellFormed := by
  simp only [readRequest, Option.bind_eq_bind, Option.bind_eq_some_iff] at h
  obtain ⟨⟨lines, after⟩, -, h⟩ := h
  cases lines with
  | nil => cases h
  | cons line lines =>
    simp only [Option.bind_eq_some_iff] at h
    obtain ⟨p, hline, fields, hfields, n, hn, h⟩ := h
    split_ifs at h with hlast
    cases h
    obtain ⟨hm, ht⟩ := readLine_eq_some hline
    refine ⟨hm, ht, wellFormed_of_mapM hfields, hlast.1, ?_⟩
    rw [hn, length_take, Nat.min_eq_left hlast.2]

theorem readRequest_write_iff :
    readRequest r.write = some (r, []) ↔ r.WellFormed := by
  refine ⟨wellFormed_of_readRequest, fun hr => ?_⟩
  have h := readRequest_write hr []
  rwa [append_nil] at h

end Http1
