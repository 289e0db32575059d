import Synsema.Csv.Scan
import Mathlib.Data.List.Nodup

/-!
# Tables and their records

What `csv_encode` writes for a table of scalars, as records of fields, and what `csv_parse` makes
of records.
-/

namespace Synsema.Csv

open Text List
open Except (bind_eq_ok)

/-! ## Tables of scalars -/

/-- Texts, numbers, booleans and nothing. -/
inductive IsScalar : SynValue → Prop where
  | text (t : Text) : IsScalar (.text t)
  | number (n : Number) : IsScalar (.number n)
  | bool (b : Bool) : IsScalar (.bool b)
  | nothing : IsScalar .nothing

/-- Rows that are all lists, or all maps. -/
inductive Table where
  | lists (rows : List (List SynValue))
  | maps (rows : List SynMap)

/-- The rows of a table as values. -/
def Table.rows : Table → List SynValue
  | lists rows => rows.map .list
  | maps rows => rows.map .map

/-- Does the table have a header row? -/
def Table.isMaps : Table → Bool
  | lists _ => false
  | maps _ => true

/-- The cells of a table. -/
def Table.cells : Table → List SynValue
  | lists rows => rows.flatten
  | maps rows => rows.flatMap fun m => m.map Prod.snd

/-- The columns of a table of maps: the keys of its first row, in their order. -/
def columns : List SynMap → List Text
  | [] => []
  | m :: _ => m.map Prod.fst

/-- The value of a column. -/
def valueAt (m : SynMap) (h : Text) : SynValue := (m.lookup h).getD .nothing

/-- A table of scalars: it has a row and a column, and all its rows have the same columns. -/
inductive Table.Valid (width : Nat) : Table → Prop where
  | lists {rows : List (List SynValue)} (hne : rows ≠ []) (hwidth : ∀ r ∈ rows, r.length = width)
      (hscalar : ∀ r ∈ rows, ∀ v ∈ r, IsScalar v) : Valid width (lists rows)
  | maps {rows : List SynMap} (hne : rows ≠ []) (hwidth : ∀ m ∈ rows, m.length = width)
      (hnodup : ∀ m ∈ rows, (m.map Prod.fst).Nodup)
      (hcolumns : ∀ m ∈ rows, (m.map Prod.fst).Perm (columns rows))
      (hscalar : ∀ m ∈ rows, ∀ e ∈ m, IsScalar e.2) : Valid width (maps rows)

variable {m : SynMap}

variable {h : Text}

theorem lookup_of_mem (hh : h ∈ m.map Prod.fst) : m.lookup h = some (valueAt m h) := by
  have hsome : (m.lookup h).isSome := by
    obtain ⟨e, he, rfl⟩ := mem_map.mp hh
    exact lookup_isSome_iff.mpr ⟨e, he, beq_self_eq_true _⟩
  rw [valueAt, Option.getD_eq_iff.mpr (Or.inl (Option.some_get hsome).symm), Option.some_get]

theorem valueAt_mem (hh : h ∈ m.map Prod.fst) : (h, valueAt m h) ∈ m := by
  obtain ⟨l₁, l₂, hm, -⟩ := lookup_eq_some_iff.mp (lookup_of_mem hh)
  generalize valueAt m h = v at hm ⊢
  rw [hm]
  exact mem_append_right l₁ mem_cons_self

theorem valueAt_of_mem (hnodup : (m.map Prod.fst).Nodup) {e : Text × SynValue} (he : e ∈ m) :
    valueAt m e.1 = e.2 := by
  have hmem := valueAt_mem (mem_map_of_mem he)
  exact congrArg Prod.snd (inj_on_of_nodup_map hnodup hmem he rfl)

/-! ## Fields of values -/

/-- What a number or a boolean prints as. -/
def printed : SynValue → Option Text
  | .number n => some n.text
  | .bool b => some (if b then "true" else "false")
  | _ => none

/-- What `csv_encode` checked of its options. -/
structure EncodeOpts.Checked (o : EncodeOpts) : Prop where
  delimiter : isSpecial o.delimiter = false
  ascii : o.delimiter.toNat < 128
  eol : IsEol o.eol
  mark : ∀ m ∈ o.missing, m ≠ [] ∧ needsQuotes o.delimiter m = false

theorem optDelimiter_ok {c : Char} (h : optDelimiter m = .ok c) :
    isSpecial c = false ∧ c.toNat < 128 := by
  unfold optDelimiter at h
  split at h
  · cases h
    decide
  · split_ifs at h with hc
    cases h
    exact hc
  · cases h

theorem encodeOpts_checked {opts : SynValue} {o : EncodeOpts} (h : encodeOpts opts = .ok o) :
    o.Checked := by
  obtain ⟨m, -, h⟩ := bind_eq_ok.mp h
  obtain ⟨escape, -, h⟩ := bind_eq_ok.mp h
  obtain ⟨delimiter, hdelimiter, h⟩ := bind_eq_ok.mp h
  obtain ⟨eol, heol, h⟩ := bind_eq_ok.mp h
  obtain ⟨headers, -, h⟩ := bind_eq_ok.mp h
  obtain ⟨missing, hmissing, h⟩ := bind_eq_ok.mp h
  obtain ⟨hspecial, hascii⟩ := optDelimiter_ok hdelimiter
  cases h
  refine ⟨hspecial, hascii, ?_, ?_⟩
  · unfold optEol at heol
    split at heol
    · cases heol
      exact Or.inl rfl
    · split_ifs at heol with ht
      cases heol
      exact ht
    · cases heol
  · rintro mark rfl
    unfold optMark at hmissing
    split at hmissing
    · cases hmissing
    · cases hmissing
    · split_ifs at hmissing with ht
      cases hmissing
      rw [not_or, Bool.not_eq_true] at ht
      exact ht
    · cases hmissing

section Fields

variable (o : EncodeOpts) (width : Nat)

/-- The field that a value is written as. -/
def fieldOf (v : SynValue) : Field :=
  match v with
  | .text t => { text := t, quoted := t.isEmpty || o.missing == some t || needsQuotes o.delimiter t }
  | .nothing =>
    match o.missing with
    | some m => { text := m, quoted := false }
    | none => { text := [], quoted := width == 1 }
  | v =>
    let t := (printed v).getD []
    { text := t, quoted := needsQuotes o.delimiter t }

/-- The field that a header is written as. -/
def headerField (h : Text) : Field :=
  { text := h
    quoted := width == 1 && h.isEmpty || o.missing == some h || needsQuotes o.delimiter h }

/-- The records that a table is written as. -/
def Table.records : Table → List (List Field)
  | lists rows => rows.map fun r => r.map (fieldOf o width)
  | maps rows => (columns rows).map (headerField o width) ::
      rows.map fun m => (columns rows).map fun h => fieldOf o width (valueAt m h)

variable {o width}

variable {v : SynValue} {t : Text}

theorem fieldOf_printed (h : printed v = some t) :
    fieldOf o width v = { text := t, quoted := needsQuotes o.delimiter t } := by
  cases v <;> cases h
  · rfl
  · rfl

theorem printed_ne_nil (h : printed v = some t) : t ≠ [] := by
  cases v with
  | number n =>
    cases h
    exact n.ne_nil
  | bool b =>
    cases b <;> cases h <;> decide
  | _ => cases h

theorem field_eq_write (hescape : o.escapeFormulas = false) {isText isMissing quoteEmpty : Bool}
    (hmissing : ¬ (isMissing ∧ o.missing.isSome)) :
    field o width t isText isMissing quoteEmpty =
      Field.write
        { text := t
          quoted := quoteEmpty && t.isEmpty || width == 1 && t.isEmpty ||
            isText && o.missing == some t || needsQuotes o.delimiter t } := by
  simp only [field, if_neg hmissing, hescape, Bool.false_eq_true, false_and, if_false, Field.write,
    needsQuotes]
  rfl

/-- The fields of a row, from the `j`-th on. -/
def rowText (delim : Char) (j : Nat) (fs : List Field) : Text :=
  if 0 < j then fs.flatMap fun f => delim :: f.write else writeRecord delim fs

theorem rowText_cons (delim : Char) (j : Nat) (f : Field) (fs : List Field) :
    rowText delim j (f :: fs) =
      (if 0 < j then [delim] else []) ++ f.write ++ rowText delim (j + 1) fs := by
  rw [rowText, rowText, if_pos (Nat.succ_pos j)]
  by_cases hj : 0 < j
  · rw [if_pos hj, if_pos hj, flatMap_cons]
    rfl
  · rw [if_neg hj, if_neg hj]
    rfl

theorem putValue_eq (hescape : o.escapeFormulas = false) (hv : IsScalar v) (j row : Nat)
    (col : Column) : putValue o j width v row col =
      .ok ((if 0 < j then [o.delimiter] else []) ++ (fieldOf o width v).write) := by
  have hnot : ¬ ((false : Bool) = true ∧ o.missing.isSome = true) := fun h => absurd h.1 (by decide)
  cases hv with
  | text t =>
    rw [putValue, put, field_eq_write hescape hnot, fieldOf]
    cases t <;> simp
  | number n =>
    show Except.ok (put o j width n.text false false false) = _
    rw [put, field_eq_write hescape hnot, fieldOf_printed rfl, isEmpty_eq_false_iff.mpr n.ne_nil]
    simp
  | bool b =>
    show Except.ok (put o j width _ false false false) = _
    rw [put, field_eq_write hescape hnot, fieldOf_printed rfl]
    cases b <;> simp
  | nothing =>
    rw [putValue, put, fieldOf]
    cases hm : o.missing with
    | some m => simp [field, hm, Field.write]
    | none =>
      rw [field_eq_write hescape (by simp [hm])]
      simp [hm, needsQuotes]

theorem putItems_eq (hescape : o.escapeFormulas = false) {vs : List SynValue}
    (hvs : ∀ v ∈ vs, IsScalar v) (j row : Nat) :
    putItems o row width j vs = .ok (rowText o.delimiter j (vs.map (fieldOf o width))) := by
  induction vs generalizing j with
  | nil =>
    rw [putItems, rowText]
    split_ifs <;> rfl
  | cons v vs ih =>
    obtain ⟨hv, hvs⟩ := forall_mem_cons.mp hvs
    rw [putItems, putValue_eq hescape hv, ih hvs, map_cons, rowText_cons]
    rfl

variable {hs : List Text}

theorem putColumns_eq (hescape : o.escapeFormulas = false) (hhs : ∀ h ∈ hs, h ∈ m.map Prod.fst)
    (hscalar : ∀ e ∈ m, IsScalar e.2) (j row : Nat) :
    putColumns o row width m j hs =
      .ok (rowText o.delimiter j (hs.map fun h => fieldOf o width (valueAt m h))) := by
  induction hs generalizing j with
  | nil =>
    rw [putColumns, rowText]
    split_ifs <;> rfl
  | cons h hs ih =>
    obtain ⟨hh, hhs⟩ := forall_mem_cons.mp hhs
    have hv : IsScalar (valueAt m h) := hscalar _ (valueAt_mem hh)
    simp only [putColumns, lookup_of_mem hh, putValue_eq hescape hv, ih hhs, map_cons, rowText_cons]
    rfl

theorem putHeaders_eq (hescape : o.escapeFormulas = false) (hs : List Text) :
    putHeaders o hs = writeRecord o.delimiter (hs.map (headerField o hs.length)) ++ o.eol := by
  have hput : ∀ (j : Nat) (t : List Text),
      ((t.zipIdx j).flatMap fun hj => put o hj.2 hs.length hj.1 true false false) =
        rowText o.delimiter j (t.map (headerField o hs.length)) := by
    intro j t
    induction t generalizing j with
    | nil =>
      rw [rowText]
      split_ifs <;> rfl
    | cons h t ih =>
      rw [zipIdx_cons, flatMap_cons, ih, map_cons, rowText_cons, put,
        field_eq_write hescape (fun h => absurd h.1 (by decide)), headerField]
      rfl
  rw [putHeaders, hput]
  rfl

theorem putLists_eq (hescape : o.escapeFormulas = false) {rows : List (List SynValue)}
    (hwidth : ∀ r ∈ rows, r.length = width) (hscalar : ∀ r ∈ rows, ∀ v ∈ r, IsScalar v)
    (row : Nat) : putLists o width row (rows.map .list) =
      .ok (rows.flatMap fun r => writeRecord o.delimiter (r.map (fieldOf o width)) ++ o.eol) := by
  induction rows generalizing row with
  | nil => rfl
  | cons r rows ih =>
    obtain ⟨hr, hwidth⟩ := forall_mem_cons.mp hwidth
    obtain ⟨hv, hscalar⟩ := forall_mem_cons.mp hscalar
    rw [map_cons, putLists, if_neg (not_not_intro hr), putItems_eq hescape hv, ih hwidth hscalar]
    rfl

theorem putMaps_eq (hescape : o.escapeFormulas = false) {rows : List SynMap}
    (hwidth : ∀ m ∈ rows, m.length = hs.length) (hcolumns : ∀ m ∈ rows, (m.map Prod.fst).Perm hs)
    (hscalar : ∀ m ∈ rows, ∀ e ∈ m, IsScalar e.2) (row : Nat) :
    putMaps o hs row (rows.map .map) = .ok (rows.flatMap fun m =>
      writeRecord o.delimiter (hs.map fun h => fieldOf o hs.length (valueAt m h)) ++ o.eol) := by
  induction rows generalizing row with
  | nil => rfl
  | cons m rows ih =>
    obtain ⟨hm, hwidth⟩ := forall_mem_cons.mp hwidth
    obtain ⟨hperm, hcolumns⟩ := forall_mem_cons.mp hcolumns
    obtain ⟨hv, hscalar⟩ := forall_mem_cons.mp hscalar
    rw [map_cons, putMaps, if_neg (fun h => h.2 hm),
      putColumns_eq hescape (fun h hh => hperm.mem_iff.mpr hh) hv,
      ih hwidth hcolumns hscalar]
    rfl

/-- A text of records. -/
def textOf (o : EncodeOpts) (records : List (List Field)) : Text :=
  records.flatMap fun fs => writeRecord o.delimiter fs ++ o.eol

theorem encodeRows_eq (hescape : o.escapeFormulas = false) (hheaders : o.headers = none)
    {table : Table} (ht : table.Valid width) :
    encodeRows o table.rows = .ok (textOf o (table.records o width)) := by
  cases ht with
  | lists hne hwidth hscalar =>
    rename_i rows
    obtain ⟨r, rows, rfl⟩ := exists_cons_of_ne_nil hne
    have hr := hwidth r mem_cons_self
    have hlists := putLists_eq (o := o) hescape hwidth hscalar 1
    rw [Table.rows, map_cons, encodeRows, hheaders, if_neg (by simp), hr,
      ← map_cons, hlists, textOf, Table.records, flatMap_map]
    rfl
  | maps hne hwidth hnodup hcolumns hscalar =>
    rename_i rows
    obtain ⟨m, rows, rfl⟩ := exists_cons_of_ne_nil hne
    have hlength : (columns (m :: rows)).length = width := by
      rw [columns, length_map, hwidth m mem_cons_self]
    have hmaps : putMaps o (columns (m :: rows)) 1 _ = _ := putMaps_eq hescape
      (fun m hm => (hwidth m hm).trans hlength.symm) hcolumns hscalar 1
    rw [hlength] at hmaps
    rw [Table.rows, map_cons, encodeRows, hheaders, ← map_cons]
    show (putMaps o (columns (m :: rows)) 1 _).map (fun t ↦ putHeaders o (columns (m :: rows)) ++ t) = _
    rw [hmaps, putHeaders_eq hescape, hlength, textOf, Table.records]
    simp only [flatMap_cons, flatMap_map]
    rfl

end Fields

/-! ## Records as they are read -/

section Read

variable {o : EncodeOpts} {width : Nat}

/-- The records without the mark of a byte order at their beginning. -/
def dropBom : List (List Field) → List (List Field)
  | (f :: fs) :: records =>
    if f.quoted = false ∧ f.text.head? = some bom then
      ({ text := f.text.tail, quoted := false } :: fs) :: records
    else (f :: fs) :: records
  | records => records

/-- The records that are seen: the first may be a blank line. -/
def seen (records : List (List Field)) : List (List Field) :=
  match dropBom records with
  | [] => []
  | fs :: records => if fs = [{ text := [], quoted := false }] then records else fs :: records

theorem textOf_cons (f : Field) (fs : List Field) (records : List (List Field)) :
    textOf o ((f :: fs) :: records) =
      f.write ++ ((fs.flatMap fun g => o.delimiter :: g.write) ++ (o.eol ++ textOf o records)) := by
  simp only [textOf, flatMap_cons, writeRecord, append_assoc]

theorem stripPrefix_bom (c : Char) (t : Text) :
    stripPrefix [bom] (c :: t) = if c = bom then some t else none := by
  rw [stripPrefix, List.isPrefixOf?]
  by_cases hc : c = bom
  · rw [if_pos hc, if_pos (beq_iff_eq.mpr hc.symm)]
    rfl
  · rw [if_neg hc, if_neg (mt beq_iff_eq.mp (Ne.symm hc))]

variable {records : List (List Field)} {rs : List (Nat × List Field)}

theorem strip_textOf (ho : o.Checked) (hne : ∀ fs ∈ records, fs ≠ []) :
    (stripPrefix [bom] (textOf o records)).getD (textOf o records) =
      textOf o (dropBom records) := by
  cases records with
  | nil => rfl
  | cons fs records =>
    obtain ⟨⟨t, quoted⟩, fs, rfl⟩ := exists_cons_of_ne_nil (hne fs mem_cons_self)
    rw [dropBom]
    cases quoted with
    | true =>
      rw [if_neg (fun h => Bool.noConfusion h.1), textOf_cons]
      show (stripPrefix [bom] ('"' :: _)).getD ('"' :: _) = '"' :: _
      rw [stripPrefix_bom, if_neg (by decide)]
      rfl
    | false =>
      cases t with
      | cons c t =>
        rw [textOf_cons]
        show (stripPrefix [bom] (c :: (t ++ _))).getD (c :: (t ++ _)) = _
        rw [stripPrefix_bom]
        by_cases hc : c = bom
        · rw [if_pos hc, if_pos ⟨rfl, congrArg some hc⟩, textOf_cons]
          rfl
        · rw [if_neg hc, if_neg (fun h => hc (Option.some.inj h.2)), textOf_cons]
          rfl
      | nil =>
        rw [if_neg (fun h => absurd h.2 (by simp)), textOf_cons]
        obtain ⟨d, e, heol, hd⟩ := ho.eol.eq_cons
        cases fs with
        | nil =>
          show (stripPrefix [bom] (o.eol ++ _)).getD (o.eol ++ _) = o.eol ++ _
          rw [heol, cons_append, stripPrefix_bom, if_neg]
          · rfl
          · rcases hd with rfl | rfl <;> decide
        | cons g fs =>
          show (stripPrefix [bom] (o.delimiter :: _)).getD (o.delimiter :: _) =
            o.delimiter :: _
          rw [stripPrefix_bom, if_neg]
          · rfl
          · intro h
            have hascii := ho.ascii
            rw [h] at hascii
            exact absurd hascii (by decide)

theorem scan_textOf (ho : o.Checked)
    (hrecords : ∀ fs ∈ records, fs ≠ [] ∧ Visible fs ∧ ∀ f ∈ fs, f.Fits o.delimiter) :
    ∃ rs, scan o.delimiter 1 (textOf o (dropBom records)) = .ok rs ∧
      rs.map Prod.snd = seen records := by
  cases records with
  | nil => exact ⟨[], by rw [dropBom, textOf, flatMap_nil, scan]; simp, rfl⟩
  | cons fs records =>
    obtain ⟨⟨hne, hvisible, hfs⟩, hrest⟩ := forall_mem_cons.mp hrecords
    obtain ⟨f, fs, rfl⟩ := exists_cons_of_ne_nil hne
    obtain ⟨hf, hfs⟩ := forall_mem_cons.mp hfs
    rw [seen, dropBom]
    by_cases hbom : f.quoted = false ∧ f.text.head? = some bom
    · rw [if_pos hbom]
      have htail : Field.Fits o.delimiter { text := f.text.tail, quoted := false } := by
        intro _
        have hplain := needsQuotes_eq_false.mp (hf hbom.1)
        exact needsQuotes_eq_false.mpr fun c hc => hplain c (mem_of_mem_tail hc)
      by_cases hblank : ({ text := f.text.tail, quoted := false } : Field) :: fs =
          [{ text := [], quoted := false }]
      · obtain ⟨rs, hrs, hsnd⟩ := scan_write ho.delimiter ho.eol hrest 2
        refine ⟨rs, ?_, ?_⟩
        · rw [hblank, textOf_cons]
          exact (scan_blank ho.eol 1 _).trans hrs
        · simp only [if_pos hblank, hsnd]
      · obtain ⟨rs, hrs, hsnd⟩ := scan_write ho.delimiter ho.eol
          (forall_mem_cons.mpr ⟨⟨cons_ne_nil _ _, hblank,
            forall_mem_cons.mpr ⟨htail, hfs⟩⟩, hrest⟩) 1
        refine ⟨rs, hrs, ?_⟩
        simp only [if_neg hblank, hsnd]
    · rw [if_neg hbom]
      obtain ⟨rs, hrs, hsnd⟩ := scan_write ho.delimiter ho.eol hrecords 1
      refine ⟨rs, hrs, ?_⟩
      simp only [if_neg hvisible, hsnd]

/-! ## What is made of records -/

variable {V : Conversion} {p : ParseOpts}

theorem foldl_lists (hheaders : p.headers = false) (hwidth : ∀ r ∈ rs, r.2.length = width)
    (rows : List SynValue) {w : Option Nat} (hw : ∀ n ∈ w, n = width) :
    ∃ w', rs.foldl (onRecord V p) { width := w, rows } =
      { width := w', rows := rows ++ rs.map fun r => .list (r.2.map (fieldValue V p)) } := by
  induction rs generalizing rows w with
  | nil => exact ⟨w, by rw [foldl_nil, map_nil, append_nil]⟩
  | cons r rs ih =>
    obtain ⟨hr, hwidth⟩ := forall_mem_cons.mp hwidth
    have hsome : w.getD width = width := by
      cases w with
      | none => rfl
      | some n => exact hw n rfl
    have hstep : onRecord V p { width := w, rows } r =
        { width := some width, rows := rows ++ [.list (r.2.map (fieldValue V p))] } := by
      simp only [onRecord, hr, hsome, ne_eq, not_true_eq_false, if_false, Option.isSome_none,
        Bool.or_self, Bool.false_eq_true, hheaders, if_true]
    obtain ⟨w', hrest⟩ := ih hwidth (rows ++ [.list (r.2.map (fieldValue V p))])
      (w := some width) (fun n hn => (Option.some.inj hn).symm)
    refine ⟨w', ?_⟩
    rw [foldl_cons, hstep, hrest, map_cons, append_assoc]
    rfl

theorem rowValues_eq (htypes : p.types = none) (line : Nat) (hs : List Text) (fs : List Field) :
    rowValues V p line hs fs = .ok ((hs.zip fs).map fun hf => (hf.1, fieldValue V p hf.2)) := by
  have hcolumn : ∀ h f, columnValue V p line h f = .ok (fieldValue V p f) := by
    intro h f
    rw [columnValue, htypes]
    rfl
  rw [rowValues]
  simp only [hcolumn]
  exact mapM_pure

theorem foldl_maps (hheaders : p.headers) (htypes : p.types = none)
    (hwidth : ∀ r ∈ rs, r.2.length = width) (hs : List Text) (rows : List SynValue) :
    rs.foldl (onRecord V p) { width := some width, header := some hs, rows } =
      { width := some width
        header := some hs
        rows := rows ++ rs.map fun r =>
          .map ((hs.zip r.2).map fun hf => (hf.1, fieldValue V p hf.2)) } := by
  induction rs generalizing rows with
  | nil => rw [foldl_nil, map_nil, append_nil]
  | cons r rs ih =>
    obtain ⟨hr, hwidth⟩ := forall_mem_cons.mp hwidth
    have hstep : onRecord V p { width := some width, header := some hs, rows } r =
        { width := some width
          header := some hs
          rows := rows ++ [.map ((hs.zip r.2).map fun hf => (hf.1, fieldValue V p hf.2))] } := by
      simp only [onRecord, Option.getD_some, hr, ne_eq, not_true_eq_false, if_false,
        Option.isSome_none, Bool.or_self, Bool.false_eq_true, hheaders, Bool.true_eq_false,
        rowValues_eq htypes]
    rw [foldl_cons, hstep, ih hwidth, map_cons, append_assoc]
    rfl

theorem duplicate_eq_none {seen hs : List Text} :
    duplicate seen hs = none ↔ hs.Nodup ∧ ∀ h ∈ hs, h ∉ seen := by
  induction hs generalizing seen with
  | nil => simp [duplicate]
  | cons h hs ih =>
    rw [duplicate]
    by_cases hh : h ∈ seen
    · rw [if_pos (contains_iff_mem.mpr hh)]
      exact ⟨nofun, fun hall => (hall.2 h mem_cons_self hh).elim⟩
    · rw [if_neg (mt contains_iff_mem.mp hh), ih, nodup_cons]
      simp only [List.mem_cons, forall_eq_or_imp, not_or]
      constructor
      · rintro ⟨hnodup, hall⟩
        exact ⟨⟨fun hmem => (hall h hmem).1 rfl, hnodup⟩, hh, fun g hg => (hall g hg).2⟩
      · rintro ⟨⟨hnot, hnodup⟩, -, hall⟩
        exact ⟨hnodup, fun g hg => ⟨fun heq => hnot (heq ▸ hg), hall g hg⟩⟩

/-- What `csv_parse` makes of records of one width. -/
def readRecords (V : Conversion) (p : ParseOpts) (records : List (List Field)) :
    Except Fault SynValue :=
  if p.headers then
    match records with
    | [] => .ok (.list [])
    | header :: body =>
      match duplicate [] (header.map Field.text) with
      | some h => .error (.duplicateHeader h)
      | none => .ok (.list (body.map fun fs =>
          .map (((header.map Field.text).zip fs).map fun hf => (hf.1, fieldValue V p hf.2))))
  else .ok (.list (records.map fun fs => .list (fs.map (fieldValue V p))))

theorem seen_length (hwidth : ∀ fs ∈ records, fs.length = width) :
    ∀ fs ∈ seen records, fs.length = width := by
  have hdrop : ∀ fs ∈ dropBom records, fs.length = width := by
    rw [dropBom.eq_def]
    split
    · rename_i f fs records
      obtain ⟨hf, hwidth⟩ := forall_mem_cons.mp hwidth
      split_ifs
      · exact forall_mem_cons.mpr ⟨hf, hwidth⟩
      · exact forall_mem_cons.mpr ⟨hf, hwidth⟩
    · exact hwidth
  rw [seen]
  split
  · exact fun fs hfs => absurd hfs not_mem_nil
  · rename_i hcons
    rw [hcons] at hdrop
    split_ifs
    · exact (forall_mem_cons.mp hdrop).2
    · exact hdrop

theorem foldl_fault (hwidth : ∀ r ∈ rs, r.2.length = width) {σ : Reader} (hw : σ.width = some width)
    (hnone : σ.widthFault = none) (hsome : σ.otherFault.isSome) :
    rs.foldl (onRecord V p) σ = σ := by
  induction rs with
  | nil => rfl
  | cons r rs ih =>
    obtain ⟨hr, hwidth⟩ := forall_mem_cons.mp hwidth
    have hstep : onRecord V p σ r = σ := by
      obtain ⟨w, wf, other, header, rows⟩ := σ
      cases hw
      cases hnone
      simp only [onRecord, Option.getD_some, hr, ne_eq, not_true_eq_false, if_false,
        Option.isSome_none, Bool.false_or, hsome, if_true]
    rw [foldl_cons, hstep, ih hwidth]

theorem parseText_textOf (ho : o.Checked) (hdelim : p.delimiter = o.delimiter)
    (htypes : p.types = none)
    (hrecords : ∀ fs ∈ records, fs ≠ [] ∧ Visible fs ∧ ∀ f ∈ fs, f.Fits o.delimiter)
    (hwidth : ∀ fs ∈ records, fs.length = width) :
    parseText V p (textOf o records) = readRecords V p (seen records) := by
  obtain ⟨rs, hrs, hsnd⟩ := scan_textOf ho hrecords
  have hrw : ∀ r ∈ rs, r.2.length = width := by
    intro r hr
    exact seen_length hwidth _ (hsnd ▸ mem_map_of_mem hr)
  rw [parseText, strip_textOf ho fun fs hfs => (hrecords fs hfs).1, hdelim, hrs, ← hsnd]
  by_cases hnil : textOf o (dropBom records) = []
  · rw [hnil, scan, Except.ok.injEq] at hrs
    rw [if_pos hnil, ← hrs]
    unfold readRecords
    split_ifs <;> rfl
  · rw [if_neg hnil]
    unfold readRecords
    cases hheaders : p.headers with
    | false =>
      obtain ⟨w', hfold⟩ := foldl_lists (V := V) hheaders hrw [] (w := none) (by rintro _ ⟨⟩)
      rw [if_neg Bool.false_ne_true, map_map]
      show (rs.foldl (onRecord V p) {}).result = _
      rw [hfold]
      rfl
    | true =>
      rw [if_pos rfl]
      show (rs.foldl (onRecord V p) {}).result = _
      cases rs with
      | nil => rfl
      | cons r rs =>
        obtain ⟨hr, hrw⟩ := forall_mem_cons.mp hrw
        have hfault : headerFault p (r.2.map Field.text) =
            (duplicate [] (r.2.map Field.text)).map .duplicateHeader := by
          rw [headerFault, htypes]
          cases duplicate [] (r.2.map Field.text) <;> rfl
        have hstep : onRecord V p {} r =
            { width := some width
              header := some (r.2.map Field.text)
              otherFault := headerFault p (r.2.map Field.text) } := by
          simp only [onRecord, Option.getD_none, hr, ne_eq, not_true_eq_false, if_false,
            Option.isSome_none, Bool.or_self, Bool.false_eq_true, hheaders, Bool.true_eq_false]
        rw [foldl_cons, hstep, hfault, map_cons]
        cases hdup : duplicate [] (r.2.map Field.text) with
        | some h =>
          rw [foldl_fault hrw rfl rfl rfl]
          simp only [hdup]
          rfl
        | none =>
          rw [Option.map_none, foldl_maps hheaders htypes hrw]
          simp only [hdup, map_map]
          rfl

end Read

end Synsema.Csv
