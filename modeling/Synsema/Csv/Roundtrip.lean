import Synsema.Csv.Tables

/-!
# Reading what was written

A table of scalars is read as it was written, unless a number or a boolean prints as the mark of
what is missing, or the text begins with the mark of a byte order, which the reader drops.
-/

namespace Synsema.Csv

open Text List

/-! ## The property -/

section Property

variable (o : EncodeOpts) (width : Nat)

/-- What a scalar is read as: a number or a boolean as what it prints as, and nothing as an empty
text if it is alone in its row and has no mark. -/
def readBack (v : SynValue) : SynValue :=
  match v with
  | .nothing => if width = 1 ∧ o.missing = none then .text [] else .nothing
  | v => (printed v).elim v .text

/-- Is a row read as it was written?  The order of the entries of a map does not matter. -/
inductive SameRow : SynValue → SynValue → Prop where
  | list (items : List SynValue) : SameRow (.list items) (.list (items.map (readBack o width)))
  | map {m m' : SynMap} (h : m'.Perm (m.map fun e => (e.1, readBack o width e.2))) :
      SameRow (.map m) (.map m')

/-- The options of `csv_parse` that match those of `csv_encode`. -/
structure Matches (p : ParseOpts) (table : Table) : Prop where
  delimiter : p.delimiter = o.delimiter
  missing : p.missing = o.missing.toList
  headers : p.headers = table.isMaps
  numbers : p.numbers = false
  types : p.types = none

/-- A table is read as it was written: the rows are of the same shape, in the same order. -/
def RoundTrips (V : Conversion) (table : Table) (encoding parsing : SynValue) : Prop :=
  ∃ t rows, csvEncode (.list table.rows) encoding = .ok (.text t) ∧
    csvParse V (.text t) parsing = .ok (.list rows) ∧
    Forall₂ (SameRow o width) table.rows rows

/-! ## Its condition -/

/-- Does no number and no boolean print as the mark? -/
def MarkFree (v : SynValue) : Prop := ∀ t ∈ printed v, o.missing ≠ some t

/-- A text with a mark of a byte order at its beginning stands in quotes. -/
def TextKept (t : Text) : Prop :=
  t.head? = some bom → o.missing = some t ∨ needsQuotes o.delimiter t = true

/-- The first value does not begin with the mark of a byte order, or is read all the same. -/
def CellKept (v : SynValue) : Prop :=
  match v with
  | .text t => TextKept o t
  | .nothing => ∀ m ∈ o.missing, m.head? = some bom → m = [bom] ∧ 1 < width
  | _ => True

/-- What is written first is not lost: the first header, or the first value. -/
def FirstKept (table : Table) : Prop :=
  match table with
  | .lists rows => ∀ r ∈ rows.head?, ∀ v ∈ r.head?, CellKept o width v
  | .maps rows => ∀ h ∈ (columns rows).head?, TextKept o h

end Property

section Fields

variable {o : EncodeOpts} {width : Nat} {V : Conversion} {p : ParseOpts}

/-! ## The fields of values -/

variable {v : SynValue} {t : Text} {f : Field}

theorem fieldOf_fits (ho : o.Checked) (hv : IsScalar v) : (fieldOf o width v).Fits o.delimiter := by
  intro hquoted
  cases hv with
  | text t =>
    simp only [fieldOf, Bool.or_eq_false_iff] at hquoted
    exact hquoted.2
  | number n | bool b => exact hquoted
  | nothing =>
    rw [fieldOf]
    cases hm : o.missing with
    | some m => exact (ho.mark m hm).2
    | none => rfl

theorem headerField_fits (h : Text) : (headerField o width h).Fits o.delimiter := by
  intro hquoted
  simp only [headerField, Bool.or_eq_false_iff] at hquoted
  exact hquoted.2

theorem fieldOf_ne_blank (ho : o.Checked) (hv : IsScalar v) :
    fieldOf o 1 v ≠ { text := [], quoted := false } := by
  intro h
  cases hv with
  | text t =>
    obtain ⟨rfl, hquoted⟩ := Field.mk.inj h
    simp at hquoted
  | number n => exact n.ne_nil (congrArg Field.text h)
  | bool b => exact printed_ne_nil (v := .bool b) rfl (congrArg Field.text h)
  | nothing =>
    rw [fieldOf] at h
    cases hm : o.missing with
    | some m =>
      rw [hm] at h
      exact (ho.mark m hm).1 (congrArg Field.text h)
    | none =>
      rw [hm] at h
      cases congrArg Field.quoted h

theorem headerField_ne_blank (h : Text) : headerField o 1 h ≠ { text := [], quoted := false } := by
  intro heq
  obtain ⟨rfl, hquoted⟩ := Field.mk.inj heq
  simp at hquoted

theorem visible_map {α : Type*} {l : List α} {f : α → Field} (hl : l.length = width)
    (hf : width = 1 → ∀ a ∈ l, f a ≠ { text := [], quoted := false }) : Visible (l.map f) := by
  intro h
  obtain ⟨a, rfl, ha⟩ := map_eq_singleton_iff.mp h
  exact hf hl.symm a mem_cons_self ha

variable {table : Table} {fs : List Field} {records : List (List Field)}
  {rows : List (List SynValue)} {hs : List Text} {m : SynMap}

theorem records_ok (ho : o.Checked) (hpos : 0 < width) (ht : table.Valid width) :
    (∀ fs ∈ table.records o width, fs ≠ [] ∧ Visible fs ∧ ∀ f ∈ fs, f.Fits o.delimiter) ∧
      ∀ fs ∈ table.records o width, fs.length = width := by
  have hne : ∀ {fs : List Field}, fs.length = width → fs ≠ [] := by
    rintro fs hfs rfl
    exact absurd hfs (Nat.ne_of_lt hpos)
  cases ht with
  | lists _ hwidth hscalar =>
    refine ⟨fun fs hfs => ?_, fun fs hfs => ?_⟩
    all_goals
      obtain ⟨r, hr, rfl⟩ := mem_map.mp hfs
    · refine ⟨hne ((length_map _).trans (hwidth r hr)),
        visible_map (hwidth r hr) fun h v hv => ?_, fun f hf => ?_⟩
      · subst h
        exact fieldOf_ne_blank ho (hscalar r hr v hv)
      · obtain ⟨v, hv, rfl⟩ := mem_map.mp hf
        exact fieldOf_fits ho (hscalar r hr v hv)
    · exact (length_map _).trans (hwidth r hr)
  | maps hrows hwidth hnodup hcolumns hscalar =>
    rename_i rows
    have hlength : (columns rows).length = width := by
      obtain ⟨m, rows, rfl⟩ := exists_cons_of_ne_nil hrows
      rw [columns, length_map, hwidth m mem_cons_self]
    have hcell : ∀ m ∈ rows, ∀ h ∈ columns rows, IsScalar (valueAt m h) := by
      intro m hm h hh
      exact hscalar m hm _ (valueAt_mem ((hcolumns m hm).mem_iff.mpr hh))
    refine ⟨forall_mem_cons.mpr ⟨⟨?_, ?_, ?_⟩, fun fs hfs => ?_⟩,
      forall_mem_cons.mpr ⟨(length_map _).trans hlength, fun fs hfs => ?_⟩⟩
    · exact hne ((length_map _).trans hlength)
    · refine visible_map hlength fun h g _ => ?_
      subst h
      exact headerField_ne_blank g
    · intro f hf
      obtain ⟨h, -, rfl⟩ := mem_map.mp hf
      exact headerField_fits h
    · obtain ⟨m, hm, rfl⟩ := mem_map.mp hfs
      refine ⟨hne ((length_map _).trans hlength), visible_map hlength fun h g hg => ?_,
        fun f hf => ?_⟩
      · subst h
        exact fieldOf_ne_blank ho (hcell m hm g hg)
      · obtain ⟨h, hh, rfl⟩ := mem_map.mp hf
        exact fieldOf_fits ho (hcell m hm h hh)
    · obtain ⟨m, hm, rfl⟩ := mem_map.mp hfs
      exact (length_map _).trans hlength

/-! ## The values of fields -/

theorem contains_missing (hmissing : p.missing = o.missing.toList) :
    p.missing.contains t ↔ o.missing = some t := by
  rw [hmissing, contains_iff_mem, Option.mem_toList]

theorem fieldValue_eq (hnumbers : p.numbers = false) (f : Field) :
    fieldValue V p f =
      if f.text = [] then if f.quoted then .text [] else .nothing
      else if isMissingMarker p f then .nothing else .text f.text := by
  rw [fieldValue, hnumbers]
  rfl

theorem fieldValue_kept (hnumbers : p.numbers = false) (hempty : f.text = [] → f.quoted)
    (hmark : isMissingMarker p f = false) : fieldValue V p f = .text f.text := by
  rw [fieldValue_eq hnumbers]
  by_cases h : f.text = []
  · rw [if_pos h, if_pos (hempty h), h]
  · rw [if_neg h, hmark, if_neg Bool.false_ne_true]

theorem fieldValue_fieldOf (ho : o.Checked) (hmissing : p.missing = o.missing.toList)
    (hnumbers : p.numbers = false) (hv : IsScalar v) (hfree : MarkFree o v) :
    fieldValue V p (fieldOf o width v) = readBack o width v := by
  have hprinted : ∀ {v t}, printed v = some t → o.missing ≠ some t →
      fieldValue V p (fieldOf o width v) = .text t := by
    intro v t ht hne
    rw [fieldOf_printed ht]
    refine fieldValue_kept hnumbers (fun h => (printed_ne_nil ht h).elim) ?_
    rw [isMissingMarker, Bool.and_eq_false_iff, ← Bool.not_eq_true (List.contains _ _),
      contains_missing hmissing]
    exact Or.inr hne
  cases hv with
  | text t =>
    refine fieldValue_kept hnumbers (f := fieldOf o width (.text t)) (fun h => ?_) ?_
    · have ht : t = [] := h
      rw [ht]
      rfl
    · rw [isMissingMarker, Bool.and_eq_false_iff, ← Bool.not_eq_true (List.contains _ _),
        contains_missing hmissing, Bool.not_eq_false']
      by_cases hm : o.missing = some t
      · left
        simp [fieldOf, hm]
      · exact Or.inr hm
  | number n | bool b => exact hprinted rfl (hfree _ rfl)
  | nothing =>
    rw [fieldOf, readBack, fieldValue_eq hnumbers]
    cases hm : o.missing with
    | some m =>
      have hmarker : isMissingMarker p { text := m, quoted := false } := by
        rw [isMissingMarker, Bool.and_eq_true, contains_missing hmissing]
        exact ⟨rfl, hm⟩
      simp only [if_neg (ho.mark m hm).1, hmarker, if_true, reduceCtorEq, and_false, if_false]
    | none =>
      simp only [if_true, and_true, beq_iff_eq]

theorem fieldValue_mark (ho : o.Checked) (hmissing : p.missing = o.missing.toList)
    (hnumbers : p.numbers = false) (ht : printed v = some t) (hm : o.missing = some t) :
    fieldValue V p (fieldOf o width v) = .nothing := by
  have hmarker : isMissingMarker p { text := t, quoted := false } := by
    rw [isMissingMarker, Bool.and_eq_true, contains_missing hmissing]
    exact ⟨rfl, hm⟩
  rw [fieldOf_printed ht, (ho.mark t hm).2, fieldValue_eq hnumbers, if_neg (printed_ne_nil ht),
    if_pos hmarker]

theorem readBack_printed (ht : printed v = some t) : readBack o width v = .text t := by
  cases v <;> cases ht
  · rfl
  · rfl

theorem fieldValue_iff (ho : o.Checked) (hmissing : p.missing = o.missing.toList)
    (hnumbers : p.numbers = false) (hv : IsScalar v) :
    fieldValue V p (fieldOf o width v) = readBack o width v ↔ MarkFree o v := by
  refine ⟨fun h t ht hm => ?_, fieldValue_fieldOf ho hmissing hnumbers hv⟩
  rw [fieldValue_mark ho hmissing hnumbers ht hm, readBack_printed ht] at h
  cases h

/-! ## What is written first -/

/-- Is the field written with the mark of a byte order at its beginning? -/
def StartsWithBom (f : Field) : Prop := f.quoted = false ∧ f.text.head? = some bom

theorem seen_kept (hbom : ¬ StartsWithBom f) (hvisible : Visible (f :: fs)) :
    seen ((f :: fs) :: records) = (f :: fs) :: records := by
  have hdrop : dropBom ((f :: fs) :: records) = (f :: fs) :: records := by
    rw [dropBom]
    exact if_neg hbom
  rw [seen, hdrop]
  exact if_neg hvisible

theorem seen_bom (hbom : StartsWithBom f) :
    seen ((f :: fs) :: records) =
      if f.text.tail = [] ∧ fs = [] then records
      else ({ text := f.text.tail, quoted := false } :: fs) :: records := by
  have hdrop : dropBom ((f :: fs) :: records) =
      ({ text := f.text.tail, quoted := false } :: fs) :: records := by
    rw [dropBom]
    exact if_pos hbom
  rw [seen, hdrop]
  simp only [List.cons.injEq, Field.mk.injEq, and_true]

theorem printed_head (ht : printed v = some t) : t.head? ≠ some bom := by
  cases v with
  | number n =>
    cases ht
    intro h
    exact absurd (n.ascii bom (mem_of_mem_head? h)) (by decide)
  | bool b => cases b <;> cases ht <;> decide
  | _ => cases ht

theorem cellKept_of_not_bom (h : ¬ StartsWithBom (fieldOf o width v)) : CellKept o width v := by
  cases v with
  | text t =>
    intro hhead
    have hquoted : (fieldOf o width (.text t)).quoted := by
      by_contra hq
      exact h ⟨Bool.of_not_eq_true hq, hhead⟩
    have hne : t.isEmpty = false := by
      obtain ⟨u, rfl⟩ := head?_eq_some_iff.mp hhead
      rfl
    simpa [fieldOf, hne] using hquoted
  | nothing =>
    intro m hm hhead
    refine (h ?_).elim
    rw [fieldOf, Option.mem_def.mp hm]
    exact ⟨rfl, hhead⟩
  | _ => trivial

theorem cellKept_bom (hv : IsScalar v) (h : StartsWithBom (fieldOf o width v)) :
    CellKept o width v ↔ v = .nothing ∧ o.missing = some [bom] ∧ 1 < width := by
  obtain ⟨hquoted, hhead⟩ := h
  have hprinted : ∀ t, printed v ≠ some t := by
    intro t ht
    rw [fieldOf_printed ht] at hhead
    exact printed_head ht hhead
  cases hv with
  | text t =>
    simp only [fieldOf, Bool.or_eq_false_iff, beq_eq_false_iff_ne] at hquoted
    refine ⟨fun hkept => ?_, by rintro ⟨⟨⟩, -⟩⟩
    rcases hkept hhead with hm | hq
    · exact (hquoted.1.2 hm).elim
    · rw [hquoted.2] at hq
      cases hq
  | number n | bool b => exact (hprinted _ rfl).elim
  | nothing =>
    rw [fieldOf] at hhead
    cases hm : o.missing with
    | none =>
      rw [hm] at hhead
      cases hhead
    | some m =>
      rw [hm] at hhead
      refine ⟨fun hkept => ?_, ?_⟩
      · obtain ⟨rfl, hwidth⟩ := hkept m hm hhead
        exact ⟨rfl, rfl, hwidth⟩
      · rintro ⟨-, hbom, hwidth⟩ m' hm' -
        rw [hm] at hm'
        cases hm'
        exact ⟨Option.some.inj hbom, hwidth⟩

theorem fieldValue_bom (hmissing : p.missing = o.missing.toList) (hnumbers : p.numbers = false)
    (hv : IsScalar v) (h : StartsWithBom (fieldOf o width v)) :
    fieldValue V p { text := (fieldOf o width v).text.tail, quoted := false } =
        readBack o width v ↔ v = .nothing ∧ o.missing = some [bom] := by
  obtain ⟨hquoted, hhead⟩ := h
  have hprinted : ∀ t, printed v ≠ some t := by
    intro t ht
    rw [fieldOf_printed ht] at hhead
    exact printed_head ht hhead
  cases hv with
  | text t =>
    refine ⟨fun heq => ?_, nofun⟩
    obtain ⟨u, hu⟩ := head?_eq_some_iff.mp hhead
    have ht : t = bom :: u := hu
    subst ht
    rw [fieldValue_eq hnumbers, if_neg (c := _ = true) Bool.false_ne_true] at heq
    split_ifs at heq
    · cases heq
    · cases heq
    · exact absurd (SynValue.text.inj heq) (cons_ne_self bom u).symm
  | number n | bool b => exact (hprinted _ rfl).elim
  | nothing =>
    rw [fieldOf] at hhead ⊢
    cases hm : o.missing with
    | none =>
      rw [hm] at hhead
      cases hhead
    | some m =>
      rw [hm] at hhead
      obtain ⟨u, hu⟩ := head?_eq_some_iff.mp hhead
      have hm' : m = bom :: u := hu
      subst hm'
      have hback : readBack o width .nothing = .nothing := by
        rw [readBack, hm, if_neg (fun h => by cases h.2)]
      have hmark : isMissingMarker p { text := u, quoted := false } = false := by
        rw [isMissingMarker, Bool.and_eq_false_iff, ← Bool.not_eq_true (List.contains _ _),
          contains_missing hmissing, hm]
        exact Or.inr fun h => cons_ne_self bom u (Option.some.inj h)
      show fieldValue V p { text := u, quoted := false } = _ ↔ _
      rw [hback, fieldValue_eq hnumbers, hmark, if_neg (c := _ = true) Bool.false_ne_true,
        if_neg Bool.false_ne_true]
      constructor
      · intro heq
        split_ifs at heq with hnil
        · have hu : u = [] := hnil
          rw [hu]
          exact ⟨rfl, rfl⟩
      · rintro ⟨-, hbom⟩
        obtain ⟨-, rfl⟩ := cons.inj (Option.some.inj hbom)
        rfl

/-! ## Tables of lists -/

theorem values_iff (ho : o.Checked) (hmissing : p.missing = o.missing.toList)
    (hnumbers : p.numbers = false) {vs : List SynValue} (hvs : ∀ v ∈ vs, IsScalar v) :
    (vs.map (fieldOf o width)).map (fieldValue V p) = vs.map (readBack o width) ↔
      ∀ v ∈ vs, MarkFree o v := by
  rw [map_map, map_inj_left]
  exact forall₂_congr fun v hv => fieldValue_iff ho hmissing hnumbers (hvs v hv)

theorem rows_iff (ho : o.Checked) (hmissing : p.missing = o.missing.toList)
    (hnumbers : p.numbers = false) (hrows : ∀ r ∈ rows, ∀ v ∈ r, IsScalar v) :
    (rows.map fun r => r.map (fieldOf o width)).map (List.map (fieldValue V p)) =
        rows.map (List.map (readBack o width)) ↔ ∀ r ∈ rows, ∀ v ∈ r, MarkFree o v := by
  rw [map_map, map_inj_left]
  exact forall₂_congr fun r hr => values_iff ho hmissing hnumbers (hrows r hr)

theorem lists_iff (ho : o.Checked) (hmissing : p.missing = o.missing.toList)
    (hnumbers : p.numbers = false) (hpos : 0 < width) (hne : rows ≠ [])
    (hwidth : ∀ r ∈ rows, r.length = width) (hscalar : ∀ r ∈ rows, ∀ v ∈ r, IsScalar v) :
    (seen (rows.map fun r => r.map (fieldOf o width))).map (List.map (fieldValue V p)) =
        rows.map (List.map (readBack o width)) ↔
      (∀ r ∈ rows, ∀ v ∈ r, MarkFree o v) ∧ FirstKept o width (.lists rows) := by
  obtain ⟨r, rows, rfl⟩ := exists_cons_of_ne_nil hne
  obtain ⟨hr, hwidth'⟩ := forall_mem_cons.mp hwidth
  obtain ⟨v, vs, rfl⟩ : ∃ v vs, r = v :: vs := by
    cases r with
    | nil => exact absurd hr (Nat.ne_of_lt hpos)
    | cons v vs => exact ⟨v, vs, rfl⟩
  obtain ⟨hvs, hscalar'⟩ := forall_mem_cons.mp hscalar
  obtain ⟨hv, hvs'⟩ := forall_mem_cons.mp hvs
  have hfirst : FirstKept o width (.lists ((v :: vs) :: rows)) ↔ CellKept o width v :=
    ⟨fun h => h _ rfl _ rfl, fun h r hr w hw => by cases hr; cases hw; exact h⟩
  rw [hfirst]
  by_cases hbom : StartsWithBom (fieldOf o width v)
  · rw [cellKept_bom hv hbom, map_cons, map_cons, seen_bom hbom]
    have hlength : vs.map (fieldOf o width) = [] ↔ ¬ 1 < width := by
      rw [map_eq_nil_iff, ← hr, length_cons, ← length_eq_zero_iff]
      omega
    split_ifs with hdropped
    · -- the first row is a blank line
      refine ⟨fun h => ?_, fun h => (hlength.mp hdropped.2 h.2.2.2).elim⟩
      have hlengths := congrArg List.length h
      simp at hlengths
    · have hfree : MarkFree o v := by
        intro t ht
        have hhead := hbom.2
        rw [fieldOf_printed ht] at hhead
        exact (printed_head ht hhead).elim
      simp only [map_cons, List.cons.injEq, forall_mem_cons]
      rw [fieldValue_bom hmissing hnumbers hv hbom, values_iff ho hmissing hnumbers hvs',
        rows_iff ho hmissing hnumbers hscalar']
      constructor
      · rintro ⟨⟨⟨rfl, hm⟩, hrest⟩, hrows⟩
        refine ⟨⟨⟨hfree, hrest⟩, hrows⟩, rfl, hm, ?_⟩
        by_contra hnot
        refine hdropped ⟨?_, hlength.mpr hnot⟩
        rw [fieldOf, hm]
        rfl
      · rintro ⟨⟨⟨-, hrest⟩, hrows⟩, hnothing, hm, -⟩
        exact ⟨⟨⟨hnothing, hm⟩, hrest⟩, hrows⟩
  · have hvisible := (records_ok ho hpos (.lists hne hwidth hscalar)).1 _ mem_cons_self
    have hseen : seen (((v :: vs) :: rows).map fun r => r.map (fieldOf o width)) = _ :=
      seen_kept hbom hvisible.2.1
    rw [hseen]
    refine (rows_iff ho hmissing hnumbers hscalar).trans ⟨fun h ↦ ⟨h, cellKept_of_not_bom hbom⟩, And.left⟩

/-! ## Tables of maps -/

/-- The entries of a row that is read, by the columns of the table. -/
def readEntries (V : Conversion) (o : EncodeOpts) (p : ParseOpts) (width : Nat) (hs : List Text)
    (m : SynMap) : SynMap :=
  hs.map fun h => (h, fieldValue V p (fieldOf o width (valueAt m h)))

theorem entries_iff (ho : o.Checked) (hmissing : p.missing = o.missing.toList)
    (hnumbers : p.numbers = false) (hnodup : (m.map Prod.fst).Nodup)
    (hperm : (m.map Prod.fst).Perm hs) (hscalar : ∀ e ∈ m, IsScalar e.2) :
    (readEntries V o p width hs m).Perm (m.map fun e => (e.1, readBack o width e.2)) ↔
      ∀ e ∈ m, MarkFree o e.2 := by
  constructor
  · intro h e he t ht hm
    -- the entry is read as nothing
    have hmem : (e.1, SynValue.nothing) ∈ readEntries V o p width hs m := by
      refine mem_map.mpr ⟨e.1, hperm.mem_iff.mp (mem_map_of_mem he), ?_⟩
      rw [valueAt_of_mem hnodup he, fieldValue_mark ho hmissing hnumbers ht hm]
    obtain ⟨e', he', heq⟩ := mem_map.mp (h.mem_iff.mp hmem)
    obtain ⟨hkey, hvalue⟩ := Prod.mk.inj heq
    have hsame : e' = e := inj_on_of_nodup_map hnodup he' he hkey
    rw [hsame, readBack_printed ht] at hvalue
    cases hvalue
  · intro hfree
    have hread : ∀ h ∈ m.map Prod.fst, (h, fieldValue V p (fieldOf o width (valueAt m h))) =
        (h, readBack o width (valueAt m h)) := by
      intro h hh
      have hmem := valueAt_mem hh
      rw [fieldValue_fieldOf ho hmissing hnumbers (hscalar _ hmem) (hfree _ hmem)]
    have hrow : m.map (fun e => (e.1, readBack o width e.2)) =
        (m.map Prod.fst).map fun h => (h, readBack o width (valueAt m h)) := by
      rw [map_map]
      refine map_congr_left fun e he => ?_
      show _ = (e.1, readBack o width (valueAt m e.1))
      rw [valueAt_of_mem hnodup he]
    rw [hrow, ← map_congr_left hread]
    exact (hperm.symm).map _

theorem not_perm_tail {h : Text} {m' : SynMap} (hperm : (m.map Prod.fst).Perm (h :: hs))
    (hkeys : m'.map Prod.fst = h.tail :: hs) (hhead : h.head? = some bom) :
    ¬ m'.Perm (m.map fun e => (e.1, readBack o width e.2)) := by
  intro h'
  have hkeys' := h'.map Prod.fst
  rw [map_map, hkeys] at hkeys'
  have hlength := ((hkeys'.trans hperm).map List.length).sum_nat
  obtain ⟨u, rfl⟩ := head?_eq_some_iff.mp hhead
  simp at hlength

theorem readRecords_cons (hheaders : p.headers) (header : List Field) (body : List (List Field)) :
    readRecords V p (header :: body) =
      match duplicate [] (header.map Field.text) with
      | some h => .error (.duplicateHeader h)
      | none => .ok (.list (body.map fun fs =>
          .map (((header.map Field.text).zip fs).map fun hf => (hf.1, fieldValue V p hf.2)))) := by
  unfold readRecords
  exact if_pos hheaders

theorem zip_map_fst (hs : List Text) (f : Text → Field) (g : Field → SynValue) :
    ((hs.zip (hs.map f)).map fun hf => (hf.1, g hf.2)) = hs.map fun h => (h, g (f h)) := by
  induction hs with
  | nil => rfl
  | cons h hs ih => rw [map_cons, zip_cons_cons, map_cons, ih, map_cons]

theorem maps_iff (ho : o.Checked) (hheaders : p.headers)
    (hmissing : p.missing = o.missing.toList) (hnumbers : p.numbers = false) (hpos : 0 < width)
    {rows : List SynMap} (ht : (Table.maps rows).Valid width) :
    (∃ out, readRecords V p (seen ((Table.maps rows).records o width)) = .ok (.list out) ∧
        Forall₂ (SameRow o width) (rows.map .map) out) ↔
      (∀ m ∈ rows, ∀ e ∈ m, MarkFree o e.2) ∧ FirstKept o width (.maps rows) := by
  have hrecords := records_ok ho hpos ht
  obtain ⟨hne, hwidth, hnodup, hcolumns, hscalar⟩ : rows ≠ [] ∧ (∀ m ∈ rows, m.length = width) ∧
      (∀ m ∈ rows, (m.map Prod.fst).Nodup) ∧
      (∀ m ∈ rows, (m.map Prod.fst).Perm (columns rows)) ∧ ∀ m ∈ rows, ∀ e ∈ m, IsScalar e.2 := by
    cases ht with
    | maps h₁ h₂ h₃ h₄ h₅ => exact ⟨h₁, h₂, h₃, h₄, h₅⟩
  have hcolumnsNodup : (columns rows).Nodup := by
    obtain ⟨m, rows, rfl⟩ := exists_cons_of_ne_nil hne
    exact hnodup m mem_cons_self
  obtain ⟨h, hs, hcols⟩ : ∃ h hs, columns rows = h :: hs := by
    obtain ⟨m, rows, rfl⟩ := exists_cons_of_ne_nil hne
    have hm := hwidth m mem_cons_self
    cases m with
    | nil => exact absurd hm (Nat.ne_of_lt hpos)
    | cons e m => exact ⟨_, _, rfl⟩
  have hfirst : FirstKept o width (.maps rows) ↔ TextKept o h := by
    show (∀ g ∈ (columns rows).head?, TextKept o g) ↔ _
    rw [hcols]
    exact ⟨fun hall => hall h rfl, fun hh g hg => by cases hg; exact hh⟩
  rw [hfirst]
  have hheader : (Table.maps rows).records o width =
      (headerField o width h :: hs.map (headerField o width)) ::
        rows.map fun m => (h :: hs).map fun g => fieldOf o width (valueAt m g) := by
    rw [Table.records, hcols, map_cons]
  have htexts : (headerField o width h :: hs.map (headerField o width)).map Field.text =
      h :: hs := by
    rw [map_cons, map_map]
    exact congrArg (List.cons h) (map_id hs)
  rw [hheader] at hrecords ⊢
  by_cases hbom : StartsWithBom (headerField o width h)
  · refine ⟨?_, fun hkept => ?_⟩
    · rintro ⟨out, hread, hsame⟩
      rw [seen_bom hbom] at hread
      obtain ⟨m, rows, rfl⟩ := exists_cons_of_ne_nil hne
      split_ifs at hread with hdropped
      · -- the first row is taken for the header
        rw [map_cons, readRecords_cons hheaders] at hread
        split at hread
        · cases hread
        · cases hread
          have hlength := hsame.length_eq
          simp at hlength
      · rw [readRecords_cons hheaders] at hread
        split at hread
        · cases hread
        · cases hread
          obtain ⟨hrow, -⟩ := forall₂_cons.mp hsame
          cases hrow with
          | map hperm =>
            refine (not_perm_tail (hcols ▸ hcolumns m mem_cons_self) ?_ hbom.2 hperm).elim
            rw [map_map]
            show ((_ : List Text).zip _).map Prod.fst = _
            rw [map_fst_zip]
            · rw [map_cons, map_map]
              exact congrArg (List.cons _) (map_id hs)
            · simp
    · rcases hkept.2 hbom.2 with hm | hq
      · have hquoted := hbom.1
        simp only [headerField, Bool.or_eq_false_iff, beq_eq_false_iff_ne] at hquoted
        exact (hquoted.1.2 hm).elim
      · have hquoted := hbom.1
        simp only [headerField, Bool.or_eq_false_iff] at hquoted
        rw [hquoted.2] at hq
        cases hq
  · have hkept : TextKept o h := by
      intro hhead
      have hquoted : (headerField o width h).quoted := by
        by_contra hq
        exact hbom ⟨Bool.of_not_eq_true hq, hhead⟩
      obtain ⟨u, rfl⟩ := head?_eq_some_iff.mp hhead
      simpa [headerField] using hquoted
    have hdup : duplicate [] (h :: hs) = none :=
      duplicate_eq_none.mpr ⟨hcols ▸ hcolumnsNodup, fun _ _ => not_mem_nil⟩
    have hrows : (rows.map fun m => (h :: hs).map fun g => fieldOf o width (valueAt m g)).map
        (fun fs => SynValue.map (((h :: hs).zip fs).map fun hf => (hf.1, fieldValue V p hf.2))) =
        rows.map fun m => .map (readEntries V o p width (h :: hs) m) := by
      rw [map_map]
      refine map_congr_left fun m _ => congrArg SynValue.map ?_
      exact zip_map_fst (h :: hs) (fun g => fieldOf o width (valueAt m g)) (fieldValue V p)
    have hentries : ∀ m ∈ rows,
        (SameRow o width (.map m) (.map (readEntries V o p width (h :: hs) m)) ↔
          ∀ e ∈ m, MarkFree o e.2) := by
      intro m hm
      have hentries : (readEntries V o p width (h :: hs) m).Perm _ ↔ _ :=
        entries_iff ho hmissing hnumbers (hnodup m hm) (hcols ▸ hcolumns m hm) (hscalar m hm)
      rw [← hentries]
      refine ⟨?_, .map⟩
      rintro ⟨h⟩
      assumption
    rw [seen_kept hbom (hrecords.1 _ mem_cons_self).2.1, readRecords_cons hheaders, htexts, hdup]
    simp only [hrows]
    constructor
    · rintro ⟨out, hout, hsame⟩
      cases hout
      rw [forall₂_map_left_iff, forall₂_map_right_iff, forall₂_same] at hsame
      exact ⟨fun m hm => (hentries m hm).mp (hsame m hm), hkept⟩
    · rintro ⟨hfree, -⟩
      refine ⟨_, rfl, ?_⟩
      rw [forall₂_map_left_iff, forall₂_map_right_iff, forall₂_same]
      exact fun m hm => (hentries m hm).mpr (hfree m hm)

/-! ## The round trip -/

theorem roundTrips_iff_seen {encoding parsing : SynValue} (hpos : 0 < width)
    (ht : table.Valid width) (hencoding : encodeOpts encoding = .ok o) (hheaders : o.headers = none)
    (hescape : o.escapeFormulas = false) (hparsing : parseOpts parsing = .ok p)
    (hmatches : Matches o p table) :
    RoundTrips o width V table encoding parsing ↔
      ∃ out, readRecords V p (seen (table.records o width)) = .ok (.list out) ∧
        Forall₂ (SameRow o width) table.rows out := by
  have ho := encodeOpts_checked hencoding
  have hrecords := records_ok ho hpos ht
  have hwritten : csvEncode (.list table.rows) encoding =
      .ok (.text (textOf o (table.records o width))) := by
    show (encodeOpts encoding).bind _ = _
    rw [hencoding]
    show (encodeRows o table.rows).map SynValue.text = _
    rw [encodeRows_eq hescape hheaders ht]
    rfl
  have hread : csvParse V (.text (textOf o (table.records o width))) parsing =
      readRecords V p (seen (table.records o width)) := by
    show (parseOpts parsing).bind _ = _
    rw [hparsing]
    exact parseText_textOf ho hmatches.delimiter hmatches.types hrecords.1 hrecords.2
  constructor
  · rintro ⟨t, out, hwrite, hparse, hsame⟩
    rw [hwritten] at hwrite
    cases hwrite
    exact ⟨out, hread ▸ hparse, hsame⟩
  · rintro ⟨out, hout, hsame⟩
    exact ⟨_, out, hwritten, hread.trans hout, hsame⟩

/-- A table of scalars is read as it was written, precisely when no number and no boolean prints
as the mark, and what is written first does not lose a mark of a byte order. -/
theorem csv_roundTrips_iff {table : Table} {encoding parsing : SynValue} (hpos : 0 < width)
    (ht : table.Valid width) (hencoding : encodeOpts encoding = .ok o) (hheaders : o.headers = none)
    (hescape : o.escapeFormulas = false) (hparsing : parseOpts parsing = .ok p)
    (hmatches : Matches o p table) :
    RoundTrips o width V table encoding parsing ↔
      (∀ v ∈ table.cells, MarkFree o v) ∧ FirstKept o width table := by
  have ho := encodeOpts_checked hencoding
  rw [roundTrips_iff_seen hpos ht hencoding hheaders hescape hparsing hmatches]
  cases table with
  | maps rows =>
    have hcells : (∀ v ∈ (Table.maps rows).cells, MarkFree o v) ↔
        ∀ m ∈ rows, ∀ e ∈ m, MarkFree o e.2 := by
      simp only [Table.cells, forall_mem_flatMap, forall_mem_map]
    rw [hcells]
    exact maps_iff ho hmatches.headers hmatches.missing hmatches.numbers hpos ht
  | lists rows =>
    have hcells : (∀ v ∈ (Table.lists rows).cells, MarkFree o v) ↔
        ∀ r ∈ rows, ∀ v ∈ r, MarkFree o v := by
      simp only [Table.cells, forall_mem_flatten]
    obtain ⟨hne, hwidth, hscalar⟩ : rows ≠ [] ∧ (∀ r ∈ rows, r.length = width) ∧
        ∀ r ∈ rows, ∀ v ∈ r, IsScalar v := by
      cases ht with
      | lists h₁ h₂ h₃ => exact ⟨h₁, h₂, h₃⟩
    have hfalse : p.headers = false := hmatches.headers
    rw [hcells, ← lists_iff (V := V) ho hmatches.missing hmatches.numbers hpos hne hwidth hscalar]
    have hlists : readRecords V p (seen ((Table.lists rows).records o width)) =
        .ok (.list ((seen (rows.map fun r => r.map (fieldOf o width))).map fun fs =>
          .list (fs.map (fieldValue V p)))) := by
      unfold readRecords
      rw [hfalse, if_neg Bool.false_ne_true]
      rfl
    have hrow : ∀ r r' : List SynValue,
        SameRow o width (.list r) (.list r') ↔ r.map (readBack o width) = r' := by
      intro r r'
      refine ⟨?_, fun h => h ▸ .list r⟩
      rintro ⟨⟩
      rfl
    have hsame : ∀ out : List (List SynValue),
        Forall₂ (SameRow o width) (rows.map .list) (out.map .list) ↔
          out = rows.map (List.map (readBack o width)) := by
      intro out
      rw [forall₂_map_left_iff, forall₂_map_right_iff]
      simp only [hrow]
      rw [← forall₂_map_left_iff, forall₂_eq_eq_eq, eq_comm]
    rw [hlists]
    constructor
    · rintro ⟨out, hout, hall⟩
      rw [← hsame, map_map]
      cases hout
      exact hall
    · intro h
      refine ⟨_, rfl, ?_⟩
      rw [← hsame, map_map] at h
      exact h

end Fields

/-! ## Two tables -/

/-- The number five. -/
def five : Number where
  text := ['5']
  ne_nil := by decide
  ascii := by decide

/-- A conversion that reads no number and no type. -/
def noConversion : Conversion where
  fieldAsNumber _ := none
  typedField _ _ _ column line := .error (.typedField line column)

/-- Options with a mark. -/
def markOptions (mark : Text) (headers : List (Text × SynValue)) : SynValue :=
  .map (("missing", .text mark) :: headers)

/-- A table of two maps is read as it was written. -/
theorem csv_roundTrips_maps :
    RoundTrips
      { escapeFormulas := false, delimiter := ',', eol := "\r\n", headers := none,
        missing := some "NA".toList }
      2 noConversion
      (.maps [[("a", .text "NA"), ("b", .nothing)],
        [("b", .number five), ("a", .text "x,\"y")]])
      (markOptions "NA" []) (markOptions "NA" []) := by
  refine (csv_roundTrips_iff
    (p := { missing := ["NA"], headers := true, numbers := false, types := none,
            delimiter := ',' }) (by decide) (.maps (by simp) ?_ ?_ ?_ ?_) rfl rfl rfl rfl
    ⟨rfl, rfl, rfl, rfl, rfl⟩).mpr ⟨?_, ?_⟩
  · decide
  · decide
  · intro m hm
    rcases mem_pair.mp hm with rfl | rfl
    · exact List.Perm.refl _
    · exact List.Perm.swap _ _ _
  · simp only [List.mem_cons, not_mem_nil, or_false, forall_eq_or_imp, forall_eq]
    exact ⟨⟨.text _, .nothing⟩, .number _, .text _⟩
  · intro v hv t ht
    simp only [Table.cells, flatMap_cons, flatMap_nil, map_cons, map_nil, append_nil, cons_append,
      nil_append, List.mem_cons, not_mem_nil, or_false] at hv
    rcases hv with rfl | rfl | rfl | rfl
    all_goals cases ht
    decide
  · rintro h ⟨⟩ hhead
    exact absurd hhead (by decide)

/-- A number that prints as the mark is read as nothing. -/
theorem number_as_mark : ¬ ∀ (V : Conversion) (o : EncodeOpts) (p : ParseOpts) (width : Nat)
    (table : Table) (encoding parsing : SynValue), 0 < width → table.Valid width →
    encodeOpts encoding = .ok o → o.headers = none → o.escapeFormulas = false →
    parseOpts parsing = .ok p → Matches o p table →
    RoundTrips o width V table encoding parsing := by
  intro h
  have ht : (Table.lists [[.number five]]).Valid 1 := by
    refine .lists (cons_ne_nil _ _) (by decide) ?_
    simp only [List.mem_cons, not_mem_nil, or_false, forall_eq]
    exact .number five
  have hround := h noConversion
    { escapeFormulas := false, delimiter := ',', eol := "\r\n", headers := none,
      missing := some ['5'] }
    { missing := [['5']], headers := false, numbers := false, types := none, delimiter := ',' } 1
    (.lists [[.number five]]) (markOptions ['5'] [])
    (markOptions ['5'] [("headers", .bool false)]) (by decide) ht rfl rfl rfl rfl
    ⟨rfl, rfl, rfl, rfl, rfl⟩
  obtain ⟨out, hread, hsame⟩ :=
    (roundTrips_iff_seen (by decide) ht rfl rfl rfl rfl ⟨rfl, rfl, rfl, rfl, rfl⟩).mp hround
  have hlost : readRecords noConversion
      { missing := [['5']], headers := false, numbers := false, types := none, delimiter := ',' }
      [[{ text := ['5'], quoted := false }]] = .ok (.list [.list [.nothing]]) := rfl
  cases hlost.symm.trans hread
  obtain ⟨hrow, -⟩ := forall₂_cons.mp hsame
  cases hrow

end Synsema.Csv
