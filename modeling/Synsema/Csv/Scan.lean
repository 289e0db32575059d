import Synsema.Csv.Model

/-!
# Written fields are read back

What the writer puts between delimiters is read as the field it was written for: its text, and
whether it stands in quotes.
-/

namespace Synsema.Csv

open Text List

/-! ## Writing fields -/

/-- A field as it is written. -/
def Field.write (f : Field) : Text :=
  if f.quoted then '"' :: (doubleQuotes f.text ++ ['"']) else f.text

/-- Does a character of a text make it need quotes? -/
def needsQuotes (delim : Char) (t : Text) : Bool := t.any fun c => c == delim || isSpecial c

/-- May the field be written as it is? -/
def Field.Fits (delim : Char) (f : Field) : Prop :=
  f.quoted = false → needsQuotes delim f.text = false

/-- A record as it is written. -/
def writeRecord (delim : Char) : List Field → Text
  | [] => []
  | f :: fs => f.write ++ fs.flatMap fun g => delim :: g.write

/-- Is the record seen, where it is written on a line of its own? -/
def Visible (fs : List Field) : Prop := fs ≠ [{ text := [], quoted := false }]

section Scan

variable {delim : Char} {line : Nat} {t rest : Text}

/-- Does a field end where the rest begins? -/
def Stops (delim : Char) (rest : Text) : Prop := ∀ c ∈ rest.head?, isEnd delim c = true

variable {c : Char} {fs : List Field}

theorem isEnd_iff : isEnd delim c ↔ c = delim ∨ c = '\n' ∨ c = '\r' := by
  simp only [isEnd, Bool.or_eq_true, beq_iff_eq, or_assoc]

theorem needsQuotes_eq_false : needsQuotes delim t = false ↔
    ∀ c ∈ t, isEnd delim c = false ∧ c ≠ '"' := by
  simp only [needsQuotes, any_eq_false, Bool.or_eq_true, isSpecial, beq_iff_eq, isEnd,
    Bool.or_eq_false_iff, beq_eq_false_iff_ne, not_or, ne_eq]
  refine forall₂_congr fun c _ => ?_
  tauto

theorem before_append (ht : ∀ c ∈ t, isEnd delim c = false) (hrest : Stops delim rest) :
    before (isEnd delim) (t ++ rest) = t ∧
      (t ++ rest).dropWhile (fun c => !isEnd delim c) = rest := by
  have hkeep : ∀ c ∈ t, (!isEnd delim c) := fun c hc => by rw [ht c hc]; rfl
  rw [before, takeWhile_append_of_pos hkeep, dropWhile_append_of_pos hkeep]
  cases rest with
  | nil => exact ⟨append_nil t, rfl⟩
  | cons c rest =>
    have hc : ¬ (!isEnd delim c) := by
      rw [hrest c rfl]
      exact Bool.false_ne_true
    rw [takeWhile_cons_of_neg (p := fun c => !isEnd delim c) hc,
      dropWhile_cons_of_neg (p := fun c => !isEnd delim c) hc]
    exact ⟨append_nil t, rfl⟩

theorem quotedBody_doubleQuotes (t : Text) (hrest : rest.head? ≠ some '"') (line : Nat) :
    ∃ line', quotedBody line (doubleQuotes t ++ '"' :: rest) = some (t, line', rest) := by
  induction t generalizing line with
  | nil =>
    refine ⟨line, ?_⟩
    show quotedBody line ('"' :: rest) = _
    rw [quotedBody]
    rintro r rfl
    exact hrest rfl
  | cons c t ih =>
    by_cases hc : c = '"'
    · subst hc
      obtain ⟨line', h⟩ := ih line
      refine ⟨line', ?_⟩
      show quotedBody line ('"' :: '"' :: (doubleQuotes t ++ '"' :: rest)) = _
      rw [quotedBody, h]
      rfl
    · have hcons : doubleQuotes (c :: t) ++ '"' :: rest =
          c :: (doubleQuotes t ++ '"' :: rest) := by
        rw [doubleQuotes, flatMap_cons, if_neg hc]
        rfl
      obtain ⟨line', h⟩ := ih (if eolAt (c :: (doubleQuotes t ++ '"' :: rest)) then line + 1
        else line)
      refine ⟨line', ?_⟩
      rw [hcons, quotedBody, h]
      · rfl
      · exact fun r h _ => hc h
      · exact hc

theorem scanField_write (hdelim : delim ≠ '"') {f : Field} (hf : f.Fits delim)
    (hrest : Stops delim rest) (line : Nat) :
    ∃ line', scanField delim line (f.write ++ rest) = .ok (f, line', rest) := by
  have hquote : rest.head? ≠ some '"' := by
    intro h
    rcases isEnd_iff.mp (hrest '"' h) with h | h | h
    · exact hdelim h.symm
    · cases h
    · cases h
  obtain ⟨t, quoted⟩ := f
  cases quoted with
  | true =>
    obtain ⟨line', h⟩ := quotedBody_doubleQuotes t hquote line
    obtain ⟨hbefore, hafter⟩ := before_append (t := []) (fun _ h => absurd h not_mem_nil) hrest
    refine ⟨line', ?_⟩
    have hwrite : Field.write { text := t, quoted := true } ++ rest =
        '"' :: (doubleQuotes t ++ '"' :: rest) := by
      rw [Field.write, if_pos rfl, cons_append, append_assoc]
      rfl
    rw [nil_append] at hbefore hafter
    rw [hwrite, scanField, h]
    simp only [hbefore, hafter, append_nil]
  | false =>
    have hplain := needsQuotes_eq_false.mp (hf rfl)
    obtain ⟨hbefore, hafter⟩ := before_append (fun c hc => (hplain c hc).1) hrest
    refine ⟨line, ?_⟩
    have hwrite : Field.write { text := t, quoted := false } ++ rest = t ++ rest := rfl
    rw [hwrite, scanField]
    · rw [hbefore, hafter]
    · rintro r hr
      cases t with
      | nil => exact hquote (by rw [← nil_append rest, hr]; rfl)
      | cons c t => exact (hplain c mem_cons_self).2 (cons.inj hr).1

theorem scanRecord_write (hdelim : isSpecial delim = false) (hne : fs ≠ [])
    (hfs : ∀ f ∈ fs, f.Fits delim) (hc : c = '\n' ∨ c = '\r') (line : Nat) :
    ∃ line', scanRecord delim line (writeRecord delim fs ++ c :: rest) =
      .ok (fs, line', c :: rest) := by
  have hdelim' : delim ≠ '"' ∧ delim ≠ '\r' ∧ delim ≠ '\n' := by
    simpa [isSpecial, and_assoc] using hdelim
  have hcd : c ≠ delim := by
    rcases hc with rfl | rfl
    · exact hdelim'.2.2.symm
    · exact hdelim'.2.1.symm
  induction fs generalizing line with
  | nil => exact (hne rfl).elim
  | cons f fs ih =>
    have hf := hfs f mem_cons_self
    cases fs with
    | nil =>
      have hstops : Stops delim (c :: rest) := by
        rintro d ⟨⟩
        exact isEnd_iff.mpr (Or.inr hc)
      obtain ⟨line', h⟩ := scanField_write hdelim'.1 hf hstops line
      refine ⟨line', ?_⟩
      rw [writeRecord, flatMap_nil, append_nil]
      exact scanRecord_last h fun h => hcd (Option.some.inj h)
    | cons g fs =>
      have hstops : Stops delim (delim :: (writeRecord delim (g :: fs) ++ c :: rest)) := by
        rintro d ⟨⟩
        exact isEnd_iff.mpr (Or.inl rfl)
      obtain ⟨line₁, h⟩ := scanField_write hdelim'.1 hf hstops line
      obtain ⟨line', h'⟩ := ih (cons_ne_nil _ _)
        (fun f hf => hfs f (mem_cons_of_mem _ hf)) line₁
      refine ⟨line', ?_⟩
      have hwrite : writeRecord delim (f :: g :: fs) ++ c :: rest =
          f.write ++ delim :: (writeRecord delim (g :: fs) ++ c :: rest) := by
        simp only [writeRecord, flatMap_cons, append_assoc, cons_append]
      rw [hwrite, scanRecord_next h rfl, h']
      rfl

/-! ## Lines -/

/-- What stands between two records. -/
def IsEol (eol : Text) : Prop := eol = "\r\n" ∨ eol = "\n"

variable {eol : Text}

theorem IsEol.eq_cons (h : IsEol eol) : ∃ c t, eol = c :: t ∧ (c = '\n' ∨ c = '\r') := by
  rcases h with rfl | rfl
  · exact ⟨'\r', ['\n'], rfl, Or.inr rfl⟩
  · exact ⟨'\n', [], rfl, Or.inl rfl⟩

theorem IsEol.skip (h : IsEol eol) (rest : Text) : skipEol (eol ++ rest) = rest := by
  rcases h with rfl | rfl
  · rfl
  · rfl

theorem scan_blank (h : IsEol eol) (line : Nat) (rest : Text) :
    scan delim line (eol ++ rest) = scan delim (line + 1) rest := by
  obtain ⟨c, t, heq, hc⟩ := h.eq_cons
  have hskip := h.skip rest
  rw [heq, cons_append] at hskip ⊢
  rw [scan, if_pos hc, hskip]

theorem scan_record {line line' : Nat} {d : Char} {after : Text} (hc : ¬ (c = '\n' ∨ c = '\r'))
    (h : scanRecord delim line (c :: t) = .ok (fs, line', d :: after)) :
    scan delim line (c :: t) =
      (scan delim (line' + 1) (skipEol (d :: after))).map fun rs => (line, fs) :: rs := by
  rw [scan, if_neg hc]
  split
  · rename_i h'
    rw [h] at h'
    cases h'
  · rename_i r h'
    rw [h] at h'
    cases h'
    rfl

theorem writeRecord_head (hdelim : isSpecial delim = false) (hne : fs ≠ [])
    (hfs : ∀ f ∈ fs, f.Fits delim) (hvisible : Visible fs) :
    ∃ c t, writeRecord delim fs = c :: t ∧ ¬ (c = '\n' ∨ c = '\r') := by
  have hdelim' : delim ≠ '"' ∧ delim ≠ '\r' ∧ delim ≠ '\n' := by
    simpa [isSpecial, and_assoc] using hdelim
  obtain ⟨f, fs, rfl⟩ := exists_cons_of_ne_nil hne
  obtain ⟨t, quoted⟩ := f
  cases quoted with
  | true => exact ⟨'"', _, rfl, by decide⟩
  | false =>
    cases t with
    | cons c t =>
      have hplain := needsQuotes_eq_false.mp (hfs _ mem_cons_self rfl) c mem_cons_self
      refine ⟨c, _, rfl, fun hc => ?_⟩
      rw [isEnd_iff.mpr (Or.inr hc)] at hplain
      cases hplain.1
    | nil =>
      cases fs with
      | nil => exact (hvisible rfl).elim
      | cons g fs => exact ⟨delim, _, rfl, not_or.mpr ⟨hdelim'.2.2, hdelim'.2.1⟩⟩

theorem scan_write (hdelim : isSpecial delim = false) (heol : IsEol eol)
    {records : List (List Field)}
    (hrecords : ∀ fs ∈ records, fs ≠ [] ∧ Visible fs ∧ ∀ f ∈ fs, f.Fits delim) (line : Nat) :
    ∃ rs, scan delim line (records.flatMap fun fs => writeRecord delim fs ++ eol) = .ok rs ∧
      rs.map Prod.snd = records := by
  induction records generalizing line with
  | nil => exact ⟨[], by rw [flatMap_nil, scan], rfl⟩
  | cons fs records ih =>
    obtain ⟨⟨hne, hvisible, hfs⟩, hrest⟩ := forall_mem_cons.mp hrecords
    obtain ⟨c, t, hwrite, hc⟩ := writeRecord_head hdelim hne hfs hvisible
    obtain ⟨d, e, heq, hd⟩ := heol.eq_cons
    obtain ⟨line', hread⟩ : ∃ line', scanRecord delim line (writeRecord delim fs ++ d ::
        (e ++ records.flatMap fun fs => writeRecord delim fs ++ eol)) = .ok (fs, line', _) :=
      scanRecord_write hdelim hne hfs hd line
    obtain ⟨rs, hrs, hsnd⟩ := ih hrest (line' + 1)
    have hcons : ∀ rest, eol ++ rest = d :: (e ++ rest) := fun rest => by rw [heq, cons_append]
    have hskip : ∀ rest, skipEol (d :: (e ++ rest)) = rest := fun rest => by
      rw [← hcons, heol.skip]
    have htext : (fs :: records).flatMap (fun fs => writeRecord delim fs ++ eol) =
        writeRecord delim fs ++
          d :: (e ++ records.flatMap fun fs => writeRecord delim fs ++ eol) := by
      rw [flatMap_cons, append_assoc, hcons]
    refine ⟨(line, fs) :: rs, ?_, by rw [map_cons, hsnd]⟩
    rw [hwrite, cons_append] at hread
    rw [htext, hwrite, cons_append, scan_record hc hread, hskip, hrs]
    rfl

end Scan

end Synsema.Csv
