import Synsema.Temporal.Printed

/-!
# What is printed is read

The datetimes that are read from their texts as they were.  A text of UTC ends in `Z`, which only RFC
3339 reads, and RFC 3339 has four digits for a year; the other texts end in an offset, and these are read
by the code where RFC 3339 does not.  A leap second shows as second 60, so it has to end a minute where
it is shown.
-/

namespace Synsema.Temporal

open Text Gregorian List Option

/-! ## What the code relies on -/

/-- The year of a wall clock time. -/
def Stamp.year (s : Stamp) : Int := (dateOf s.secs).year

/-- The years of RFC 3339. -/
def Stamp.FourDigits (s : Stamp) : Prop := 0 ≤ s.year ∧ s.year ≤ 9999

/-- A leap second ends a minute. -/
def Stamp.LeapAtEnd (s : Stamp) : Prop := s.frac < nanos ∨ s.secs % 60 = 59

instance (s : Stamp) : Decidable s.FourDigits := inferInstanceAs (Decidable (_ ∧ _))

instance (s : Stamp) : Decidable s.LeapAtEnd := inferInstanceAs (Decidable (_ ∨ _))

/-- What chrono documents of its readers. -/
structure Chrono.Lawful (c : Chrono) : Prop where
  /-- RFC 3339 reads what it writes. -/
  rfc3339_reads : ∀ (s : Naive) (off : FixedOffset) (useZ : Bool), off.1 % 60 = 0 →
    (s.1.shift off.1).FourDigits → (s.1.shift off.1).LeapAtEnd →
    c.parseRfc3339 (rfc3339 (s.1.shift off.1) off.1 useZ) = some (s, off)
  /-- RFC 3339 reads no other years, and a leap second only as second 60. -/
  rfc3339_local : ∀ t s off, c.parseRfc3339 t = some (s, off) →
    (s.1.shift off.1).FourDigits ∧ (s.1.shift off.1).LeapAtEnd
  /-- A year of RFC 3339 has no sign. -/
  rfc3339_head : ∀ t r, c.parseRfc3339 t = some r → ∀ x ∈ t.head?, x.isDigit = true
  /-- RFC 3339 ends in `Z` or in hours and minutes. -/
  rfc3339_zone : ∀ t r, c.parseRfc3339 t = some r →
    (∃ x ∈ t.getLast?, x = 'Z' ∨ x = 'z') ∨
      ∃ front sign hm, t = front ++ sign :: hm ∧ hm.length = 5 ∧ sign ∈ ['+', '-', '−']
  /-- `%Y-%m-%dT%H:%M:%S%.f` reads what it writes. -/
  naive_reads : ∀ s : Naive, s.1.LeapAtEnd →
    c.parseNaive "%Y-%m-%dT%H:%M:%S%.f" (naiveText s.1) = some s
  /-- `%S` has a leap second as second 60. -/
  naive_leap : ∀ f t s, c.parseNaive f t = some s → s.1.LeapAtEnd
  /-- The formats of the code end in digits. -/
  naive_last : ∀ f t s, f ∈ offsetFormats → c.parseNaive f t = some s →
    ∀ x ∈ t.getLast?, x.isDigit = true
  /-- `%Y-%m-%d` reads what it writes. -/
  date_reads : ∀ d : NaiveDate, c.parseDate (dateText d.1) = some d
  /-- `%Y-%m-%d` has no time of day. -/
  date_chars : ∀ t d, c.parseDate t = some d → 'T' ∉ t

/-- What `chrono_tz` documents of its zones. -/
structure TzDb.Lawful (db : TzDb) : Prop where
  parse_name : ∀ z, db.parse (db.name z) = some z
  utc_offset : ∀ t, (db.rules db.utc).offset t = 0
  utc_name : ∀ z, eqIgnoreAsciiCase (db.name z) "utc" = true ∨
    eqIgnoreAsciiCase (db.name z) "z" = true → z = db.utc
  offset_lt : ∀ z t, -daySecs < (db.rules z).offset t ∧ (db.rules z).offset t < daySecs
  name_head : ∀ z, ∀ x ∈ (db.name z).head?, x ≠ '+' ∧ x ≠ '-'
  name_chars : ∀ z, '[' ∉ db.name z

/-! ## Characters -/

/-- The characters of a datetime, without a zone. -/
def isStampChar (c : Char) : Bool := isDateChar c || isTimeChar c || c = 'T'

theorem isStampChar_ne {c x : Char} (h : isStampChar c) (hx : isStampChar x = false) : c ≠ x := by
  rintro rfl
  exact Bool.false_ne_true (hx.symm.trans h)

theorem not_isWhitespace {c : Char} (h : isStampChar c) : isWhitespace c = false := by
  by_contra hblank
  rw [Bool.not_eq_false] at hblank
  simp only [isStampChar, isDateChar, isTimeChar, Bool.or_eq_true, decide_eq_true_eq] at h
  have hne (x : Char) (hx : isWhitespace x = false) : c ≠ x := by
    rintro rfl
    exact Bool.false_ne_true (hx.symm.trans hblank)
  have hdigit : ¬c.isDigit := by
    rw [Char.isDigit_iff_toNat]
    rintro ⟨hlow, hhigh⟩
    simp only [isWhitespace, Bool.or_eq_true, decide_eq_true_eq, Bool.and_eq_true, List.mem_cons,
      not_mem_nil, or_false] at hblank
    have h₀ : '0'.toNat = 48 := rfl
    have h₉ : '9'.toNat = 57 := rfl
    omega
  rcases h with (((h | h) | h) | (h | h) | h) | h
  · exact hdigit h
  · exact hne '-' rfl h
  · exact hne '+' rfl h
  · exact hdigit h
  · exact hne ':' rfl h
  · exact hne '.' rfl h
  · exact hne 'T' rfl h

theorem isStampChar_of_date {c : Char} (h : isDateChar c) : isStampChar c = true := by
  rw [isStampChar, h, Bool.true_or, Bool.true_or]

theorem isStampChar_of_time {c : Char} (h : isTimeChar c) : isStampChar c = true := by
  rw [isStampChar, h, Bool.or_true, Bool.true_or]

theorem secOfDay_lt (secs : Int) : secOfDay secs < daySecs := by
  rw [secOfDay, daySecs]
  omega

variable {s : Stamp}

theorem isStampChar_naiveText (hs : s.frac < 2 * nanos) :
    ∀ c ∈ naiveText s, isStampChar c = true := by
  intro c hc
  rw [naiveText, mem_append, List.mem_cons] at hc
  rcases hc with hc | rfl | hc
  · exact isStampChar_of_date (isDateChar_of_mem _ c hc)
  · rfl
  · exact isStampChar_of_time (isTimeChar_of_mem (secOfDay_lt _) hs c hc)

theorem isStampChar_offsetText (off : FixedOffset) : ∀ c ∈ offsetText off.1, isStampChar c = true := by
  obtain ⟨sign, tail, htext, hsign, htail⟩ := offsetText_cases off
  rw [htext]
  intro c hc
  rcases List.mem_cons.mp hc with rfl | hc
  · rcases hsign with rfl | rfl <;> rfl
  · exact isStampChar_of_time (htail c hc)

/-- A text of a datetime and an offset. -/
abbrev stampText (s : Stamp) (off : Int) : Text := naiveText s ++ offsetText off

theorem isStampChar_stampText (hs : s.frac < 2 * nanos) (off : FixedOffset) :
    ∀ c ∈ stampText s off.1, isStampChar c = true := fun c hc =>
  (mem_append.mp hc).elim (isStampChar_naiveText hs c) (isStampChar_offsetText off c)

theorem trim_stamp (hs : s.frac < 2 * nanos) {t : Text}
    (ht : ∀ c ∈ (naiveText s ++ t).getLast?, isWhitespace c = false) :
    trim (naiveText s ++ t) = naiveText s ++ t := by
  refine trim_eq_self (fun c hc => not_isWhitespace (isStampChar_naiveText hs c ?_)) ht
  have hne : naiveText s ≠ [] := append_ne_nil_of_right_ne_nil _ (cons_ne_nil _ _)
  rw [head?_append_of_ne_nil _ hne] at hc
  exact mem_of_mem_head? hc

/-! ## A datetime with an offset -/

theorem Stamp.FourDigits.inRange (h : s.FourDigits) (hs : s.frac < 2 * nanos) : s.InRange := by
  obtain ⟨hlow, hhigh⟩ := h
  obtain ⟨hstart, hend⟩ := yearOf_spec (s.secs / daySecs)
  rw [show yearOf (s.secs / daySecs) = s.year from rfl] at hstart hend
  have hmin : yearStart minYear ≤ yearStart s.year :=
    yearStart_strictMono.monotone ((show minYear ≤ 0 by decide).trans hlow)
  have hmax : yearStart (s.year + 1) ≤ yearStart (maxYear + 1) :=
    yearStart_strictMono.monotone (Int.add_le_add_right (hhigh.trans (by decide)) 1)
  refine ⟨?_, hs⟩
  have h := inRange_of_year ⟨hmin.trans hstart, hend.trans_le hmax⟩
    ⟨Int.emod_nonneg s.secs (by decide), Int.emod_lt_of_pos s.secs (b := daySecs) (by decide)⟩
  rwa [Int.mul_comm, Int.mul_ediv_add_emod] at h

theorem cutAtFirst_naiveText (s : Stamp) (t : Text) :
    cutAtFirst (fun c => c = 'T' || c = 't' || c = ' ') (naiveText s ++ t) =
      some (dateText (dateOf s.secs), 'T' :: (timeText (secOfDay s.secs) s.frac ++ t)) := by
  rw [naiveText, append_assoc]
  refine cutAtFirst_append (fun x hx => ?_) rfl _
  have hx := isDateChar_of_mem _ x hx
  have hne (y : Char) (hy : isDateChar y = false) : x ≠ y := by
    rintro rfl
    exact Bool.false_ne_true (hy.symm.trans hx)
  simp [hne 'T' rfl, hne 't' rfl, hne ' ' rfl]

section Offset

variable {c : Chrono}

variable {off : FixedOffset} {instant : Naive}

theorem rfc3339_seconds (hc : c.Lawful) (hs : s.frac < 2 * nanos) (hoff : off.1 % 60 ≠ 0) :
    c.parseRfc3339 (stampText s off.1) = none := by
  refine eq_none_iff_forall_ne_some.mpr fun r hr => ?_
  rcases hc.rfc3339_zone _ _ hr with ⟨x, hx, hz⟩ | ⟨front, sign, hm, htext, hlength, hsign⟩
  · have h := isStampChar_stampText hs off x (mem_of_mem_getLast? hx)
    rcases hz with rfl | rfl
    · exact isStampChar_ne h rfl rfl
    · exact isStampChar_ne h rfl rfl
  · have habs : ¬off.1.natAbs % 60 = 0 := by omega
    rw [stampText, offsetText, if_neg habs] at htext
    generalize (if off.1 < 0 then '-' else '+') = x at htext
    have hsplit : naiveText s ++ x :: (pad2 (off.1.natAbs / 3600) ++ ':' ::
        (pad2 (off.1.natAbs / 60 % 60)) ++ ':' :: pad2 (off.1.natAbs % 60)) =
        (naiveText s ++ x :: pad2 (off.1.natAbs / 3600)) ++ (':' ::
          (pad2 (off.1.natAbs / 60 % 60) ++ ':' :: pad2 (off.1.natAbs % 60))) := by simp
    rw [hsplit] at htext
    obtain ⟨-, hsign'⟩ := append_inj' htext (by simp [hlength, pad2])
    rw [← (cons.inj hsign').1] at hsign
    exact absurd hsign (by decide)

theorem rfc3339_year (hc : c.Lawful) (hs : ¬s.FourDigits) (t : Text) :
    c.parseRfc3339 (naiveText s ++ t) = none := by
  refine eq_none_iff_forall_ne_some.mpr fun r hr => ?_
  have h := hc.rfc3339_head _ _ hr
  rw [naiveText, dateText, yearText, if_neg (show ¬(0 ≤ (dateOf s.secs).year ∧ (dateOf s.secs).year ≤ 9999) from hs)] at h
  have h := h _ rfl
  split at h
  · exact absurd h (by decide)
  · exact absurd h (by decide)

theorem parseWithOffset_fallback (hc : c.Lawful) (hlocal : (instant.1.shift off.1).InRange)
    (hleap : (instant.1.shift off.1).LeapAtEnd)
    (hnone : c.parseRfc3339 (stampText (instant.1.shift off.1) off.1) = none) :
    parseWithOffset c (stampText (instant.1.shift off.1) off.1) = some (instant, off) := by
  obtain ⟨sign, tail, htext, hsign, htail⟩ := offsetText_cases off
  generalize hs : instant.1.shift off.1 = s at *
  have hlast : cutAtLast (fun c => c = '+' || c = '-')
      ('T' :: (timeText (secOfDay s.secs) s.frac ++ offsetText off.1)) =
      some ('T' :: timeText (secOfDay s.secs) s.frac, offsetText off.1) := by
    rw [htext, ← cons_append]
    refine cutAtLast_append _ ?_ fun x hx => ?_
    · rcases hsign with rfl | rfl <;> rfl
    · have hx := htail x hx
      have hne (y : Char) (hy : isTimeChar y = false) : x ≠ y := by
        rintro rfl
        exact Bool.false_ne_true (hy.symm.trans hx)
      simp [hne '+' rfl, hne '-' rfl]
  have hnaive : (offsetFormats.findSome? fun f => c.parseNaive f
      (dateText (dateOf s.secs) ++ 'T' :: timeText (secOfDay s.secs) s.frac)) = some ⟨s, hlocal⟩ := by
    have h := hc.naive_reads ⟨s, hlocal⟩ hleap
    rw [show offsetFormats = "%Y-%m-%dT%H:%M:%S%.f".toList :: offsetFormats.tail from rfl,
      findSome?_cons, ← naiveText, h]
  have heast : eastOpt off.1 = some off := dif_pos off.2
  have hback : Naive.checkedShift ⟨s, hlocal⟩ (-off.1) = some instant :=
    Naive.checkedShift_eq_some.mpr (hs ▸ (Stamp.shift_neg _ _).symm)
  rw [parseWithOffset, hnone]
  simp only [stampText, cutAtFirst_naiveText, hlast, bind_eq_bind, bind_some,
    parseOffset_offsetText, heast, hnaive, hback]
  rfl

theorem parseWithOffset_printed (hc : c.Lawful) (hlocal : (instant.1.shift off.1).InRange)
    (hleap : (instant.1.shift off.1).LeapAtEnd) :
    parseWithOffset c (stampText (instant.1.shift off.1) off.1) = some (instant, off) := by
  by_cases hoff : off.1 % 60 = 0
  · by_cases hyear : (instant.1.shift off.1).FourDigits
    · have h := hc.rfc3339_reads instant off false hoff hyear hleap
      rw [show rfc3339 (instant.1.shift off.1) off.1 false = stampText (instant.1.shift off.1) off.1
        from rfl] at h
      rw [parseWithOffset, h]
    · exact parseWithOffset_fallback hc hlocal hleap (rfc3339_year hc hyear _)
  · exact parseWithOffset_fallback hc hlocal hleap (rfc3339_seconds hc hlocal.2 hoff)

theorem parseWithOffset_local (hc : c.Lawful) {t : Text}
    (h : parseWithOffset c t = some (instant, off)) :
    (instant.1.shift off.1).InRange ∧ (instant.1.shift off.1).LeapAtEnd := by
  rw [parseWithOffset] at h
  cases hread : c.parseRfc3339 t with
  | some r =>
    simp only [hread, Option.some.injEq] at h
    subst h
    obtain ⟨hyear, hleap⟩ := hc.rfc3339_local _ _ _ hread
    exact ⟨hyear.inRange instant.2.2, hleap⟩
  | none =>
    simp only [hread, bind_eq_bind, bind_eq_some_iff] at h
    obtain ⟨⟨day, rest⟩, -, ⟨time, offset⟩, -, secs, -, off', -, naive, hnaive, instant', hback, hpair⟩ := h
    obtain ⟨rfl, rfl⟩ := Prod.mk.inj (Option.some.inj hpair)
    rw [Naive.checkedShift_eq_some.mp hback, Stamp.shift_of_neg]
    obtain ⟨f, -, hf⟩ := exists_of_findSome?_eq_some hnaive
    exact ⟨naive.2, hc.naive_leap _ _ _ hf⟩

end Offset

/-! ## A local time -/

section Local

variable {c : Chrono} {db : TzDb}

variable {who : Text} {z : Zone db}

theorem localToDt_shows {s : Naive} {t : DateTime db} (h : localToDt c z s who = .ok t) :
    t.zone = z ∧ t.localTime = s.1 := by
  rw [localToDt] at h
  cases hlocal : z.fromLocal s with
  | none =>
    rw [hlocal] at h
    cases h
  | single a =>
    rw [hlocal] at h
    obtain rfl := Except.ok.inj h
    exact ⟨rfl, Zone.shift_of_fromLocal (by rw [hlocal]; exact mem_singleton_self a)⟩
  | ambiguous a b =>
    rw [hlocal] at h
    obtain rfl := Except.ok.inj h
    exact ⟨rfl, Zone.shift_of_fromLocal (by rw [hlocal]; exact mem_cons_self ..)⟩

theorem parseLocal_shows (hc : c.Lawful) {t s : Text} (hs : 'T' ∈ s) {dt : DateTime db}
    (h : (parseLocal c s z who).getD (notIso c t who) = .ok dt) :
    dt.zone = z ∧ dt.localTime.InRange ∧ dt.localTime.LeapAtEnd := by
  have hdate : c.parseDate s = none :=
    eq_none_iff_forall_ne_some.mpr fun d hd => hc.date_chars _ _ hd hs
  rw [parseLocal, hdate] at h
  cases hread : localFormats.findSome? fun f => c.parseNaive f s with
  | none =>
    rw [hread] at h
    cases h
  | some naive =>
    rw [hread] at h
    obtain ⟨hzone, hlocal⟩ := localToDt_shows h
    obtain ⟨f, -, hf⟩ := exists_of_findSome?_eq_some hread
    rw [hlocal]
    exact ⟨hzone, naive.2, hc.naive_leap _ _ _ hf⟩

end Local

theorem T_mem_naiveText (s : Stamp) : 'T' ∈ naiveText s :=
  mem_append_right _ (mem_cons_self ..)

/-! ## Datetimes -/

section Display

variable {c : Chrono} {db : TzDb}

/-- The datetime is read from its text. -/
def RoundTrips (c : Chrono) (t : DateTime db) (who : Text) : Prop :=
  ∃ s, t.display = .ok s ∧ parseIsoDatetime c s none who = .ok t

theorem offset_ofOffset (hdb : db.Lawful) (off : FixedOffset) (s : Stamp) :
    (Zone.ofOffset off.1 : Zone db).offset s = off.1 := by
  rw [Zone.ofOffset]
  split
  · rfl
  · next h =>
      have hzero : off.1 = 0 := not_not.mp fun hne => h ⟨off.2, hne⟩
      rw [hzero]
      exact hdb.utc_offset _

variable {s : Text} {off : FixedOffset}

theorem parseIsoDatetime_unbracketed (htrim : trim s = s) (hs : '[' ∉ s) (who : Text) :
    (parseIsoDatetime c s none who : Except Fault (DateTime db)) =
      parseUnbracketed c s s none who := by
  have hcut : cutAtLast (· = '[') s = none :=
    cutAtLast_eq_none fun x hx => decide_eq_false fun h => hs (h ▸ hx)
  rw [parseIsoDatetime, htrim]
  simp only [hcut]

variable {t : DateTime db} {who : Text} {z : db.Zone}

theorem parseUnbracketed_shows (hc : c.Lawful) (hdb : db.Lawful) {instant : Naive}
    (hread : parseWithOffset c s = some (instant, off))
    (h : parseUnbracketed c s s none who = .ok t) :
    t.localTime = instant.1.shift off.1 ∧ t.localTime.InRange ∧ t.localTime.LeapAtEnd := by
  rw [parseUnbracketed, hread] at h
  obtain rfl := Except.ok.inj h
  have hlocal : (DateTime.mk instant (Zone.ofOffset off.1 : Zone db)).localTime =
      instant.1.shift off.1 := by
    rw [DateTime.localTime, DateTime.offset]
    exact congrArg _ (offset_ofOffset hdb off _)
  rw [show (none : Option (Zone db)).getD (Zone.ofOffset off.1) = Zone.ofOffset off.1 from rfl, hlocal]
  exact ⟨rfl, parseWithOffset_local hc hread⟩

/-! ### In UTC -/

theorem localTime_utc (hdb : db.Lawful) (hz : t.zone = .utc) :
    t.offset = 0 ∧ t.localTime = t.instant.1 := by
  have hoff : t.offset = 0 := by
    rw [DateTime.offset, hz]
    exact hdb.utc_offset _
  exact ⟨hoff, by rw [DateTime.localTime, hoff, Stamp.shift_zero]⟩

theorem display_utc (hdb : db.Lawful) (hz : t.zone = .utc) :
    t.display = .ok (naiveText t.localTime ++ ['Z']) := by
  rw [DateTime.display, if_pos hz, rfc3339, (localTime_utc hdb hz).1]
  rfl

theorem parseWithOffset_Z (s : Stamp) (hs : s.frac < 2 * nanos) :
    parseWithOffset c (naiveText s ++ ['Z']) = c.parseRfc3339 (naiveText s ++ ['Z']) := by
  rw [parseWithOffset]
  cases c.parseRfc3339 (naiveText s ++ ['Z']) with
  | some r => rfl
  | none =>
    have hcut : cutAtLast (fun c => c = '+' || c = '-')
        ('T' :: (timeText (secOfDay s.secs) s.frac ++ ['Z'])) = none := by
      refine cutAtLast_eq_none fun x hx => ?_
      rw [List.mem_cons, mem_append, mem_singleton] at hx
      rcases hx with rfl | hx | rfl
      · rfl
      · have hx := isTimeChar_of_mem (secOfDay_lt _) hs x hx
        have hne (y : Char) (hy : isTimeChar y = false) : x ≠ y := by
          rintro rfl
          exact Bool.false_ne_true (hy.symm.trans hx)
        simp [hne '+' rfl, hne '-' rfl]
      · rfl
    simp only [cutAtFirst_naiveText, bind_eq_bind, bind_some, hcut, bind_none]

theorem parseLocal_Z (hc : c.Lawful) (s : Stamp) (z : Zone db) (who : Text) :
    parseLocal c (naiveText s ++ ['Z']) z who = none := by
  have hdate : c.parseDate (naiveText s ++ ['Z']) = none :=
    eq_none_iff_forall_ne_some.mpr fun d hd =>
      hc.date_chars _ _ hd (mem_append_left _ (T_mem_naiveText s))
  have hread : (localFormats.findSome? fun f => c.parseNaive f (naiveText s ++ ['Z'])) = none := by
    refine findSome?_eq_none_iff.mpr fun f hf => ?_
    refine eq_none_iff_forall_ne_some.mpr fun n hn => ?_
    have h := hc.naive_last _ _ _ (mem_append_left _ hf) hn 'Z' (by simp)
    exact absurd h (by decide)
  rw [parseLocal, hread, hdate]
  rfl

theorem utc_roundTrips_iff (hc : c.Lawful) (hdb : db.Lawful) (hz : t.zone = .utc) (who : Text) :
    RoundTrips c t who ↔
      t.localTime.InRange ∧ t.localTime.LeapAtEnd ∧ t.localTime.FourDigits := by
  obtain ⟨hoff, hlocal⟩ := localTime_utc hdb hz
  have hfrac : t.localTime.frac < 2 * nanos := t.instant.2.2
  have htrim : trim (naiveText t.localTime ++ ['Z']) = naiveText t.localTime ++ ['Z'] :=
    trim_stamp hfrac fun x hx => by
      rw [getLast?_append_of_ne_nil _ (cons_ne_nil _ _)] at hx
      obtain rfl := Option.some.inj hx
      rfl
  have hbracket : '[' ∉ naiveText t.localTime ++ ['Z'] := by
    rw [mem_append, mem_singleton]
    rintro (h | h)
    · exact absurd (isStampChar_naiveText hfrac _ h) (by decide)
    · exact absurd h (by decide)
  have hiff : RoundTrips c t who ↔
      parseUnbracketed c (naiveText t.localTime ++ ['Z']) (naiveText t.localTime ++ ['Z']) none who =
        .ok t := by
    rw [RoundTrips, display_utc hdb hz]
    constructor
    · rintro ⟨s, hs, h⟩
      obtain rfl := Except.ok.inj hs
      rwa [parseIsoDatetime_unbracketed htrim hbracket] at h
    · intro h
      exact ⟨_, rfl, by rwa [parseIsoDatetime_unbracketed htrim hbracket]⟩
  rw [hiff]
  constructor
  · intro h
    cases hread : parseWithOffset c (naiveText t.localTime ++ ['Z']) with
    | none =>
      rw [parseUnbracketed, hread, parseLocal_Z hc] at h
      cases h
    | some r =>
      obtain ⟨instant, off⟩ := r
      obtain ⟨hshow, hrange, hleap⟩ := parseUnbracketed_shows hc hdb hread h
      rw [parseWithOffset_Z _ hfrac] at hread
      exact ⟨hrange, hleap, hshow ▸ (hc.rfc3339_local _ _ _ hread).1⟩
  · rintro ⟨-, hleap, hyear⟩
    have hread := hc.rfc3339_reads t.instant ⟨0, by decide⟩ true rfl
    rw [Stamp.shift_zero, ← hlocal] at hread
    have hread : c.parseRfc3339 (naiveText t.localTime ++ ['Z']) = some (t.instant, ⟨0, by decide⟩) :=
      hread hyear hleap
    rw [parseUnbracketed, parseWithOffset_Z _ hfrac, hread]
    exact congrArg Except.ok (DateTime.ext rfl hz.symm)

/-! ### With an offset -/

theorem rfc3339Local_eq (h : rfc3339Local t = .ok s) : s = stampText t.localTime t.offset := by
  rw [rfc3339Local] at h
  split at h
  · exact (Except.ok.inj h).symm
  · cases hlocal : t.instant.checkedShift t.offset with
    | none =>
      rw [DateTime.naiveLocal, hlocal] at h
      cases h
    | some n =>
      rw [DateTime.naiveLocal, hlocal] at h
      rw [← Except.ok.inj h, Naive.checkedShift_eq_some.mp hlocal]
      rfl

theorem rfc3339Local_of_inRange (h : t.localTime.InRange) :
    rfc3339Local t = .ok (stampText t.localTime t.offset) := by
  have hshift : t.instant.checkedShift t.offset = some ⟨_, h⟩ := Naive.checkedShift_eq_some.mpr rfl
  have hlocal : t.naiveLocal = .ok ⟨_, h⟩ := by
    rw [DateTime.naiveLocal, hshift]
    rfl
  rw [rfc3339Local, hlocal]
  split
  · rfl
  · rfl

theorem fixed_ne_utc (h : off.1 ≠ 0) : Zone.fixed off h ≠ (Zone.utc : Zone db) := by
  intro heq
  cases heq

theorem ofOffset_fixed (h : off.1 ≠ 0) :
    Zone.ofOffset off.1 = (Zone.fixed off h : Zone db) := dif_pos ⟨off.2, h⟩

theorem fixed_roundTrips_iff (hc : c.Lawful) (hdb : db.Lawful) {h : off.1 ≠ 0}
    (hz : t.zone = .fixed off h) (who : Text) :
    RoundTrips c t who ↔ t.localTime.InRange ∧ t.localTime.LeapAtEnd := by
  have hoff : t.offset = off.1 := by rw [DateTime.offset, hz, Zone.offset]
  have hlocal : t.localTime = t.instant.1.shift off.1 := by rw [DateTime.localTime, hoff]
  have hne : t.zone ≠ .utc := by
    rw [hz]
    exact fixed_ne_utc h
  have hdisplay : t.display = rfc3339Local t := by
    rw [DateTime.display, if_neg hne, hz]
  have hfrac : t.localTime.frac < 2 * nanos := t.instant.2.2
  have hchars := isStampChar_stampText hfrac off
  have htrim : trim (stampText t.localTime off.1) = stampText t.localTime off.1 :=
    trim_stamp hfrac fun x hx => not_isWhitespace (hchars x (mem_of_mem_getLast? hx))
  have hbracket : '[' ∉ stampText t.localTime off.1 := fun hx =>
    absurd (hchars _ hx) (by decide)
  constructor
  · rintro ⟨s, hs, hparse⟩
    rw [hdisplay] at hs
    obtain rfl := rfc3339Local_eq hs
    rw [hoff, parseIsoDatetime_unbracketed htrim hbracket] at hparse
    cases hread : parseWithOffset c (stampText t.localTime off.1) with
    | some r => exact (parseUnbracketed_shows hc hdb hread hparse).2
    | none =>
      rw [parseUnbracketed, hread] at hparse
      exact absurd (parseLocal_shows hc (mem_append_left _ (T_mem_naiveText _)) hparse).1 hne
  · rintro ⟨hrange, hleap⟩
    refine ⟨_, hdisplay.trans (rfc3339Local_of_inRange hrange), ?_⟩
    rw [hoff, parseIsoDatetime_unbracketed htrim hbracket, parseUnbracketed]
    rw [hlocal] at hrange hleap ⊢
    rw [parseWithOffset_printed hc hrange hleap]
    refine congrArg Except.ok (DateTime.ext rfl ?_)
    rw [hz]
    exact ofOffset_fixed h

/-! ### With a zone -/

theorem parseOffset_eq_none (h : ∀ x ∈ s.head?, x ≠ '+' ∧ x ≠ '-') : parseOffset s = none := by
  rw [parseOffset.eq_def]
  split
  · exact absurd rfl (h '+' rfl).1
  · exact absurd rfl (h '-' rfl).2
  · rfl

theorem tzOf_name (hdb : db.Lawful) (hutc : z ≠ db.utc) (who : Text) :
    tzOf c db (db.name z) who = .ok (.iana z) := by
  have hname : ¬(eqIgnoreAsciiCase (db.name z) "utc" ||
      eqIgnoreAsciiCase (db.name z) "z") = true := fun h =>
    hutc (hdb.utc_name z ((Bool.or_eq_true _ _).mp h))
  rw [tzOf, if_neg hname, parseOffset_eq_none (hdb.name_head z), hdb.parse_name]

theorem parseIsoDatetime_bracketed (hdb : db.Lawful) {s : Stamp} (hs : s.frac < 2 * nanos)
    (off : FixedOffset) (who : Text) :
    (parseIsoDatetime c (stampText s off.1 ++ '[' :: db.name z ++ [']']) none who :
      Except Fault (DateTime db)) = parseBracketed c (stampText s off.1 ++ '[' :: db.name z ++ [']']) (stampText s off.1)
        (db.name z) who := by
  have hchars := isStampChar_stampText hs off
  have htrim : trim (stampText s off.1 ++ '[' :: db.name z ++ [']']) =
      stampText s off.1 ++ '[' :: db.name z ++ [']'] := by
    rw [stampText, append_assoc, append_assoc]
    refine trim_stamp hs fun x hx => ?_
    rw [← append_assoc, ← append_assoc, getLast?_append_of_ne_nil _ (cons_ne_nil _ _)] at hx
    obtain rfl := Option.some.inj hx
    rfl
  have hbody : trim (stampText s off.1) = stampText s off.1 :=
    trim_stamp hs fun x hx => not_isWhitespace (hchars x (mem_of_mem_getLast? hx))
  have hcut : cutAtLast (· = '[') (stampText s off.1 ++ '[' :: db.name z ++ [']']) =
      some (stampText s off.1, '[' :: (db.name z ++ [']'])) := by
    rw [append_assoc, cons_append]
    refine cutAtLast_append _ rfl fun x hx => decide_eq_false ?_
    rintro rfl
    rcases mem_append.mp hx with hx | hx
    · exact hdb.name_chars z hx
    · exact absurd hx (by decide)
  have hends : endsWith [']'] (stampText s off.1 ++ '[' :: db.name z ++ [']']) = true :=
    isSuffixOf_iff_suffix.mpr ⟨_, rfl⟩
  rw [parseIsoDatetime, htrim]
  simp only [hcut, hends, if_true, hbody, tail_cons, dropLast_concat, getD_none]
  cases parseBracketed c (stampText s off.1 ++ '[' :: db.name z ++ [']']) (stampText s off.1)
      (db.name z) who with
  | error e => rfl
  | ok dt => rfl

theorem parseBracketed_offset (hdb : db.Lawful) (hutc : z ≠ db.utc) {t : Text}
    (hs : ∀ x ∈ s, isStampChar x) {instant : Naive}
    (hread : parseWithOffset c s = some (instant, off)) {dt : DateTime db} :
    parseBracketed c t s (db.name z) who = .ok dt ↔
      (Zone.iana z).offset instant.1 = off.1 ∧ dt = ⟨instant, .iana z⟩ := by
  have hexact : (endsWith ['Z'] s || endsWith ['z'] s) = false := by
    have hends {x : Char} (hx : isStampChar x = false) : ¬endsWith [x] s = true := fun h => by
      obtain ⟨front, rfl⟩ := isSuffixOf_iff_suffix.mp h
      exact isStampChar_ne (hs x (mem_append_right _ (mem_singleton_self x))) hx rfl
    rw [Bool.or_eq_false_iff]
    exact ⟨Bool.eq_false_iff.mpr (hends rfl), Bool.eq_false_iff.mpr (hends rfl)⟩
  rw [parseBracketed, tzOf_name hdb hutc]
  simp only [hread, hexact, Bool.not_false, Bool.true_and, decide_eq_true_eq, bind, Except.bind]
  split
  · next hne =>
      constructor
      · intro h
        cases h
      · rintro ⟨h, -⟩
        exact absurd h hne
  · next heq =>
      constructor
      · intro h
        exact ⟨not_not.mp heq, (Except.ok.inj h).symm⟩
      · rintro ⟨-, rfl⟩
        rfl

theorem iana_roundTrips_iff (hc : c.Lawful) (hdb : db.Lawful) (hz : t.zone = .iana z)
    (hutc : z ≠ db.utc) (who : Text) :
    RoundTrips c t who ↔ t.localTime.InRange ∧ t.localTime.LeapAtEnd := by
  obtain ⟨off, hoff⟩ : ∃ off : FixedOffset, t.offset = off.1 := by
    refine ⟨⟨t.offset, ?_⟩, rfl⟩
    rw [DateTime.offset, hz]
    exact hdb.offset_lt z _
  have hne : t.zone ≠ .utc := by
    rw [hz]
    exact fun h => hutc (Zone.iana.inj h)
  have hdisplay : t.display = (rfc3339Local t).bind fun s ↦ .ok (s ++ '[' :: db.name z ++ [']']) := by
    rw [DateTime.display, if_neg hne, hz]
    rfl
  have hfrac : t.localTime.frac < 2 * nanos := t.instant.2.2
  have hchars := isStampChar_stampText hfrac off
  constructor
  · rintro ⟨s, hs, hparse⟩
    rw [hdisplay] at hs
    cases hlocal : rfc3339Local t with
    | error e =>
      rw [hlocal] at hs
      cases hs
    | ok u =>
      rw [hlocal] at hs
      obtain rfl := rfc3339Local_eq hlocal
      obtain rfl := Except.ok.inj hs
      rw [hoff, parseIsoDatetime_bracketed hdb hfrac] at hparse
      cases hread : parseWithOffset c (stampText t.localTime off.1) with
      | some r =>
        obtain ⟨instant, off'⟩ := r
        obtain ⟨heq, rfl⟩ := (parseBracketed_offset hdb hutc hchars hread).mp hparse
        have h := parseWithOffset_local hc hread
        rwa [← heq] at h
      | none =>
        rw [parseBracketed, tzOf_name hdb hutc] at hparse
        simp only [hread, bind, Except.bind] at hparse
        exact (parseLocal_shows hc (mem_append_left _ (T_mem_naiveText _)) hparse).2
  · rintro ⟨hrange, hleap⟩
    refine ⟨_, by rw [hdisplay, rfc3339Local_of_inRange hrange]; rfl, ?_⟩
    have hread : parseWithOffset c (stampText t.localTime off.1) = some (t.instant, off) := by
      rw [DateTime.localTime, hoff] at hrange hleap ⊢
      exact parseWithOffset_printed hc hrange hleap
    rw [hoff, parseIsoDatetime_bracketed hdb hfrac]
    refine (parseBracketed_offset hdb hutc hchars hread).mpr ⟨?_, DateTime.ext rfl hz⟩
    rw [← hoff, DateTime.offset, hz]

end Display

/-! ## Which are read -/

/-- Which datetimes are read from their texts: those whose local time chrono has, with a leap second at
the end of a minute if they have one, and in UTC with a year of four digits.  Every date is. -/
theorem roundTrip_iff {c : Chrono} (hc : c.Lawful) {db : TzDb} (hdb : db.Lawful) (who : Text) :
    (∀ t : DateTime db, (∃ s, t.display = .ok s ∧ parseIsoDatetime c s none who = .ok t) ↔
      t.localTime.InRange ∧ t.localTime.LeapAtEnd ∧ (t.zone = .utc → t.localTime.FourDigits)) ∧
    ∀ d : NaiveDate, parseIsoDate c (dateText d.1) who = .ok d := by
  constructor
  · intro t
    change RoundTrips c t who ↔ _
    by_cases hutc : t.zone = .utc
    · simp only [utc_roundTrips_iff hc hdb hutc, hutc, forall_const]
    · simp only [hutc, false_implies, and_true]
      cases hz : t.zone with
      | fixed off h => exact fixed_roundTrips_iff hc hdb hz who
      | iana z => exact iana_roundTrips_iff hc hdb hz (fun h ↦ hutc (hz.trans (congrArg Zone.iana h))) who
  · intro d
    have htrim : trim (dateText d.1) = dateText d.1 :=
      trim_eq_self
        (fun x hx => not_isWhitespace
          (isStampChar_of_date (isDateChar_of_mem d.1 x (mem_of_mem_head? hx))))
        fun x hx => not_isWhitespace
          (isStampChar_of_date (isDateChar_of_mem d.1 x (mem_of_mem_getLast? hx)))
    rw [parseIsoDate, htrim, hc.date_reads]

end Synsema.Temporal
