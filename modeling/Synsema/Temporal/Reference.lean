import Synsema.Temporal.RoundTrip

/-!
# A reader of what is printed

A reader of exactly the texts that are written, by the places of their characters, and a list of zones
with one change of the clocks: chrono as far as it is relied on here.
-/

namespace Synsema.Temporal

open Text Gregorian List

/-! ## Numbers -/

/-- The number of some digits. -/
def readNumber (ds : Text) : Nat := Nat.ofDigitChars 10 ds 0

theorem readNumber_pad2 {n : Nat} (h : n < 100) : readNumber (pad2 n) = n := by
  have hall : ∀ n < 100, readNumber (pad2 n) = n := by decide
  exact hall n h

theorem readNumber_pad (w n : Nat) : readNumber (pad w n) = n := by
  have hzeros (k : Nat) (ds : Text) :
      Nat.ofDigitChars 10 (replicate k '0' ++ ds) 0 = Nat.ofDigitChars 10 ds 0 := by
    induction k with
    | zero => rfl
    | succ k ih => rwa [replicate_succ, cons_append, Nat.ofDigitChars_cons]
  rw [readNumber, pad, List.leftpad, hzeros, ofDigitChars_digits]

theorem length_pad {w n : Nat} (hw : 0 < w) (h : n < 10 ^ w) : (pad w n).length = w := by
  have hlength : (digits n).length ≤ w := by
    rw [digits, Nat.toString_eq_repr, Nat.toList_repr]
    exact (Nat.length_toDigits_le_iff (by decide) hw).mpr h
  rw [pad, length_leftpad]
  exact max_eq_left hlength

/-! ## Times -/

/-- A year, with or without a sign. -/
def readYear : Text → Int
  | '+' :: ds => readNumber ds
  | '-' :: ds => -(readNumber ds : Int)
  | ds => readNumber ds

theorem readYear_digits {ds : Text} (h : ∀ c ∈ ds, c.isDigit) : readYear ds = readNumber ds := by
  rw [readYear.eq_def]
  split
  · exact absurd (h '+' (mem_cons_self ..)) (by decide)
  · exact absurd (h '-' (mem_cons_self ..)) (by decide)
  · rfl

theorem readYear_yearText (y : Int) : readYear (yearText y) = y := by
  rw [yearText]
  by_cases h : 0 ≤ y ∧ y ≤ 9999
  · rw [if_pos h, readYear_digits (isDigit_of_mem_pad _ _), readNumber_pad]
    exact Int.toNat_of_nonneg h.1
  · rw [if_neg h]
    by_cases hneg : y < 0
    · rw [if_pos hneg]
      change -(readNumber (pad 4 y.natAbs) : Int) = y
      rw [readNumber_pad]
      omega
    · rw [if_neg hneg]
      change (readNumber (pad 4 y.natAbs) : Int) = y
      rw [readNumber_pad]
      omega

/-- The day of a date. -/
def readDays (t : Text) : Int :=
  let tail := t.drop (t.length - 6)
  monthStart (readYear (t.take (t.length - 6))) (readNumber ((tail.drop 1).take 2)) +
    (readNumber (tail.drop 4) - 1 : Nat)

theorem readDays_dateText (d : Date) : readDays (dateText d) = d.toDays := by
  obtain ⟨hm, hd⟩ := Date.lt_hundred d
  have hlength : (dateText d).length - 6 = (yearText d.year).length := by
    rw [dateText, length_append]
    exact Nat.add_sub_cancel _ 6
  have hyear : (dateText d).take ((dateText d).length - 6) = yearText d.year := by
    rw [hlength, dateText, take_left]
  have htail : (dateText d).drop ((dateText d).length - 6) = '-' :: (pad2 d.month ++ '-' :: pad2 d.day) := by
    rw [hlength, dateText, drop_left]
  rw [readDays, hyear, htail, readYear_yearText]
  change monthStart d.year (readNumber (pad2 d.month)) + (readNumber (pad2 d.day) - 1 : Nat) = d.toDays
  rw [readNumber_pad2 hm, readNumber_pad2 hd, Date.toDays]

/-- The nanoseconds of a fraction. -/
def readFraction : Text → Nat
  | [] => 0
  | _ :: ds => readNumber ds * 10 ^ (9 - ds.length)

theorem readFraction_fractionText {n : Nat} (h : n < nanos) : readFraction (fractionText n) = n := by
  rw [nanos] at h
  rw [fractionText]
  split_ifs with h₀ h₃ h₆
  · exact h₀.symm
  · rw [readFraction, readNumber_pad, length_pad (by decide) (by omega)]
    omega
  · rw [readFraction, readNumber_pad, length_pad (by decide) (by omega)]
    omega
  · rw [readFraction, readNumber_pad, length_pad (by decide) (by omega)]
    omega

/-- A date and a time. -/
def readStamp (t : Text) : Stamp :=
  let date := t.takeWhile (· ≠ 'T')
  let time := t.drop (date.length + 1)
  let secs := readNumber (time.take 2) * 3600 + readNumber ((time.drop 3).take 2) * 60
  let sec := readNumber ((time.drop 6).take 2)
  let leap := if sec = 60 then 1 else 0
  ⟨readDays date * daySecs + (secs + (sec - leap) : Nat), readFraction (time.drop 8) + leap * nanos⟩

theorem readStamp_naiveText {s : Stamp} (hs : s.frac < 2 * nanos) (hleap : s.LeapAtEnd) :
    readStamp (naiveText s) = s := by
  have hdate : (naiveText s).takeWhile (· ≠ 'T') = dateText (dateOf s.secs) := by
    rw [naiveText, takeWhile_append_of_pos]
    · simp
    · intro x hx
      have hx := isDateChar_of_mem _ x hx
      refine decide_eq_true ?_
      rintro rfl
      exact absurd hx (by decide)
  have htime : (naiveText s).drop ((dateText (dateOf s.secs)).length + 1) =
      timeText (secOfDay s.secs) s.frac := by
    rw [naiveText, drop_length_add_append]
    rfl
  have hday := secOfDay_lt s.secs
  generalize hn : secOfDay s.secs = n at htime hday
  have hsec : s.secs = (dateOf s.secs).toDays * daySecs + n := by
    rw [← hn, dateOf, Date.toDays_ofDays, secOfDay, daySecs]
    omega
  have hread : readNumber ((timeText n s.frac).take 2) * 3600 +
      readNumber (((timeText n s.frac).drop 3).take 2) * 60 = n / 60 * 60 := by
    change readNumber (pad2 (n / 3600)) * 3600 + readNumber (pad2 (n / 60 % 60)) * 60 = n / 60 * 60
    rw [daySecs] at hday
    rw [readNumber_pad2 (by omega), readNumber_pad2 (by omega)]
    omega
  have hreadSec : readNumber (((timeText n s.frac).drop 6).take 2) = n % 60 + s.frac / nanos := by
    refine readNumber_pad2 (n := n % 60 + s.frac / nanos) ?_
    rw [nanos] at *
    omega
  have hfraction : readFraction ((timeText n s.frac).drop 8) = s.frac % nanos :=
    readFraction_fractionText (Nat.mod_lt _ (by decide))
  have hlast : n % 60 + s.frac / nanos = 60 ↔ nanos ≤ s.frac := by
    rw [Stamp.LeapAtEnd, hsec, daySecs] at hleap
    rw [nanos] at *
    omega
  simp only [readStamp, hdate, htime, readDays_dateText, hread, hreadSec, hfraction, hlast]
  have hcarry : s.frac / nanos = if nanos ≤ s.frac then 1 else 0 := by
    rw [nanos] at *
    split <;> omega
  have hminute : n / 60 * 60 + (n % 60 + (if nanos ≤ s.frac then 1 else 0) -
      if nanos ≤ s.frac then 1 else 0) = n := by omega
  ext
  · rw [hcarry, hminute, ← hsec]
  · change s.frac % nanos + (if nanos ≤ s.frac then 1 else 0) * nanos = s.frac
    rw [← hcarry, Nat.mul_comm]
    exact Nat.mod_add_div s.frac nanos

/-! ## Readers -/

/-- A reader of local times, of one format. -/
def readNaive (f t : Text) : Option Naive :=
  if h : (readStamp t).InRange ∧ (readStamp t).LeapAtEnd ∧ naiveText (readStamp t) = t ∧
      f = "%Y-%m-%dT%H:%M:%S%.f" then some ⟨readStamp t, h.1⟩ else none

/-- A reader of RFC 3339. -/
def readRfc3339 (t : Text) : Option (Naive × FixedOffset) := do
  let (s, off) ←
    (if endsWith ['Z'] t then some (readStamp t.dropLast, 0)
    else (parseOffset (t.drop (t.length - 6))).map fun off ↦ (readStamp (t.take (t.length - 6)), off))
  let off ← eastOpt off
  if h : (s.shift (-off.1)).InRange ∧ s.FourDigits ∧ s.LeapAtEnd ∧ off.1 % 60 = 0 ∧
      (t = rfc3339 s off.1 true ∨ t = rfc3339 s off.1 false) then
    some (⟨s.shift (-off.1), h.1⟩, off)
  else none

/-- The reader, with the texts of messages left empty. -/
def reference : Chrono where
  parseRfc3339 := readRfc3339
  parseNaive := readNaive
  parseDate t :=
    let d := Date.ofDays (readDays t)
    if h : (minYear ≤ d.year ∧ d.year ≤ maxYear) ∧ dateText d = t then some ⟨d, h.1⟩ else none
  debug t := '"' :: t ++ ['"']
  showNaive s := naiveText s.1
  showOffset off := offsetText off

theorem readNaive_eq_some {f t : Text} {s : Naive} (h : readNaive f t = some s) :
    s.1.LeapAtEnd ∧ naiveText s.1 = t := by
  rw [readNaive] at h
  split at h
  · next hread =>
      obtain rfl := Option.some.inj h
      exact ⟨hread.2.1, hread.2.2.1⟩
  · cases h

theorem readRfc3339_eq_some {t : Text} {r : Naive × FixedOffset} (h : readRfc3339 t = some r) :
    ((r.1.1.shift r.2.1).FourDigits ∧ (r.1.1.shift r.2.1).LeapAtEnd) ∧ r.2.1 % 60 = 0 ∧
      (t = rfc3339 (r.1.1.shift r.2.1) r.2.1 true ∨ t = rfc3339 (r.1.1.shift r.2.1) r.2.1 false) := by
  simp only [readRfc3339, Option.bind_eq_bind, Option.bind_eq_some_iff] at h
  obtain ⟨⟨s, off⟩, -, off', -, h⟩ := h
  split at h
  · next hread =>
      obtain rfl := Option.some.inj h
      simp only [Stamp.shift_of_neg]
      exact ⟨⟨hread.2.1, hread.2.2.1⟩, hread.2.2.2⟩
  · cases h

theorem pad_ne_nil (w n : Nat) : pad w n ≠ [] :=
  append_ne_nil_of_right_ne_nil _ (digits_ne_nil n)

theorem fractionText_cases (n : Nat) :
    fractionText n = [] ∨ ∃ w m, fractionText n = '.' :: pad w m := by
  rw [fractionText]
  split_ifs
  · exact .inl rfl
  · exact .inr ⟨_, _, rfl⟩
  · exact .inr ⟨_, _, rfl⟩
  · exact .inr ⟨_, _, rfl⟩

theorem naiveText_last {s : Stamp} (hs : s.frac < 2 * nanos) :
    ∃ front ds, naiveText s = front ++ ds ∧ ds ≠ [] ∧ ∀ c ∈ ds, c.isDigit = true := by
  have hsec : secOfDay s.secs % 60 + s.frac / nanos < 100 := by
    rw [nanos] at *
    omega
  rw [naiveText, timeText]
  generalize dateText (dateOf s.secs) = date, pad2 (secOfDay s.secs / 3600) = hour,
    pad2 (secOfDay s.secs / 60 % 60) = minute
  have hdigits := isDigit_of_mem_pad2 hsec
  have hne : pad2 (secOfDay s.secs % 60 + s.frac / nanos) ≠ [] := cons_ne_nil _ _
  generalize pad2 (secOfDay s.secs % 60 + s.frac / nanos) = sec at *
  rcases fractionText_cases (s.frac % nanos) with h | ⟨w, m, h⟩
  · exact ⟨date ++ 'T' :: (hour ++ ':' :: (minute ++ [':'])), sec, by simp [h], hne, hdigits⟩
  · exact ⟨date ++ 'T' :: (hour ++ ':' :: (minute ++ ':' :: (sec ++ ['.']))), pad w m, by simp [h],
      pad_ne_nil w m, isDigit_of_mem_pad w m⟩

theorem offsetText_minutes {off : Int} (h : off % 60 = 0) :
    ∃ sign hm, offsetText off = sign :: hm ∧ hm.length = 5 ∧ (sign = '+' ∨ sign = '-') := by
  refine ⟨_, _, rfl, ?_, ?_⟩
  · rw [if_pos (by omega)]
    rfl
  · split
    · exact .inr rfl
    · exact .inl rfl

theorem readRfc3339_rfc3339 {s : Naive} {off : FixedOffset} (useZ : Bool) (hoff : off.1 % 60 = 0)
    (hyear : (s.1.shift off.1).FourDigits) (hleap : (s.1.shift off.1).LeapAtEnd) :
    readRfc3339 (rfc3339 (s.1.shift off.1) off.1 useZ) = some (s, off) := by
  have hread : readStamp (naiveText (s.1.shift off.1)) = s.1.shift off.1 :=
    readStamp_naiveText s.2.2 hleap
  have heast : eastOpt off.1 = some off := dif_pos off.2
  have hfinish {t : Text} (ht : t = rfc3339 (s.1.shift off.1) off.1 true ∨
      t = rfc3339 (s.1.shift off.1) off.1 false)
      (hguess : (if endsWith ['Z'] t then some (readStamp t.dropLast, (0 : Int))
        else (parseOffset (t.drop (t.length - 6))).map fun off =>
          (readStamp (t.take (t.length - 6)), off)) = some (s.1.shift off.1, off.1)) :
      readRfc3339 t = some (s, off) := by
    have hback : (s.1.shift off.1).shift (-off.1) = s.1 := Stamp.shift_neg _ _
    rw [readRfc3339, hguess]
    simp only [Option.bind_eq_bind, Option.bind_some, heast]
    rw [dif_pos ⟨by rw [hback]; exact s.2, hyear, hleap, hoff, ht⟩]
    exact congrArg some (Prod.ext (Subtype.ext hback) rfl)
  refine hfinish (by cases useZ <;> simp) ?_
  by_cases hz : (useZ && off.1 = 0) = true
  · have hzero : off.1 = 0 := of_decide_eq_true (Bool.and_eq_true_iff.mp hz).2
    have hends : endsWith ['Z'] (naiveText (s.1.shift off.1) ++ ['Z']) :=
      isSuffixOf_iff_suffix.mpr ⟨_, rfl⟩
    rw [rfc3339, if_pos hz, if_pos hends, dropLast_concat, hread, hzero]
  · obtain ⟨sign, hm, htext, hlength, -⟩ := offsetText_minutes hoff
    have hends : ¬endsWith ['Z'] (stampText (s.1.shift off.1) off.1) := fun h => by
      obtain ⟨front, hfront⟩ := isSuffixOf_iff_suffix.mp h
      have hmem : 'Z' ∈ stampText (s.1.shift off.1) off.1 :=
        hfront ▸ mem_append_right _ (mem_singleton_self 'Z')
      have hfrac : (s.1.shift off.1).frac < 2 * nanos := s.2.2
      exact absurd (isStampChar_stampText hfrac off _ hmem) (by decide)
    have hsix : (stampText (s.1.shift off.1) off.1).length - 6 = (naiveText (s.1.shift off.1)).length := by
      rw [stampText, length_append, htext, length_cons, hlength]
      exact Nat.add_sub_cancel _ 6
    rw [rfc3339, if_neg hz, if_neg hends, hsix, drop_left, take_left, hread, parseOffset_offsetText]
    rfl

theorem reference_lawful : reference.Lawful where
  rfc3339_reads s off useZ hoff hyear hleap := readRfc3339_rfc3339 useZ hoff hyear hleap
  rfc3339_local t s off h := (readRfc3339_eq_some h).1
  rfc3339_head t r h := by
    obtain ⟨⟨hyear, -⟩, -, htext⟩ := readRfc3339_eq_some h
    obtain ⟨u, rfl⟩ : ∃ u, t = pad 4 (r.1.1.shift r.2.1).year.toNat ++ u := by
      have hhead : yearText (r.1.1.shift r.2.1).year = pad 4 (r.1.1.shift r.2.1).year.toNat :=
        if_pos hyear
      rw [rfc3339, rfc3339, naiveText, dateText,
        show (dateOf (r.1.1.shift r.2.1).secs).year = (r.1.1.shift r.2.1).year from rfl, hhead,
        append_assoc, append_assoc, append_assoc, append_assoc] at htext
      rcases htext with h | h
      · exact ⟨_, h⟩
      · exact ⟨_, h⟩
    intro x hx
    rw [head?_append_of_ne_nil _ (pad_ne_nil _ _)] at hx
    exact isDigit_of_mem_pad _ _ x (mem_of_mem_head? hx)
  rfc3339_zone t r h := by
    obtain ⟨-, hoff, htext⟩ := readRfc3339_eq_some h
    obtain ⟨sign, hm, hoffset, hlength, hsign⟩ := offsetText_minutes hoff
    have hshape (useZ : Bool) (ht : t = rfc3339 (r.1.1.shift r.2.1) r.2.1 useZ) :
        (∃ x ∈ t.getLast?, x = 'Z' ∨ x = 'z') ∨
          ∃ front sign hm, t = front ++ sign :: hm ∧ hm.length = 5 ∧ sign ∈ ['+', '-', '−'] := by
      rw [rfc3339] at ht
      split at ht
      · exact .inl ⟨'Z', by simp [ht], .inl rfl⟩
      · refine .inr ⟨_, sign, hm, ht.trans (by rw [hoffset]), hlength, ?_⟩
        rcases hsign with rfl | rfl
        · decide
        · decide
    rcases htext with ht | ht
    · exact hshape true ht
    · exact hshape false ht
  naive_reads s hs := by
    have hread : readStamp (naiveText s.1) = s.1 := readStamp_naiveText s.2.2 hs
    change readNaive _ _ = _
    rw [readNaive, dif_pos (by rw [hread]; exact ⟨s.2, hs, rfl, rfl⟩)]
    exact congrArg some (Subtype.ext hread)
  naive_leap f t s h := (readNaive_eq_some h).1
  naive_last f t s hf h x hx := by
    obtain ⟨front, ds, htext, hne, hdigits⟩ := naiveText_last s.2.2
    rw [← (readNaive_eq_some h).2, htext, getLast?_append_of_ne_nil _ hne] at hx
    exact hdigits x (mem_of_mem_getLast? hx)
  date_reads d := by
    have hread : Date.ofDays (readDays (dateText d.1)) = d.1 := by
      rw [readDays_dateText, Date.ofDays_toDays]
    change (if h : _ then _ else _) = _
    rw [dif_pos (by rw [hread]; exact ⟨d.2, rfl⟩)]
    exact congrArg some (Subtype.ext hread)
  date_chars t d h hT := by
    change (if h : _ then _ else _) = _ at h
    split at h
    · next hread =>
        rw [← hread.2] at hT
        exact absurd (isDateChar_of_mem _ _ hT) (by decide)
    · cases h

/-! ## Zones -/

/-- The zones of a small list. -/
inductive City where
  | utc
  | buenosAires
  deriving DecidableEq

def City.name : City → Text
  | utc => "UTC"
  | buenosAires => "America/Buenos_Aires"

/-- UTC, and a zone with the offset of its sun until May 1920. -/
def cities : TzDb where
  Zone := City
  eq := inferInstance
  utc := .utc
  name := City.name
  parse t := [City.utc, City.buenosAires].find? fun z => z.name = t
  rules
    | .utc => stepTz 0 0 0 (by decide)
    | .buenosAires => stepTz (-1567453392) (-15408) (-14400) (by decide)

theorem cities_lawful : cities.Lawful where
  parse_name := by
    intro z
    cases z <;> rfl
  utc_offset t := by
    change (if t < 0 then 0 else 0) = (0 : Int)
    split <;> rfl
  utc_name := by
    intro z
    cases z
    · exact fun _ => rfl
    · rintro (h | h) <;> exact absurd h (by decide)
  offset_lt := by
    intro z t
    cases z
    · change _ < (if t < 0 then 0 else 0) ∧ (if t < 0 then 0 else 0) < daySecs
      split <;> decide
    · change _ < (if t < -1567453392 then -15408 else -14400) ∧ (if t < -1567453392 then -15408 else -14400) < daySecs
      split <;> decide
  name_head := by
    intro z
    cases z <;> decide
  name_chars := by
    intro z
    cases z <;> decide

/-- Noon of a day of 1900, in Buenos Aires. -/
def noon1900 : DateTime cities := ⟨⟨⟨-2195899200, 500000000⟩, by decide⟩, .iana .buenosAires⟩

/-- `1900-06-01T07:43:12.500-04:16:48[America/Buenos_Aires]` is read. -/
theorem roundTrip_noon : (∃ s, noon1900.display = .ok s ∧
      parseIsoDatetime reference s none "datetime" = .ok noon1900) ∧
    noon1900.display = .ok "1900-06-01T07:43:12.500-04:16:48[America/Buenos_Aires]" :=
  ⟨((roundTrip_iff reference_lawful cities_lawful "datetime").1 noon1900).mpr
    ⟨by decide, by decide, by decide⟩, by decide⟩

/-- The first second of the year 10000, in UTC. -/
def year10000 : DateTime cities := ⟨⟨⟨253402300800, 0⟩, by decide⟩, .utc⟩

/-- `+10000-01-01T00:00:00Z` is not read. -/
theorem roundTrip_year10000 :
    year10000.display = .ok "+10000-01-01T00:00:00Z" ∧
      ¬∃ s, year10000.display = .ok s ∧
        parseIsoDatetime reference s none "datetime" = .ok year10000 := by
  refine ⟨by decide, ?_⟩
  change ¬RoundTrips reference year10000 "datetime"
  rw [utc_roundTrips_iff reference_lawful cities_lawful rfl]
  decide

end Synsema.Temporal
