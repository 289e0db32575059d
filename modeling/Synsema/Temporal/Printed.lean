import Synsema.Temporal.Iso

/-!
# What the texts are made of

The characters of dates, times and offsets, where a text is cut again, and an offset that is read from
its text.
-/

namespace Synsema.Temporal

open Text Gregorian List

/-! ## Cuts -/

section Cut

variable {p : Char → Bool}

variable {x : Char}

theorem cutAtFirst_append {l : Text} (hl : ∀ c ∈ l, p c = false) (hx : p x) (r : Text) :
    cutAtFirst p (l ++ x :: r) = some (l, x :: r) := by
  induction l with
  | nil => rw [nil_append, cutAtFirst, if_pos hx]
  | cons y l ih =>
    obtain ⟨hy, hl⟩ := forall_mem_cons.mp hl
    rw [cons_append, cutAtFirst, if_neg (by simp [hy]), ih hl]
    rfl

theorem cutAtLast_eq_none {s : Text} (h : ∀ c ∈ s, p c = false) : cutAtLast p s = none := by
  induction s with
  | nil => rfl
  | cons x s ih =>
    obtain ⟨hx, hs⟩ := forall_mem_cons.mp h
    rw [cutAtLast, ih hs]
    exact if_neg (by simp [hx])

theorem cutAtLast_append (l : Text) (hx : p x) {r : Text} (hr : ∀ c ∈ r, p c = false) :
    cutAtLast p (l ++ x :: r) = some (l, x :: r) := by
  induction l with
  | nil =>
    rw [nil_append, cutAtLast, cutAtLast_eq_none hr]
    exact if_pos hx
  | cons y l ih => rw [cons_append, cutAtLast, ih]

end Cut

/-! ## Digits -/

variable {n h m s : Nat}

theorem isDigit_of_mem_pad2 (h : n < 100) : ∀ c ∈ pad2 n, c.isDigit = true := by
  have hall : ∀ n < 100, ∀ c ∈ pad2 n, c.isDigit := by decide
  exact hall n h

theorem isDigit_of_mem_pad (w n : Nat) : ∀ c ∈ pad w n, c.isDigit = true := by
  intro c hc
  rw [pad, List.leftpad, mem_append] at hc
  rcases hc with hc | hc
  · obtain ⟨-, rfl⟩ := mem_replicate.mp hc
    rfl
  · exact all_eq_true.mp (allDigits_digits n) c hc

theorem parseUnsigned_pad2 (h : n < 100) : Net.parseUnsigned 31 (pad2 n) = some n := by
  have hall : ∀ n < 100, Net.parseUnsigned 31 (pad2 n) = some n := by decide
  exact hall n h

/-! ## Offsets -/

theorem pad2_cases (h : n < 100) :
    ∃ a b, pad2 n = [a, b] ∧ (a.isDigit = true ∧ b.isDigit) ∧ (a ≠ ':' ∧ b ≠ ':') := by
  have hdigit := isDigit_of_mem_pad2 h
  have ha : (Nat.digitChar (n / 10)).isDigit := hdigit _ (by simp [pad2])
  have hb : (Nat.digitChar (n % 10)).isDigit := hdigit _ (by simp [pad2])
  exact ⟨_, _, rfl, ⟨ha, hb⟩, fun hc => by simp [hc] at ha, fun hc => by simp [hc] at hb⟩

theorem unsigned_hm (hh : h < 24) (hm : m < 60) (sign : Int) :
    parseOffset.unsigned sign (pad2 h ++ ':' :: pad2 m) = some (sign * (h * 3600 + m * 60)) := by
  have hreadh : Net.parseUnsigned 31 (pad2 h) = some h := parseUnsigned_pad2 (by omega)
  have hreadm : Net.parseUnsigned 31 (pad2 m) = some m := parseUnsigned_pad2 (by omega)
  obtain ⟨a, b, hab, ⟨ha, hb⟩, hac, hbc⟩ := pad2_cases (n := h) (by omega)
  obtain ⟨x, y, hxy, ⟨hx, hy⟩, hxc, hyc⟩ := pad2_cases (n := m) (by omega)
  rw [hab] at hreadh
  rw [hxy] at hreadm
  simp [parseOffset.unsigned, hab, hxy, hac, hbc, hxc, hyc, allDigits, ha, hb, hx, hy, offsetPart,
    hreadh, hreadm, hh, hm]

theorem unsigned_hms (hh : h < 24) (hm : m < 60) (hs : s < 60) (sign : Int) :
    parseOffset.unsigned sign (pad2 h ++ ':' :: pad2 m ++ ':' :: pad2 s) =
      some (sign * (h * 3600 + m * 60 + s)) := by
  have hreadh : Net.parseUnsigned 31 (pad2 h) = some h := parseUnsigned_pad2 (by omega)
  have hreadm : Net.parseUnsigned 31 (pad2 m) = some m := parseUnsigned_pad2 (by omega)
  have hreads : Net.parseUnsigned 31 (pad2 s) = some s := parseUnsigned_pad2 (by omega)
  obtain ⟨a, b, hab, ⟨ha, hb⟩, hac, hbc⟩ := pad2_cases (n := h) (by omega)
  obtain ⟨x, y, hxy, ⟨hx, hy⟩, hxc, hyc⟩ := pad2_cases (n := m) (by omega)
  obtain ⟨u, v, huv, ⟨hu, hv⟩, huc, hvc⟩ := pad2_cases (n := s) (by omega)
  rw [hab] at hreadh
  rw [hxy] at hreadm
  rw [huv] at hreads
  simp [parseOffset.unsigned, hab, hxy, huv, hac, hbc, hxc, hyc, huc, hvc, allDigits, ha, hb, hx, hy,
    hu, hv, offsetPart, hreadh, hreadm, hreads, hh, hm, hs]

theorem parseOffset_offsetText (off : FixedOffset) : parseOffset (offsetText off.1) = some off.1 := by
  obtain ⟨secs, hlow, hhigh⟩ := off
  rw [daySecs] at hlow hhigh
  have hh : secs.natAbs / 3600 < 24 := by omega
  have hm : secs.natAbs / 60 % 60 < 60 := Nat.mod_lt _ (by decide)
  have hs : secs.natAbs % 60 < 60 := Nat.mod_lt _ (by decide)
  have hunsigned (sign : Int) : parseOffset.unsigned sign
      (if secs.natAbs % 60 = 0 then pad2 (secs.natAbs / 3600) ++ ':' :: pad2 (secs.natAbs / 60 % 60)
      else pad2 (secs.natAbs / 3600) ++ ':' :: pad2 (secs.natAbs / 60 % 60) ++
        ':' :: pad2 (secs.natAbs % 60)) = some (sign * secs.natAbs) := by
    split
    · rw [unsigned_hm hh hm]
      congr 2
      omega
    · rw [unsigned_hms hh hm hs]
      congr 2
      omega
  rw [offsetText]
  by_cases hneg : secs < 0
  · rw [if_pos hneg]
    refine (hunsigned (-1)).trans (congrArg some ?_)
    change -1 * (secs.natAbs : Int) = secs
    omega
  · rw [if_neg hneg]
    refine (hunsigned 1).trans (congrArg some ?_)
    change 1 * (secs.natAbs : Int) = secs
    omega

/-! ## Characters -/

/-- The characters of a date. -/
def isDateChar (c : Char) : Bool := c.isDigit || c = '-' || c = '+'

/-- The characters of a time of day. -/
def isTimeChar (c : Char) : Bool := c.isDigit || c = ':' || c = '.'

theorem Date.lt_hundred (d : Date) : d.month < 100 ∧ d.day < 100 := by
  obtain ⟨⟨hm₁, hm⟩, -, hd⟩ := d.valid
  have hall : ∀ l ∈ monthLengths d.year, l ≤ 31 := by
    rw [monthLengths]
    cases isLeap d.year <;> decide
  have hlt : d.month - 1 < (monthLengths d.year).length := by
    rw [length_monthLengths]
    omega
  have hlength : daysInMonth d.year d.month ≤ 31 := by
    rw [daysInMonth_eq hlt]
    exact hall _ (getElem_mem hlt)
  constructor <;> omega

theorem isDateChar_of_mem (d : Date) : ∀ c ∈ dateText d, isDateChar c = true := by
  obtain ⟨hm, hd⟩ := Date.lt_hundred d
  have hyear : ∀ c ∈ yearText d.year, isDateChar c := by
    intro c hc
    rw [yearText] at hc
    split at hc
    · simp [isDateChar, isDigit_of_mem_pad _ _ c hc]
    · rcases List.mem_cons.mp hc with rfl | hc
      · split <;> rfl
      · simp [isDateChar, isDigit_of_mem_pad _ _ c hc]
  intro c hc
  simp only [dateText, mem_append, List.mem_cons] at hc
  rcases hc with hc | rfl | hc | rfl | hc
  · exact hyear c hc
  · rfl
  · simp [isDateChar, isDigit_of_mem_pad2 hm c hc]
  · rfl
  · simp [isDateChar, isDigit_of_mem_pad2 hd c hc]

theorem isTimeChar_of_mem {frac : Nat} (hs : s < daySecs) (hfrac : frac < 2 * nanos) :
    ∀ c ∈ timeText s frac, isTimeChar c = true := by
  rw [daySecs] at hs
  have hpad {n : Nat} (h : n < 100) : ∀ c ∈ pad2 n, isTimeChar c = true := fun c hc => by
    simp [isTimeChar, isDigit_of_mem_pad2 h c hc]
  have hfraction : ∀ c ∈ fractionText (frac % nanos), isTimeChar c := by
    intro c hc
    have hpad {w n : Nat} (h : c ∈ '.' :: pad w n) : isTimeChar c = true := by
      rcases List.mem_cons.mp h with rfl | h
      · rfl
      · simp [isTimeChar, isDigit_of_mem_pad _ _ c h]
    rw [fractionText] at hc
    split_ifs at hc
    · cases hc
    · exact hpad hc
    · exact hpad hc
    · exact hpad hc
  have hsec : s % 60 + frac / nanos < 100 := by
    rw [nanos] at *
    omega
  intro c hc
  simp only [timeText, mem_append, List.mem_cons] at hc
  rcases hc with hc | rfl | hc | rfl | hc | hc
  · exact hpad (by omega) c hc
  · rfl
  · exact hpad (by omega) c hc
  · rfl
  · exact hpad hsec c hc
  · exact hfraction c hc

theorem offsetText_cases (off : FixedOffset) :
    ∃ sign tail, offsetText off.1 = sign :: tail ∧ (sign = '+' ∨ sign = '-') ∧
      ∀ c ∈ tail, isTimeChar c = true := by
  obtain ⟨secs, hlow, hhigh⟩ := off
  rw [daySecs] at hlow hhigh
  have hpad {n : Nat} (h : n < 100) : ∀ c ∈ pad2 n, isTimeChar c = true := fun c hc => by
    simp [isTimeChar, isDigit_of_mem_pad2 h c hc]
  have hhm : ∀ c ∈ pad2 (secs.natAbs / 3600) ++ ':' :: pad2 (secs.natAbs / 60 % 60),
      isTimeChar c = true := by
    intro c hc
    simp only [mem_append, List.mem_cons] at hc
    rcases hc with hc | rfl | hc
    · exact hpad (by omega) c hc
    · rfl
    · exact hpad (by omega) c hc
  refine ⟨_, _, rfl, ?_, ?_⟩
  · split
    · exact .inr rfl
    · exact .inl rfl
  · intro c hc
    split at hc
    · exact hhm c hc
    · rcases mem_append.mp hc with hc | hc
      · exact hhm c hc
      · rcases List.mem_cons.mp hc with rfl | hc
        · rfl
        · exact hpad (by omega) c hc

end Synsema.Temporal
