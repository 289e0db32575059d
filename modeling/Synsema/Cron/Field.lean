import Synsema.Net.Addr

/-!
# The fields of a cron expression

`parse_field` (`synsema-stdlib/src/cronexpr.rs`): a list of items, each a value, a range or `*`,
with a step or without, as a set of bits.

What an item denotes is said apart from the loop that sets the bits.  The loop adds the step to a
`u32`, which wraps: an item whose first value and step do not fit together sets bits under its first
value.  And a step that is written and is `1` is taken for none, so that `5/1` is only `5`.
-/

namespace Synsema.Cron

open Text Net List

/-! ## The code -/

/-- A text in the quotes of a message. -/
def quoted (s : Text) : Text := '"' :: s ++ ['"']

/-- `value_of`: a number, or the place of a name. -/
def valueOf (label : Text) (lo : Nat) (names : Option (List Text)) (tok : Text) : Except Text Nat :=
  match parseUnsigned 32 tok with
  | some n => .ok n
  | none =>
    match names with
    | some names =>
      match names.findIdx? fun n => eqIgnoreAsciiCase n tok with
      | some i => .ok (i + if lo = 0 then 0 else 1)
      | none =>
        let kind := if lo = 0 then "weekday".toList else "month".toList
        .error ("unknown " ++ kind ++ " " ++ quoted tok)
    | none => .error (label ++ " " ++ quoted tok ++ " is not a number")

/-- An item after it was read: the ends of its range, its step, and whether it was not `*`. -/
structure Part where
  first : Nat
  last : Nat
  step : Nat
  explicit : Bool
  deriving DecidableEq

/-- The range and the step of an item. -/
def splitStep (label part : Text) : Except Text (Text × Nat) :=
  match splitOnce '/' part with
  | some (r, s) =>
    match parseUnsigned 32 (trim s) with
    | none => .error (label ++ ": step " ++ quoted s ++ " is not a number")
    | some step =>
      if step = 0 then .error (label ++ ": step must be > 0") else .ok (trim r, step)
  | none => .ok (part, 1)

/-- The ends of the range of an item. -/
def readEnds (label : Text) (lo hi : Nat) (names : Option (List Text)) (range : Text)
    (step : Nat) : Except Text Part :=
  if range = ['*'] then .ok ⟨lo, hi, step, false⟩
  else
    match splitOnce '-' range with
    | some (x, y) => do
      let a ← valueOf label lo names (trim x)
      let b ← valueOf label lo names (trim y)
      return ⟨a, b, step, true⟩
    | none => do
      let v ← valueOf label lo names range
      -- `5/10` goes on to the last value of the field
      return if 1 < step then ⟨v, hi, step, true⟩ else ⟨v, v, step, true⟩

/-- A value that is not one of the field. -/
def outOfRange (label : Text) (lo hi v : Nat) : Text :=
  label ++ " " ++ digits v ++ " is out of range " ++ digits lo ++ ['-'] ++ digits hi

/-- The checks of the ends. -/
def checkEnds (label : Text) (lo hi : Nat) (p : Part) : Except Text Part :=
  if p.first < lo ∨ hi < p.first then .error (outOfRange label lo hi p.first)
  else if p.last < lo ∨ hi < p.last then .error (outOfRange label lo hi p.last)
  else if p.last < p.first then
    .error (label ++ ": range " ++ digits p.first ++ ['-'] ++ digits p.last ++
      " is reversed")
  else .ok p

/-- An item, read and checked. -/
def readPart (label : Text) (lo hi : Nat) (names : Option (List Text)) (part : Text) :
    Except Text Part :=
  let part := trim part
  if part.isEmpty then .error (label ++ ": empty list item")
  else do
    let (range, step) ← splitStep label part
    checkEnds label lo hi (← readEnds label lo hi names range step)

/-- `v += step`, of a `u32`. -/
def bump (step v : Nat) : Nat := (v + step) % 2 ^ 32

/-- `while v <= b`: the bits that the loop adds, if it ends within the fuel. -/
def fill (step b : Nat) : Nat → Nat → Nat → Option Nat
  | 0, _, _ => none
  | fuel + 1, v, bits =>
    if v ≤ b then fill step b fuel (bump step v) (bits ||| 1 <<< (v % 64)) else some bits

/-- The loop over the items. -/
def parseParts (label : Text) (lo hi : Nat) (names : Option (List Text)) :
    List Text → Nat → Bool → Option (Except Text (Nat × Bool))
  | [], bits, star => some (.ok (bits, star))
  | part :: parts, bits, star =>
    match readPart label lo hi names part with
    | .error e => some (.error e)
    | .ok p =>
      (fill p.step p.last (p.last + 2) p.first bits).bind fun bits =>
        parseParts label lo hi names parts bits (star && !p.explicit && !decide (1 < p.step))

/-- `parse_field`: the bits of the field and whether it is `*`, or the message.  It is `none` when a
loop over the values of an item does not end. -/
def parseField (field label : Text) (lo hi : Nat) (names : Option (List Text)) :
    Option (Except Text (Nat × Bool)) :=
  parseParts label lo hi names (split ',' field) 0 true

/-! ## What a field denotes -/

/-- How a range is written. -/
inductive Range where
  | all
  | single (a : Nat)
  | between (a b : Nat)
  deriving DecidableEq

/-- An item of the list: a range, and the step that is written after it. -/
structure Item where
  range : Range
  step : Option Nat
  deriving DecidableEq

namespace Item

/-- The first value. -/
def first (lo : Nat) (i : Item) : Nat :=
  match i.range with
  | .all => lo
  | .single a => a
  | .between a _ => a

/-- The end of the range: with a step, a single value stands for all from it on. -/
def last (hi : Nat) (i : Item) : Nat :=
  match i.range with
  | .all => hi
  | .single a => if i.step.isSome then hi else a
  | .between _ b => b

/-- The distance of two values. -/
def every (i : Item) : Nat := i.step.getD 1

/-- The values of an item: `a`, `a + n`, `a + 2 * n` and so on, to the end of the range. -/
def Has (lo hi : Nat) (i : Item) (v : Nat) : Prop :=
  ∃ k, v = i.first lo + k * i.every ∧ v ≤ i.last hi

/-- A single value with the step `1`. -/
def one (i : Item) : Bool :=
  match i with
  | ⟨.single _, some 1⟩ => true
  | _ => false

end Item

/-- The value of a number or a name. -/
def value (lo : Nat) (names : Option (List Text)) (tok : Text) : Option Nat :=
  (parseUnsigned 32 tok).or <|
    names.bind fun ns => (ns.findIdx? fun n => eqIgnoreAsciiCase n tok).map
      (· + if lo = 0 then 0 else 1)

/-- How a range reads. -/
def readRange (lo : Nat) (names : Option (List Text)) (r : Text) : Option Range :=
  if r = ['*'] then some .all
  else
    match splitOnce '-' r with
    | some (x, y) => do
      let a ← value lo names (trim x)
      let b ← value lo names (trim y)
      return .between a b
    | none => (value lo names r).map .single

/-- How an item reads. -/
def readItem (lo : Nat) (names : Option (List Text)) (part : Text) : Option Item :=
  match splitOnce '/' (trim part) with
  | some (r, s) => do
    let n ← parseUnsigned 32 (trim s)
    let range ← readRange lo names (trim r)
    return ⟨range, some n⟩
  | none => (readRange lo names (trim part)).map fun range => ⟨range, none⟩

/-- Some item of the field denotes the value. -/
def Denotes (lo hi : Nat) (names : Option (List Text)) (field : Text) (v : Nat) : Prop :=
  ∃ part ∈ split ',' field, ∃ item, readItem lo names part = some item ∧ item.Has lo hi v

/-- Every sum that the loop over the values of a part makes fits a `u32`. -/
def Unwrapped (p : Part) : Prop :=
  ∀ k, (∀ j ≤ k, (bump p.step)^[j] p.first ≤ p.last) →
    (bump p.step)^[k] p.first + p.step < 2 ^ 32

/-- The bits are those of the denoted values, all of them in the range of the field, and no sum of
a loop wraps. -/
structure Exactly (field label : Text) (lo hi : Nat) (names : Option (List Text))
    (bits : Nat) : Prop where
  denoted : ∀ v, bits.testBit v = true ↔ Denotes lo hi names field v
  within : ∀ v, bits.testBit v = true → lo ≤ v ∧ v ≤ hi
  unwrapped : ∀ part ∈ split ',' field, ∀ p, readPart label lo hi names part = .ok p →
    Unwrapped p

/-- The first value of an item and its step fit a `u32` together; and what a single value with the
step `1` denotes after the value is denoted by an item that is not of this form, or is the first
value of an item. -/
structure Fits (lo hi : Nat) (names : Option (List Text)) (field : Text) : Prop where
  sum : ∀ part ∈ split ',' field, ∀ item, readItem lo names part = some item →
    item.first lo + item.every < 2 ^ 32
  one : ∀ part ∈ split ',' field, ∀ item, readItem lo names part = some item →
    item.one = true → ∀ v, item.first lo < v → v ≤ hi →
      ∃ part' ∈ split ',' field, ∃ item', readItem lo names part' = some item' ∧
        (v = item'.first lo ∨ item'.one = false ∧ item'.Has lo hi v)

/-! ## The loop over the values -/

section Loop

variable {step b v : Nat}

theorem bump_of_lt (h : v + step < 2 ^ 32) : bump step v = v + step := Nat.mod_eq_of_lt h

theorem testBit_set (hv : v < 64) (bits w : Nat) :
    (bits ||| 1 <<< (v % 64)).testBit w ↔ bits.testBit w ∨ w = v := by
  rw [Nat.mod_eq_of_lt hv, Nat.testBit_or, Nat.one_shiftLeft, Nat.testBit_two_pow, Bool.or_eq_true,
    decide_eq_true_eq]
  exact or_congr_right eq_comm

theorem fill_of_fits (hb : b < 64) (hstep : 0 < step) :
    ∀ (fuel v bits : Nat), (v ≤ b → v + step < 2 ^ 32) → b < fuel + v →
      ∃ bits', fill step b (fuel + 1) v bits = some bits' ∧
        ∀ w, bits'.testBit w ↔
          bits.testBit w ∨ ∃ k, w = v + k * step ∧ w ≤ b := by
  intro fuel
  induction fuel with
  | zero =>
    intro v bits _ hfuel
    refine ⟨bits, if_neg (by omega), fun w => ⟨Or.inl, ?_⟩⟩
    rintro (h | ⟨k, rfl, hk⟩)
    · exact h
    · exact absurd (Nat.le_add_right v (k * step)) (by omega)
  | succ fuel ih =>
    intro v bits hfit hfuel
    by_cases hv : v ≤ b
    · have hbump : bump step v = v + step := bump_of_lt (hfit hv)
      obtain ⟨bits', hfill, hbits⟩ := ih (v + step) (bits ||| 1 <<< (v % 64))
        (fun h => by omega) (by omega)
      refine ⟨bits', ?_, fun w => ?_⟩
      · rw [fill, if_pos hv, hbump, hfill]
      rw [hbits, testBit_set (by omega), or_assoc]
      refine or_congr_right ⟨?_, ?_⟩
      · rintro (rfl | ⟨k, rfl, hk⟩)
        · exact ⟨0, by omega, hv⟩
        · exact ⟨k + 1, by rw [Nat.succ_mul]; omega, hk⟩
      · rintro ⟨k | k, rfl, hk⟩
        · exact Or.inl (by omega)
        · exact Or.inr ⟨k, by rw [Nat.succ_mul]; omega, hk⟩
    · refine ⟨bits, if_neg hv, fun w => ⟨Or.inl, ?_⟩⟩
      rintro (h | ⟨k, rfl, hk⟩)
      · exact h
      · exact absurd (Nat.le_add_right v (k * step)) (by omega)

theorem fill_down (hb : b < 64) (hstep : step < 2 ^ 32) (hwrap : 2 ^ 32 ≤ b + step) :
    ∀ (fuel v bits : Nat), v < fuel → (fill step b (fuel + 1) v bits).isSome = true := by
  intro fuel
  induction fuel with
  | zero => exact fun v _ h => absurd h v.not_lt_zero
  | succ fuel ih =>
    intro v bits hfuel
    by_cases hv : v ≤ b
    · rw [fill, if_pos hv]
      by_cases hsum : v + step < 2 ^ 32
      · rw [bump_of_lt hsum, fill, if_neg (by omega)]
        rfl
      · have hbump : bump step v = v + step - 2 ^ 32 := by rw [bump]; omega
        rw [hbump]
        exact ih _ _ (by omega)
    · rw [fill, if_neg hv]
      rfl

theorem fill_isSome (hb : b < 64) (hstep : 0 < step) (hstep' : step < 2 ^ 32) (hv : v ≤ b)
    (bits : Nat) : (fill step b (b + 2) v bits).isSome = true := by
  by_cases hwrap : 2 ^ 32 ≤ b + step
  · exact fill_down hb hstep' hwrap (b + 1) v bits (by omega)
  · obtain ⟨bits', hfill, -⟩ := fill_of_fits hb hstep (b + 1) v bits (fun _ => by omega) (by omega)
    rw [hfill]
    rfl

theorem unwrapped_iff {p : Part} (hlast : p.last < 64) (hle : p.first ≤ p.last) :
    Unwrapped p ↔ p.first + p.step < 2 ^ 32 := by
  constructor
  · exact fun h => h 0 fun j hj => by rwa [Nat.le_zero.mp hj]
  · intro hsum k hk
    by_cases hstep : p.step + 63 < 2 ^ 32
    · have := hk k le_rfl
      omega
    · cases k with
      | zero => exact hsum
      | succ k =>
        have h₁ : bump p.step p.first ≤ p.last := hk 1 (Nat.le_add_left 1 k)
        rw [bump_of_lt hsum] at h₁
        omega

end Loop

/-! ## How an item reads -/

section Read

variable {label : Text} {lo hi : Nat} {names : Option (List Text)}

variable {n : Nat} {part range : Text} {p : Part}

theorem valueOf_eq_ok {tok : Text} (h : valueOf label lo names tok = .ok n) :
    value lo names tok = some n := by
  unfold valueOf at h
  rw [value]
  split at h
  · next hn => rw [hn, ← Except.ok.inj h]; rfl
  · next hn =>
      rw [hn, Option.none_or]
      split at h
      · split at h
        · next hi => rw [Option.bind_some, hi, ← Except.ok.inj h]; rfl
        · nomatch h
      · nomatch h

theorem splitStep_eq_ok {step : Nat} (h : splitStep label part = .ok (range, step)) :
    (splitOnce '/' part = none ∧ range = part ∧ step = 1) ∨
      ∃ r s, splitOnce '/' part = some (r, s) ∧ range = trim r ∧
        parseUnsigned 32 (trim s) = some step ∧ 0 < step := by
  rw [splitStep] at h
  split at h
  · next r s hrs =>
      split at h
      · cases h
      · next n hn =>
          split at h
          · cases h
          · next h0 =>
              obtain ⟨rfl, rfl⟩ := Prod.mk.inj (Except.ok.inj h)
              exact Or.inr ⟨r, s, hrs, rfl, hn, Nat.pos_of_ne_zero h0⟩
  · next hnone =>
      obtain ⟨rfl, rfl⟩ := Prod.mk.inj (Except.ok.inj h)
      exact Or.inl ⟨hnone, rfl, rfl⟩

theorem readEnds_eq_ok {step : Nat} (h : readEnds label lo hi names range step = .ok p) :
    p.step = step ∧ ∃ r, readRange lo names range = some r ∧
      match r with
      | .all => p.first = lo ∧ p.last = hi
      | .single a => p.first = a ∧ p.last = if 1 < step then hi else a
      | .between a b => p.first = a ∧ p.last = b := by
  rw [readEnds] at h
  rw [readRange]
  split at h
  · next hstar =>
      rw [if_pos hstar, ← Except.ok.inj h]
      exact ⟨rfl, .all, rfl, rfl, rfl⟩
  · next hstar =>
      rw [if_neg hstar]
      split at h
      · next x y hxy =>
          cases ha : valueOf label lo names (trim x) with
          | error e => rw [ha] at h; cases h
          | ok a =>
            cases hb : valueOf label lo names (trim y) with
            | error e => rw [ha, hb] at h; cases h
            | ok b =>
              rw [ha, hb] at h
              rw [← Except.ok.inj h]
              refine ⟨rfl, .between a b, ?_, rfl, rfl⟩
              simp only [valueOf_eq_ok ha, valueOf_eq_ok hb]
              rfl
      · next hnone =>
          cases ha : valueOf label lo names range with
          | error e => rw [ha] at h; cases h
          | ok a =>
            rw [ha] at h
            rw [← Except.ok.inj h, apply_ite Part.step, ite_self]
            refine ⟨rfl, .single a, ?_, ?_, ?_⟩
            · simp only [valueOf_eq_ok ha]
              rfl
            · rw [apply_ite Part.first, ite_self]
            · rw [apply_ite Part.last]

theorem checkEnds_eq_ok {q : Part} (h : checkEnds label lo hi p = .ok q) :
    q = p ∧ lo ≤ p.first ∧ p.first ≤ p.last ∧ p.last ≤ hi := by
  rw [checkEnds] at h
  split at h
  · nomatch h
  · split at h
    · nomatch h
    · split at h
      · nomatch h
      · exact ⟨(Except.ok.inj h).symm, by omega, by omega, by omega⟩

/-- What an accepted item is to the code. -/
structure ReadAs (lo hi : Nat) (p : Part) (item : Item) : Prop where
  first : p.first = item.first lo
  last : p.last = if item.one then item.first lo else item.last hi
  step : p.step = item.every
  pos : 0 < p.step
  small : p.step < 2 ^ 32
  lo_le : lo ≤ p.first
  le : p.first ≤ p.last
  le_hi : p.last ≤ hi

theorem parseUnsigned_lt {w : Nat} {s : Text} (h : parseUnsigned w s = some n) : n < 2 ^ w := by
  unfold parseUnsigned at h
  simp only at h
  split at h
  · nomatch h
  · split at h
    · next hlt => exact Option.some.inj h ▸ hlt
    · nomatch h

theorem readPart_eq_ok (h : readPart label lo hi names part = .ok p) :
    ∃ item, readItem lo names part = some item ∧ ReadAs lo hi p item := by
  rw [readPart] at h
  simp only at h
  split at h
  · nomatch h
  · cases hs : splitStep label (trim part) with
    | error e => rw [hs] at h; nomatch h
    | ok rs =>
      obtain ⟨range, step⟩ := rs
      cases he : readEnds label lo hi names range step with
      | error e => rw [hs] at h; simp only [bind, Except.bind, he] at h; nomatch h
      | ok q =>
        rw [hs] at h
        simp only [bind, Except.bind, he] at h
        obtain ⟨rfl, hlo, hle, hhi⟩ := checkEnds_eq_ok h
        obtain ⟨hstep, r, hr, hends⟩ := readEnds_eq_ok he
        obtain ⟨hnone, rfl, rfl⟩ | ⟨x, s, hxs, rfl, hn, hpos⟩ := splitStep_eq_ok hs
        · refine ⟨⟨r, none⟩, ?_, ?_⟩
          · simp only [readItem, hnone, hr, Option.map_some]
          · cases r <;>
            exact ⟨hends.1, hends.2, hstep, by omega, by omega, hlo, hle, hhi⟩
        · refine ⟨⟨r, some step⟩, ?_, ?_⟩
          · simp only [readItem, hxs, hn, hr]
            rfl
          · have hsmall := parseUnsigned_lt hn
            cases r with
            | all
            | between a b => exact ⟨hends.1, hends.2, hstep, by omega, by omega, hlo, hle, hhi⟩
            | single a =>
              refine ⟨hends.1, ?_, hstep, by omega, by omega, hlo, hle, hhi⟩
              rw [hends.2]
              by_cases h1 : 1 < step
              · have : (⟨.single a, some step⟩ : Item).one = false := by
                  unfold Item.one
                  split
                  · next heq => injection heq with _ heq; injection heq; omega
                  · rfl
                rw [if_pos h1, this]
                rfl
              · obtain rfl : step = 1 := by omega
                rfl

end Read

/-! ## The fields of an expression -/

section Fields

variable {label : Text} {lo hi : Nat} {names : Option (List Text)}

/-- What the loop over the values of an item sets when no sum wraps. -/
def Item.Sets (lo hi : Nat) (i : Item) (v : Nat) : Prop :=
  v = i.first lo ∨ i.one = false ∧ i.Has lo hi v

variable {item : Item} {p : Part} {bits bits' : Nat} {parts : List Text} {star star' : Bool}

theorem ReadAs.sets_iff (h : ReadAs lo hi p item) (v : Nat) :
    (∃ k, v = p.first + k * p.step ∧ v ≤ p.last) ↔ item.Sets lo hi v := by
  have hle := h.le
  constructor
  · rintro ⟨k, hv, hlast⟩
    cases hone : item.one with
    | true =>
      rw [h.last, hone, if_pos rfl] at hlast
      rw [h.first] at hv
      exact Or.inl (by omega)
    | false =>
      rw [h.last, hone, if_neg Bool.false_ne_true] at hlast
      exact Or.inr ⟨hone, k, h.first ▸ h.step ▸ hv, hlast⟩
  · rintro (rfl | ⟨hone, k, rfl, hlast⟩)
    · exact ⟨0, by rw [h.first, Nat.zero_mul]; rfl, h.first ▸ hle⟩
    · refine ⟨k, by rw [h.first, h.step], ?_⟩
      rwa [h.last, hone, if_neg Bool.false_ne_true]

theorem ReadAs.has_of_sets (h : ReadAs lo hi p item) {v : Nat} (hv : item.Sets lo hi v) :
    item.Has lo hi v := by
  obtain rfl | ⟨-, hv⟩ := hv
  · refine ⟨0, by rw [Nat.zero_mul]; rfl, ?_⟩
    have hle := h.le
    have hhi := h.le_hi
    rw [h.first] at hle
    rw [h.last] at hle hhi
    cases hone : item.one with
    | false => rwa [hone, if_neg Bool.false_ne_true] at hle
    | true =>
      rw [hone, if_pos rfl] at hhi
      unfold Item.one at hone
      split at hone
      · exact hhi
      · nomatch hone
  · exact hv

theorem Item.last_of_one (h : item.one) : item.last hi = hi := by
  unfold Item.one at h
  split at h
  · rfl
  · nomatch h

theorem Item.every_of_one (h : item.one) : item.every = 1 := by
  unfold Item.one at h
  split at h
  · rfl
  · nomatch h

theorem parseParts_isSome (hhi : hi < 64) (parts : List Text) (bits : Nat) (star : Bool) :
    (parseParts label lo hi names parts bits star).isSome = true := by
  induction parts generalizing bits star with
  | nil => rfl
  | cons part parts ih =>
    rw [parseParts]
    cases hp : readPart label lo hi names part with
    | error e => rfl
    | ok p =>
      obtain ⟨item, -, hread⟩ := readPart_eq_ok hp
      have hend : (fill p.step p.last (p.last + 2) p.first bits).isSome :=
        fill_isSome (hread.le_hi.trans_lt hhi) hread.pos hread.small hread.le bits
      obtain ⟨bits', hfill⟩ := Option.isSome_iff_exists.mp hend
      simp only [hfill, Option.bind_some]
      exact ih _ _

theorem parseParts_accepts
    (h : parseParts label lo hi names parts bits star = some (.ok (bits', star'))) :
    ∀ part ∈ parts, ∃ p, readPart label lo hi names part = .ok p := by
  induction parts generalizing bits star with
  | nil => exact fun part hpart => absurd hpart not_mem_nil
  | cons part parts ih =>
    rw [parseParts] at h
    cases hp : readPart label lo hi names part with
    | error e => rw [hp] at h; nomatch h
    | ok p =>
      simp only [hp, Option.bind_eq_some_iff] at h
      obtain ⟨bits'', -, h⟩ := h
      exact forall_mem_cons.mpr ⟨⟨p, hp⟩, ih h⟩

theorem parseParts_sets (hhi : hi < 64)
    (h : parseParts label lo hi names parts bits star = some (.ok (bits', star')))
    (hsum : ∀ part ∈ parts, ∀ item, readItem lo names part = some item →
      item.first lo + item.every < 2 ^ 32) (v : Nat) :
    bits'.testBit v ↔ bits.testBit v ∨
      ∃ part ∈ parts, ∃ item, readItem lo names part = some item ∧ item.Sets lo hi v := by
  induction parts generalizing bits star with
  | nil =>
    rw [parseParts] at h
    obtain ⟨rfl, -⟩ := Prod.mk.inj (Except.ok.inj (Option.some.inj h))
    simp only [not_mem_nil, false_and, exists_false, or_false]
  | cons part parts ih =>
    rw [parseParts] at h
    obtain ⟨hpart, hparts⟩ := forall_mem_cons.mp hsum
    cases hp : readPart label lo hi names part with
    | error e => rw [hp] at h; cases h
    | ok p =>
      obtain ⟨item, hitem, hread⟩ := readPart_eq_ok hp
      have hfit : p.first + p.step < 2 ^ 32 := hread.first ▸ hread.step ▸ hpart item hitem
      obtain ⟨mid, hfill, hmid⟩ := fill_of_fits (hread.le_hi.trans_lt hhi) hread.pos
        (p.last + 1) p.first bits (fun _ => hfit) (by omega)
      simp only [hp, hfill, Option.bind_some] at h
      rw [ih h hparts, hmid, hread.sets_iff, or_assoc]
      simp only [List.mem_cons, or_and_right, exists_or, exists_eq_left, hitem, Option.some.injEq,
        exists_eq_left']

/-- A field that is accepted sets the bits of the values it denotes, and no others, with sums that
do not wrap, just if every first value and its step fit a `u32` together and what `a/1` denotes
after `a` is there by another item.  The answer is always there. -/
theorem parseField_exactly_iff (field label : Text) {lo hi : Nat} (hhi : hi < 64)
    (names : Option (List Text)) :
    ∃ r, parseField field label lo hi names = some r ∧
      ∀ bits star, r = .ok (bits, star) →
        (Exactly field label lo hi names bits ↔ Fits lo hi names field) := by
  have hends : (parseField field label lo hi names).isSome :=
    parseParts_isSome hhi (split ',' field) 0 true
  obtain ⟨r, hr⟩ := Option.isSome_iff_exists.mp hends
  refine ⟨r, hr, ?_⟩
  rintro bits star rfl
  have haccepts := parseParts_accepts hr
  have hreads : ∀ part ∈ split ',' field, ∃ p item, readPart label lo hi names part = .ok p ∧
      readItem lo names part = some item ∧ ReadAs lo hi p item := by
    intro part hpart
    obtain ⟨p, hp⟩ := haccepts part hpart
    obtain ⟨item, hitem, hread⟩ := readPart_eq_ok hp
    exact ⟨p, item, hp, hitem, hread⟩
  have hbits : (∀ part ∈ split ',' field, ∀ item, readItem lo names part = some item →
      item.first lo + item.every < 2 ^ 32) → ∀ v, bits.testBit v = true ↔
      ∃ part ∈ split ',' field, ∃ item, readItem lo names part = some item ∧
        item.Sets lo hi v := by
    intro hsum v
    rw [parseParts_sets hhi hr hsum, Nat.zero_testBit]
    exact or_iff_right Bool.false_ne_true
  constructor
  · rintro ⟨hdenoted, -, hunwrapped⟩
    have hsum : ∀ part ∈ split ',' field, ∀ item, readItem lo names part = some item →
        item.first lo + item.every < 2 ^ 32 := by
      intro part hpart item hitem
      obtain ⟨p, item', hp, hitem', hread⟩ := hreads part hpart
      obtain rfl : item' = item := Option.some.inj (hitem'.symm.trans hitem)
      rw [← hread.first, ← hread.step]
      exact (unwrapped_iff (hread.le_hi.trans_lt hhi) hread.le).mp (hunwrapped part hpart p hp)
    refine ⟨hsum, fun part hpart item hitem hone v hlt hle => ?_⟩
    refine (hbits hsum v).mp ((hdenoted v).mpr ⟨part, hpart, item, hitem, v - item.first lo, ?_, ?_⟩)
    · rw [Item.every_of_one hone]
      omega
    · rwa [Item.last_of_one hone]
  · rintro ⟨hsum, hones⟩
    refine ⟨fun v => ?_, fun v hv => ?_, fun part hpart p hp => ?_⟩
    · rw [hbits hsum]
      constructor
      · rintro ⟨part, hpart, item, hitem, hsets⟩
        obtain ⟨p, item', -, hitem', hread⟩ := hreads part hpart
        obtain rfl : item' = item := Option.some.inj (hitem'.symm.trans hitem)
        exact ⟨part, hpart, item', hitem, hread.has_of_sets hsets⟩
      · rintro ⟨part, hpart, item, hitem, hhas⟩
        cases hone : item.one with
        | false => exact ⟨part, hpart, item, hitem, Or.inr ⟨hone, hhas⟩⟩
        | true =>
          obtain ⟨k, hk, hlast⟩ := hhas
          rw [Item.last_of_one hone] at hlast
          obtain hv | hv : v = item.first lo ∨ item.first lo < v := by omega
          · exact ⟨part, hpart, item, hitem, Or.inl hv⟩
          · exact hones part hpart item hitem hone v hv hlast
    · obtain ⟨part, hpart, item, hitem, hsets⟩ := (hbits hsum v).mp hv
      obtain ⟨p, item', -, hitem', hread⟩ := hreads part hpart
      obtain rfl : item' = item := Option.some.inj (hitem'.symm.trans hitem)
      obtain ⟨k, rfl, hlast⟩ := (hread.sets_iff v).mpr hsets
      exact ⟨hread.lo_le.trans (Nat.le_add_right _ _), hlast.trans hread.le_hi⟩
    · obtain ⟨p', item, hp', hitem, hread⟩ := hreads part hpart
      obtain rfl : p' = p := Except.ok.inj (hp'.symm.trans hp)
      rw [unwrapped_iff (hread.le_hi.trans_lt hhi) hread.le, hread.first, hread.step]
      exact hsum part hpart item hitem

/-- `*/15,7` is the quarters of an hour and the seventh minute. -/
theorem parseField_exactly_quarters :
    Exactly "*/15,7".toList "minute".toList 0 59 none
      (2 ^ 0 + 2 ^ 7 + 2 ^ 15 + 2 ^ 30 + 2 ^ 45) := by
  obtain ⟨r, hr, hiff⟩ :=
    parseField_exactly_iff "*/15,7".toList "minute".toList (by decide : 59 < 64) none
  have hparse : parseField "*/15,7".toList "minute".toList 0 59 none =
      some (.ok (2 ^ 0 + 2 ^ 7 + 2 ^ 15 + 2 ^ 30 + 2 ^ 45, false)) := by decide
  have hsplit : split ',' "*/15,7".toList = ["*/15".toList, "7".toList] := by decide
  have hstar : readItem 0 none "*/15".toList = some ⟨.all, some 15⟩ := by decide
  have hseven : readItem 0 none "7".toList = some ⟨.single 7, none⟩ := by decide
  refine (hiff _ _ (Option.some.inj (hr.symm.trans hparse))).mpr ⟨?_, ?_⟩
  all_goals
    rw [hsplit]
    simp only [List.mem_cons, not_mem_nil, or_false, forall_eq_or_imp, forall_eq, hstar, hseven,
      Option.some.injEq, forall_eq']
  · exact ⟨by decide, by decide⟩
  · exact ⟨by rintro ⟨⟩, by rintro ⟨⟩⟩

-- a step that is written and is `1` is none to the code
example : parseField "5/1" "minute" 0 59 none = some (.ok (2 ^ 5, false)) := by
  decide

/-- `5-59/4294967295` goes down from `5`: the minutes `0` to `5`. -/
theorem parseField_wraps :
    ¬ ∀ (field label : Text) (lo hi : Nat) (names : Option (List Text)), hi < 64 →
      ∃ r, parseField field label lo hi names = some r ∧
        ∀ bits star, r = .ok (bits, star) → Exactly field label lo hi names bits := by
  intro h
  obtain ⟨r, hr, hexact⟩ := h "5-59/4294967295" "minute" 0 59 none (by decide)
  have hparse : parseField "5-59/4294967295" "minute" 0 59 none =
      some (.ok (63, false)) := by decide
  obtain rfl : .ok (63, false) = r := Option.some.inj (hparse.symm.trans hr)
  have hread : readPart "minute" 0 59 none "5-59/4294967295" =
      .ok ⟨5, 59, 4294967295, true⟩ := by decide
  have hwrap := (hexact 63 false rfl).unwrapped "5-59/4294967295" (by decide) _ hread
  exact absurd (hwrap 0 fun j hj => by rw [Nat.le_zero.mp hj]; exact (by decide : 5 ≤ 59))
    (by decide)

end Fields

end Synsema.Cron
