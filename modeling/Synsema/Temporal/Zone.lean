import Synsema.Temporal.Chrono

/-!
# Datetimes and their zones

The instants with a zone of `synsema-core/src/temporal.rs`, and how a wall clock time becomes one.  The
zones of `chrono_tz` are a parameter (`TzDb`), and so is what chrono reads and how it shows a value in a
message (`Chrono`).
-/

namespace Synsema.Temporal

open Text Gregorian

/-! ## What is not the program's -/

/-- The zones of `chrono_tz`. -/
structure TzDb where
  Zone : Type
  eq : DecidableEq Zone
  /-- `Tz::UTC`. -/
  utc : Zone
  /-- `name`. -/
  name : Zone → Text
  /-- `parse::<Tz>`. -/
  parse : Text → Option Zone
  rules : Zone → Tz

instance (db : TzDb) : DecidableEq db.Zone := db.eq

/-- What chrono reads, and its texts in messages. -/
structure Chrono where
  /-- `DateTime::parse_from_rfc3339`: the instant and its offset. -/
  parseRfc3339 : Text → Option (Naive × FixedOffset)
  /-- `NaiveDateTime::parse_from_str`, with a format. -/
  parseNaive : Text → Text → Option Naive
  /-- `NaiveDate::parse_from_str`, with `%Y-%m-%d`. -/
  parseDate : Text → Option NaiveDate
  /-- `{:?}` of a text. -/
  debug : Text → Text
  /-- `{}` of a wall clock time. -/
  showNaive : Naive → Text
  /-- `{}` of an offset. -/
  showOffset : Int → Text

/-- How a call ends without a value. -/
inductive Fault where
  | err (message : Text)
  | panic
  deriving DecidableEq

/-- `err`, of a text in pieces. -/
def fail {α : Type} (pieces : List Text) : Except Fault α := .error (.err pieces.flatten)

/-- What an operator of chrono returns: it panics where there is no value. -/
def orPanic {α : Type} (o : Option α) : Except Fault α := o.elim (.error .panic) .ok

/-! ## Zones -/

/-- `Zone`: a zone of `chrono_tz`, or an offset that is not zero. -/
inductive Zone (db : TzDb) where
  | iana (z : db.Zone)
  | fixed (off : FixedOffset) (h : off.1 ≠ 0)
  deriving DecidableEq

/-- Two digits. -/
def pad2 (n : Nat) : Text := [Nat.digitChar (n / 10), Nat.digitChar (n % 10)]

def offsetText (secs : Int) : Text :=
  let a := secs.natAbs
  let hm := pad2 (a / 3600) ++ ':' :: pad2 (a / 60 % 60)
  (if secs < 0 then '-' else '+') :: if a % 60 = 0 then hm else hm ++ ':' :: pad2 (a % 60)

namespace Zone

variable {db : TzDb}

def utc : Zone db := iana db.utc

/-- `Zone::fixed`. -/
def ofOffset (secs : Int) : Zone db :=
  if h : (-daySecs < secs ∧ secs < daySecs) ∧ secs ≠ 0 then fixed ⟨secs, h.1⟩ h.2 else utc

def name : Zone db → Text
  | iana z => db.name z
  | fixed off _ => offsetText off.1

/-- `offset_from_utc_datetime`. -/
def offset (z : Zone db) (s : Stamp) : Int :=
  match z with
  | iana z => (db.rules z).offset s.secs
  | fixed off _ => off.1

/-- `offset_from_local_datetime`. -/
def offsetFromLocal (z : Zone db) (s : Stamp) : LocalResult Int :=
  match z with
  | iana z => ((db.rules z).fromLocal s.secs).andThen fun t => some (s.secs - t)
  | fixed off _ => .single off.1

/-- `from_local_datetime`. -/
def fromLocal (z : Zone db) (s : Naive) : LocalResult Naive :=
  (z.offsetFromLocal s.1).andThen fun off => s.checkedShift (-off)

theorem shift_of_fromLocal {z : Zone db} {s t : Naive} (h : t ∈ (z.fromLocal s).values) :
    t.1.shift (z.offset t.1) = s.1 := by
  obtain ⟨off, hoff, hback⟩ := LocalResult.mem_values_andThen h
  rw [Naive.checkedShift_eq_some] at hback
  cases z with
  | iana z =>
    obtain ⟨a, ha, hdiff⟩ := LocalResult.mem_values_andThen hoff
    obtain rfl := Option.some.inj hdiff
    have hshow := (db.rules z).shows_of_mem ha
    have hsecs : t.1.secs = a := by
      rw [hback]
      change s.1.secs + -(s.1.secs - a) = a
      omega
    have hz : offset (iana z) t.1 = s.1.secs - a := by
      rw [offset, hsecs]
      omega
    rw [hz, hback, Stamp.shift_of_neg]
  | fixed off' _ =>
    obtain rfl := List.mem_singleton.mp hoff
    rw [offset, hback, Stamp.shift_of_neg]

end Zone

/-! ## Datetimes -/

/-- `DateTime<Zone>`. -/
@[ext]
structure DateTime (db : TzDb) where
  instant : Naive
  zone : Zone db

namespace DateTime

variable {db : TzDb}

/-- The offset of its zone. -/
def offset (t : DateTime db) : Int := t.zone.offset t.instant.1

/-- The time that the clocks show; `overflowing_naive_local`. -/
def localTime (t : DateTime db) : Stamp := t.instant.1.shift t.offset

def naiveLocal (t : DateTime db) : Except Fault Naive := orPanic (t.instant.checkedShift t.offset)

end DateTime

section Local

variable (c : Chrono) {db : TzDb} (z : Zone db)

def localToDt (s : Naive) (who : Text) : Except Fault (DateTime db) :=
  match z.fromLocal s with
  | .single t => .ok ⟨t, z⟩
  | .ambiguous first _ => .ok ⟨first, z⟩
  | .none => fail [who, ": ", c.showNaive s, " does not exist in ", z.name,
      " (it falls in a daylight-saving gap)"]

def localToDtForward (s : Naive) (who : Text) : Except Fault (DateTime db) :=
  match z.fromLocal s with
  | .none => do
    let before ← orPanic (s.checkedAdd (-(daySecs * nanos)))
    let utc ← orPanic (s.checkedAdd (-(z.offset before.1 * nanos)))
    return ⟨utc, z⟩
  | _ => localToDt c z s who

end Local

end Synsema.Temporal
