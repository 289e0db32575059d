import Synsema.Net.Addr
import Synsema.Temporal.Zone

/-!
# Dates and times as texts

How dates and datetimes are shown and read (`synsema-core/src/temporal.rs`).  What chrono writes is as
its formats are documented.
-/

namespace Synsema.Temporal

open Text Gregorian

/-! ## Texts -/

/-- `date`, of a wall clock time. -/
def dateOf (secs : Int) : Date := Date.ofDays (secs / daySecs)

/-- The second of its day. -/
def secOfDay (secs : Int) : Nat := (secs % daySecs).toNat

/-- At least `w` digits. -/
def pad (w n : Nat) : Text := (digits n).leftpad w '0'

/-- `%Y`: four digits, with a sign where they do not say the year. -/
def yearText (y : Int) : Text :=
  if 0 ≤ y ∧ y ≤ 9999 then pad 4 y.toNat
  else (if y < 0 then '-' else '+') :: pad 4 y.natAbs

/-- `%Y-%m-%d`. -/
def dateText (d : Date) : Text := yearText d.year ++ '-' :: (pad2 d.month ++ '-' :: pad2 d.day)

/-- `%.f`: three, six or nine digits, or none. -/
def fractionText (n : Nat) : Text :=
  if n = 0 then []
  else if n % 1000000 = 0 then '.' :: pad 3 (n / 1000000)
  else if n % 1000 = 0 then '.' :: pad 6 (n / 1000)
  else '.' :: pad 9 n

/-- `%H:%M:%S%.f`, where a leap second is second 60 of its minute. -/
def timeText (s frac : Nat) : Text :=
  pad2 (s / 3600) ++ ':' :: (pad2 (s / 60 % 60) ++ ':' ::
    (pad2 (s % 60 + frac / nanos) ++ fractionText (frac % nanos)))

/-- `%Y-%m-%dT%H:%M:%S%.f`. -/
def naiveText (s : Stamp) : Text := dateText (dateOf s.secs) ++ 'T' :: timeText (secOfDay s.secs) s.frac

/-- `to_rfc3339_opts`, of an offset in whole minutes. -/
def rfc3339 (s : Stamp) (off : Int) (useZ : Bool) : Text :=
  naiveText s ++ if useZ && off = 0 then ['Z'] else offsetText off

section Show

variable {db : TzDb}

def rfc3339Local (t : DateTime db) : Except Fault Text :=
  if t.offset % 60 = 0 then .ok (rfc3339 t.localTime t.offset false)
  else do
    let s ← t.naiveLocal
    return naiveText s.1 ++ offsetText t.offset

/-- `Display`, of a datetime. -/
def DateTime.display (t : DateTime db) : Except Fault Text :=
  if t.zone = .utc then .ok (rfc3339 t.localTime t.offset true)
  else
    match t.zone with
    | .fixed .. => rfc3339Local t
    | .iana z => do
      let s ← rfc3339Local t
      return s ++ '[' :: db.name z ++ [']']

end Show

/-! ## Reading -/

/-- The part `i` of the digits of an offset; a part that is not there is zero. -/
def offsetPart (ds : Text) (i : Nat) : Option Nat :=
  if i + 2 ≤ ds.length then Net.parseUnsigned 31 ((ds.drop i).take 2) else some 0

def parseOffset (s : Text) : Option Int :=
  match s with
  | '+' :: rest => unsigned 1 rest
  | '-' :: rest => unsigned (-1) rest
  | _ => none
where
  unsigned (sign : Int) (rest : Text) : Option Int :=
    let ds := rest.filter (· ≠ ':')
    let colons := rest.zipIdx.filterMap fun (c, i) => if c = ':' then some i else none
    let wellPlaced :=
      match ds.length with
      | 2 => colons == []
      | 4 => colons == [] || colons == [2]
      | 6 => colons == [] || colons == [2, 5]
      | _ => false
    if ds.isEmpty || !allDigits ds then none
    else if !wellPlaced then none
    else do
      let h ← offsetPart ds 0
      let m ← offsetPart ds 2
      let sec ← offsetPart ds 4
      if h < 24 ∧ m < 60 ∧ sec < 60 then some (sign * (h * 3600 + m * 60 + sec)) else none

section Read

variable (c : Chrono) (db : TzDb)

def tzOf (name who : Text) : Except Fault (Zone db) :=
  if eqIgnoreAsciiCase name "utc" || eqIgnoreAsciiCase name "z" then .ok .utc
  else
    match parseOffset name with
    | some secs => .ok (.ofOffset secs)
    | none =>
      match db.parse name with
      | some z => .ok (.iana z)
      | none => fail [who, ": unknown time zone ", c.debug name,
          (" — use an IANA name like \"America/Buenos_Aires\", \"Europe/Madrid\" or \"UTC\", " ++
            "or a fixed offset like \"+05:30\"").toList]

/-- A text cut before the first of some characters. -/
def cutAtFirst (p : Char → Bool) : Text → Option (Text × Text)
  | [] => none
  | x :: s => if p x then some ([], x :: s) else (cutAtFirst p s).map fun (l, r) => (x :: l, r)

/-- A text cut before the last of some characters. -/
def cutAtLast (p : Char → Bool) : Text → Option (Text × Text)
  | [] => none
  | x :: s =>
    match cutAtLast p s with
    | some (l, r) => some (x :: l, r)
    | none => if p x then some ([], x :: s) else none

/-- The formats of `parse_local`. -/
def localFormats : List Text :=
  ["%Y-%m-%dT%H:%M:%S%.f", "%Y-%m-%dT%H:%M", "%Y-%m-%d %H:%M:%S%.f", "%Y-%m-%d %H:%M"].map
    String.toList

/-- The formats of `parse_with_offset`. -/
def offsetFormats : List Text := localFormats ++ ["%Y-%m-%dt%H:%M:%S%.f".toList]

/-- `FixedOffset::east_opt`. -/
def eastOpt (secs : Int) : Option FixedOffset :=
  if h : -daySecs < secs ∧ secs < daySecs then some ⟨secs, h⟩ else none

def parseWithOffset (s : Text) : Option (Naive × FixedOffset) :=
  match c.parseRfc3339 s with
  | some dt => some dt
  | none => do
    let (day, rest) ← cutAtFirst (fun c => c = 'T' || c = 't' || c = ' ') s
    let (time, offset) ← cutAtLast (fun c => c = '+' || c = '-') rest
    let secs ← parseOffset offset
    let off ← eastOpt secs
    let naive ← offsetFormats.findSome? fun f => c.parseNaive f (day ++ time)
    let instant ← naive.checkedShift (-off.1)
    return (instant, off)

variable {db}

def parseLocal (s : Text) (z : Zone db) (who : Text) : Option (Except Fault (DateTime db)) :=
  match localFormats.findSome? fun f => c.parseNaive f s with
  | some naive => some (localToDt c z naive who)
  | none => (c.parseDate s).map fun d => localToDtForward c z (d.andTime .min) who

/-- A text that is no date-time. -/
def notIso (t who : Text) : Except Fault (DateTime db) :=
  fail [who, ": ", c.debug t, (" is not an ISO 8601 date-time (\"2026-01-03T10:00:00Z\", " ++
    "\"2026-01-03T10:00:00-03:00\", \"2026-01-03T10:00:00[Europe/Madrid]\", or local time plus a " ++
    "zone); for other formats: parse_datetime(text, format, tz)").toList]

/-- With a zone in brackets. -/
def parseBracketed (t body name who : Text) : Except Fault (DateTime db) := do
  let zone ← tzOf c db name who
  match parseWithOffset c body with
  | some (instant, off) =>
    let inZone := zone.offset instant.1
    let exactInstant := endsWith ['Z'] body || endsWith ['z'] body
    if !exactInstant && inZone ≠ off.1 then
      fail [who, ": ", c.debug t, ": the offset ", c.showOffset off.1,
        " does not match ", zone.name, " at that instant (", c.showOffset inZone,
        (") — drop the offset to read the local time in that zone, or drop the zone to keep the " ++
          "offset").toList]
    else .ok ⟨instant, zone⟩
  | none => (parseLocal c body zone who).getD (notIso c t who)

/-- Without one. -/
def parseUnbracketed (t s : Text) (tz : Option (Zone db)) (who : Text) : Except Fault (DateTime db) :=
  match parseWithOffset c s with
  | some (instant, off) => .ok ⟨instant, tz.getD (.ofOffset off.1)⟩
  | none => (parseLocal c s (tz.getD .utc) who).getD (notIso c t who)

def parseIsoDatetime (t : Text) (tz : Option (Zone db)) (who : Text) : Except Fault (DateTime db) :=
  let s := trim t
  match cutAtLast (· = '[') s with
  | some (body, bracket) =>
    if endsWith [']'] s then do
      let dt ← parseBracketed c t (trim body) bracket.tail.dropLast who
      return ⟨dt.instant, tz.getD dt.zone⟩
    else parseUnbracketed c t s tz who
  | none => parseUnbracketed c t s tz who

def parseIsoDate (t who : Text) : Except Fault NaiveDate :=
  match c.parseDate (trim t) with
  | some d => .ok d
  | none => fail [who, ": ", c.debug t, (" is not a date in the form YYYY-MM-DD (for other " ++
      "formats: parse_date(text, format))").toList]

end Read

end Synsema.Temporal
