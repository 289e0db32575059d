import Synsema.Cron.Field
import Synsema.Temporal.Chrono

/-!
# Cron expressions

`CronExpr` (`synsema-stdlib/src/cronexpr.rs`): an expression is read, and the next instant at which
it runs is looked for.  The search goes over wall clock times and jumps over months, days and hours
that have no part in the expression.

A wall clock time is the number of its seconds, as if it were in UTC.  What chrono has no date for
is `none` where the code asks for it, and a panic where it adds.  A zone that is not UTC or a fixed
offset is a table of `chrono_tz`: of it the code sees the instants that show a wall clock time.
-/

namespace Synsema.Cron

open Text Gregorian Temporal

/-! ## Expressions -/

structure CronExpr where
  minutes : Nat
  hours : Nat
  dom : Nat
  months : Nat
  dow : Nat
  domStar : Bool
  dowStar : Bool
  /-- The minutes or the hours start with `*`. -/
  wild : Bool
  source : Text
  deriving DecidableEq

/-- `MONTHS`. -/
def monthNames : List Text :=
  ["jan", "feb", "mar", "apr", "may", "jun", "jul", "aug", "sep", "oct", "nov", "dec"].map
    String.toList

/-- `DAYS`. -/
def dayNames : List Text := ["sun", "mon", "tue", "wed", "thu", "fri", "sat"].map String.toList

/-- `alias`. -/
def aliasOf (name : Text) : Except Text Text :=
  if name = "@yearly" ∨ name = "@annually" then .ok "0 0 1 1 *"
  else if name = "@monthly" then .ok "0 0 1 * *"
  else if name = "@weekly" then .ok "0 0 * * 0"
  else if name = "@daily" ∨ name = "@midnight" then .ok "0 0 * * *"
  else if name = "@hourly" then .ok "0 * * * *"
  else if name = "@reboot" then
    .error "unknown alias \"@reboot\" (use cron_after(0, task) to run once at start)"
  else .error ("unknown alias " ++ quoted name)

def splitWhitespace (s : Text) : List Text := (s.splitOnP isWhitespace).filter fun w => !w.isEmpty

/-- The expression of five fields. -/
def parseFields (source minute hour day month weekday : Text) :
    Option (Except Text CronExpr) := do
  let field (f label : Text) (lo hi : Nat) (names : Option (List Text)) :
      ExceptT Text Option (Nat × Bool) := parseField f label lo hi names
  ExceptT.run do
    let (minutes, _) ← field minute "minute" 0 59 none
    let (hours, _) ← field hour "hour" 0 23 none
    let (dom, domStar) ← field day "day" 1 31 none
    let (months, _) ← field month "month" 1 12 (some monthNames)
    let (dow, dowStar) ← field weekday "weekday" 0 7 (some dayNames)
    -- `7` is Sunday too
    let days := dow &&& 0x7f
    let days := if dow &&& 1 <<< 7 ≠ 0 then days ||| 1 else days
    let wild := startsWith ['*'] minute || startsWith ['*'] hour
    return ⟨minutes, hours, dom, months, days, domStar, dowStar, wild, source⟩

/-- `parse`; it is `none` when a field has no answer. -/
def parse (expr : Text) : Option (Except Text CronExpr) :=
  let src := trim expr
  let body : Except Text Text :=
    if startsWith ['@'] src then aliasOf (toAsciiLowercase src) else .ok src
  match body with
  | .error e => some (.error e)
  | .ok body =>
    match splitWhitespace body with
    | [minute, hour, day, month, weekday] => parseFields src minute hour day month weekday
    | fields => some (.error ("expected 5 fields (minute hour day month weekday), got " ++
        digits fields.length))

/-! ## Wall clock times -/

/-- `date`. -/
def dateOf (n : Int) : Date := Date.ofDays (n / daySecs)

/-- `hour`. -/
def hourOf (n : Int) : Nat := (n % daySecs / 3600).toNat

/-- `minute`. -/
def minuteOf (n : Int) : Nat := (n % 3600 / 60).toNat

/-- `weekday`, from Sunday: 1970-01-01 was a Thursday. -/
def weekdayOf (n : Int) : Nat := ((n / daySecs + 4) % 7).toNat

/-- How a search ends without a time. -/
inductive Halt where
  | none
  | panic
  /-- It does not end. -/
  | loops
  deriving DecidableEq

/-- `from_timestamp`, with `?`. -/
def timestamp (n : Int) : Except Halt Int :=
  if minSecs ≤ n ∧ n < maxSecs then .ok n else .error .none

/-- `+`. -/
def plus (n d : Int) : Except Halt Int :=
  if minSecs ≤ n + d ∧ n + d < maxSecs then .ok (n + d) else .error .panic

/-! ## The search -/

def horizonSecs : Int := 5 * 366 * 86400

def maxOffsetSecs : Int := 15 * 3600

namespace CronExpr

def dayMatches (e : CronExpr) (n : Int) : Bool :=
  let domOk : Bool := e.dom &&& 1 <<< (dateOf n).day ≠ 0
  let dowOk : Bool := e.dow &&& 1 <<< weekdayOf n ≠ 0
  match e.domStar, e.dowStar with
  | true, true => true
  | false, true => domOk
  | true, false => dowOk
  | false, false => domOk || dowOk

/-- The loop of `next_local`. -/
def scan (e : CronExpr) (limit : Int) : Nat → Int → Except Halt Int
  | 0, _ => .error .loops
  | fuel + 1, t =>
    if limit < t then .error .none
    else if e.months &&& 1 <<< (dateOf t).month = 0 then
      let (y, m) := nextMonth (dateOf t).year (dateOf t).month
      -- the first of the next month, at midnight
      if minYear ≤ y ∧ y ≤ maxYear then scan e limit fuel (monthStart y m * daySecs)
      else .error .none
    else if !e.dayMatches t then
      if (t / daySecs + 1) * daySecs < maxSecs then scan e limit fuel ((t / daySecs + 1) * daySecs)
      else .error .none
    else if e.hours &&& 1 <<< hourOf t = 0 then do
      let t ← plus (t / 3600 * 3600) 3600
      scan e limit fuel t
    else if e.minutes &&& 1 <<< minuteOf t = 0 then do
      let t ← plus t 60
      scan e limit fuel t
    else .ok t

def nextLocal (e : CronExpr) (start limit : Int) : Except Halt Int := do
  let t ← plus (start / 60 * 60) 60
  scan e limit (((limit - t) / 60).toNat + 2) t

end CronExpr

/-! ## Zones -/

inductive Zone where
  | utc
  | fixed (offset : FixedOffset)
  | iana (tz : Tz)

/-- `find_map` over the minutes after `n`: the first that is shown, at its first instant. -/
def firstShown (tz : Tz) (n : Int) : Nat → Nat → Except Halt (Option Int)
  | 0, _ => .ok none
  | r + 1, k => do
    let m ← plus n (60 * k)
    match (tz.fromLocal m).earliest with
    | some t => return some t
    | none => firstShown tz n r (k + 1)

namespace CronExpr

def instants (e : CronExpr) (n : Int) (tz : Tz) : Except Halt (List Int) :=
  match tz.fromLocal n with
  | .single t => .ok [t]
  | .ambiguous a b => .ok (if e.wild then [a, b] else [a])
  | .none => if e.wild then .ok [] else (firstShown tz n (26 * 60) 1).map Option.toList

/-- The smaller one, if it is after `after`. -/
def better (after : Int) (best : Option Int) (t : Int) : Option Int :=
  if after < t ∧ best.all (t < ·) then some t else best

/-- The loop of `next_after` in a zone with changes. -/
def search (e : CronExpr) (tz : Tz) (after limit : Int) :
    Nat → Int → Option Int → Except Halt (Option Int)
  | 0, _, _ => .error .loops
  | fuel + 1, n, best =>
    match e.nextLocal n limit with
    | .error .none => .ok best
    | .error h => .error h
    | .ok m =>
      if best.any (· + maxOffsetSecs < m) then .ok best
      else do
        let ts ← e.instants m tz
        search e tz after limit fuel m (ts.foldl (better after) best)

/-- `next_after`, where the offset does not change. -/
def nextAtOffset (e : CronExpr) (after off : Int) : Except Halt Int := do
  let start ← timestamp (after + off)
  let limit ← plus start horizonSecs
  let n ← e.nextLocal start limit
  return n - off

def nextAfter (e : CronExpr) (after : Int) (zone : Zone) : Except Halt Int :=
  match zone with
  | .fixed off => e.nextAtOffset after off.1
  | .utc => e.nextAtOffset after 0
  | .iana tz => do
    let start ← timestamp (after - maxOffsetSecs)
    let limit ← timestamp (after + horizonSecs)
    match ← e.search tz after limit (((limit - start) / 60).toNat + 2) start none with
    | some t => return t
    | none => .error .none

end CronExpr

end Synsema.Cron
