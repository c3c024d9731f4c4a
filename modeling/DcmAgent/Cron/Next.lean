import Mathlib.Tactic
import DcmAgent.Cron.Parse
import DcmAgent.Library.Calendar

/-!
# The next firing of a pattern

`dcmCronParseGetNext` moves a broken-down time forward, field by field, until every field is in
its set. `dcmCronParseDoNext` calls itself whenever it has moved a field, and resets the lower
fields that it has found in place before. Every change of a field normalises the calendar with
`timegm`.
-/

namespace DcmAgent.Cron

open Library

/-- `gmtime_r` fails when the year is no `int`. -/
def dcmCronParseTime (date : ℤ) : Option Tm :=
  let out := gmtime date
  if out.year < 2 ^ 31 then some out else none

/-- The calendar fields. -/
inductive Field where
  | second
  | minute
  | hourOfDay
  | dayOfWeek
  | dayOfMonth
  | month
  | year
  deriving DecidableEq, Repr

def cronMaxSeconds : ℕ := 60

def cronMaxMinutes : ℕ := 60

def cronMaxHours : ℕ := 24

def cronMaxMonths : ℕ := 12

def cronMaxYearsDiff : ℤ := 4

/-- Normalise the calendar after a change. `-1` is the error value of `mktime`, and also a time. -/
def normalize (calendar : Tm) : Bool × Tm :=
  let res := timegm calendar
  (res ≠ -1, gmtime res)

/-- Store a value in a field. -/
def putField (calendar : Tm) (field : Field) (val : ℤ) : Tm :=
  match field with
  | .second => { calendar with sec := val }
  | .minute => { calendar with min := val }
  | .hourOfDay => { calendar with hour := val }
  | .dayOfWeek => { calendar with wday := val }
  | .dayOfMonth => { calendar with mday := val }
  | .month => { calendar with mon := val }
  | .year => { calendar with year := val }

def dcmCronParseResetMin (calendar : Tm) (field : Field) : Bool × Tm :=
  normalize (putField calendar field (if field = .dayOfMonth then 1 else 0))

/-- Reset the fields in order, up to the first error. -/
def dcmCronParseResetAllMin (calendar : Tm) : List Field → Bool × Tm
  | [] => (true, calendar)
  | field :: fields =>
    let r := dcmCronParseResetMin calendar field
    if r.1 then dcmCronParseResetAllMin r.2 fields else r

def dcmCronParseSetField (calendar : Tm) (field : Field) (val : ℤ) : Bool × Tm :=
  normalize (putField calendar field val)

/-- Add to a field; the day of the week moves with the day of the month. -/
def dcmCronParseAddToField (calendar : Tm) (field : Field) (val : ℤ) : Bool × Tm :=
  normalize <| match field with
    | .second => { calendar with sec := calendar.sec + val }
    | .minute => { calendar with min := calendar.min + val }
    | .hourOfDay => { calendar with hour := calendar.hour + val }
    | .dayOfWeek | .dayOfMonth => { calendar with mday := calendar.mday + val }
    | .month => { calendar with mon := calendar.mon + val }
    | .year => { calendar with year := calendar.year + val }

/-- The calendar, unless there was an error. -/
def checked (r : Bool × Tm) : Option Tm := if r.1 then some r.2 else none

/-- Add a field to the resets. -/
def dcmCronParsePushToFieldsArr (arr : List Field) (fi : Field) : List Field :=
  if fi ∈ arr then arr else arr ++ [fi]

/-- The first set bit in `[fromIndex, max)`. -/
def dcmCronParseNextSetBit (bits : Bits) (max fromIndex : ℕ) : Option ℕ :=
  (List.range' fromIndex (max - fromIndex)).find? (dcmCronParseGetBit bits)

/-- Set a field to a new value and reset the lower orders. -/
def moveField (calendar : Tm) (field : Field) (val : ℕ) (lowerOrders : List Field) : Option Tm :=
  (checked (dcmCronParseSetField calendar field val)).bind fun calendar =>
    checked (dcmCronParseResetAllMin calendar lowerOrders)

/-- The next set value of a field; the next field is advanced when there is none left. -/
def dcmCronParseFindNext (bits : Bits) (max value : ℕ) (calendar : Tm) (field nextField : Field)
    (lowerOrders : List Field) : Option (ℕ × Tm) :=
  match dcmCronParseNextSetBit bits max value with
  | some next =>
    if next ≠ value then
      (moveField calendar field next lowerOrders).map fun calendar => (next, calendar)
    else some (next, calendar)
  | none =>
    -- roll over
    (checked (dcmCronParseAddToField calendar nextField 1)).bind fun calendar =>
      (checked (dcmCronParseResetMin calendar field)).bind fun calendar =>
        match dcmCronParseNextSetBit bits max 0 with
        | some next =>
          if next ≠ value then
            (moveField calendar field next lowerOrders).map fun calendar => (next, calendar)
          else some (next, calendar)
        | none => (moveField calendar field 0 lowerOrders).map fun calendar => (0, calendar)

/-- The loop of the day search, with the number of steps left. An error of the resets is
ignored. -/
def findNextDayLoop (daysOfMonth daysOfWeek : Bits) (resets : List Field) :
    ℕ → Tm → ℕ → ℕ → Option (ℕ × Tm)
  | 0, calendar, dayOfMonth, _ => some (dayOfMonth, calendar)
  | count + 1, calendar, dayOfMonth, dayOfWeek =>
    if ¬dcmCronParseGetBit daysOfMonth dayOfMonth ∨ ¬dcmCronParseGetBit daysOfWeek dayOfWeek then
      (checked (dcmCronParseAddToField calendar .dayOfMonth 1)).bind fun calendar =>
        findNextDayLoop daysOfMonth daysOfWeek resets count
          (dcmCronParseResetAllMin calendar resets).2 calendar.mday.toNat calendar.wday.toNat
    else some (dayOfMonth, calendar)

def dcmCronParseFindNextDay (calendar : Tm) (daysOfMonth : Bits) (dayOfMonth : ℕ)
    (daysOfWeek : Bits) (dayOfWeek : ℕ) (resets : List Field) : Option (ℕ × Tm) :=
  findNextDayLoop daysOfMonth daysOfWeek resets 366 calendar dayOfMonth dayOfWeek

/-- After the search of a field: note that it is in place, or start over. -/
def settle (recur : Tm → Option Tm) (resets : List Field) (field : Field) (old new : ℕ)
    (calendar : Tm) : Option (List Field × Tm) :=
  if old = new then some (dcmCronParsePushToFieldsArr resets field, calendar)
  else (recur calendar).map fun calendar => (resets, calendar)

/-- The search, with a bound on the depth of the recursion. `dot` is the year of the start. -/
def dcmCronParseDoNext (expr : DcmCronExpr) (dot : ℤ) : ℕ → Tm → Option Tm
  | 0, _ => none
  | fuel + 1, calendar => do
    let recur := dcmCronParseDoNext expr dot fuel
    let second := calendar.sec.toNat
    let (updateSecond, calendar) ← dcmCronParseFindNext expr.seconds cronMaxSeconds second
      calendar .second .minute []
    let resets := if second = updateSecond then [Field.second] else []
    let minute := calendar.min.toNat
    let (updateMinute, calendar) ← dcmCronParseFindNext expr.minutes cronMaxMinutes minute
      calendar .minute .hourOfDay resets
    let (resets, calendar) ← settle recur resets .minute minute updateMinute calendar
    let hour := calendar.hour.toNat
    let (updateHour, calendar) ← dcmCronParseFindNext expr.hours cronMaxHours hour
      calendar .hourOfDay .dayOfWeek resets
    let (resets, calendar) ← settle recur resets .hourOfDay hour updateHour calendar
    let dayOfMonth := calendar.mday.toNat
    let (updateDayOfMonth, calendar) ← dcmCronParseFindNextDay calendar expr.daysOfMonth
      dayOfMonth expr.daysOfWeek calendar.wday.toNat resets
    let (resets, calendar) ← settle recur resets .dayOfMonth dayOfMonth updateDayOfMonth calendar
    let month := calendar.mon.toNat
    let (updateMonth, calendar) ← dcmCronParseFindNext expr.months cronMaxMonths month
      calendar .month .year resets
    if month = updateMonth then some calendar
    -- the difference is unsigned
    else if (calendar.year - dot) % 2 ^ 32 > cronMaxYearsDiff then none
    else recur calendar

/-- More than the seconds in the ten years that a search can cross. -/
def searchFuel : ℕ := 10 * 366 * 86400

def cronInvalidInstant : ℤ := -1

def dcmCronParseGetNext (expr : DcmCronExpr) (date : ℤ) : ℤ :=
  match dcmCronParseTime date with
  | none => cronInvalidInstant
  | some calendar =>
    let original := timegm calendar
    if original = cronInvalidInstant then cronInvalidInstant
    else
      match dcmCronParseDoNext expr calendar.year searchFuel calendar with
      | none => cronInvalidInstant
      | some calendar =>
        let calculated := timegm calendar
        if calculated = cronInvalidInstant then cronInvalidInstant
        else if calculated = original then
          -- round up to the next second and try again
          match checked (dcmCronParseAddToField calendar .second 1) with
          | none => cronInvalidInstant
          | some calendar =>
            match dcmCronParseDoNext expr calendar.year searchFuel calendar with
            | none => cronInvalidInstant
            | some calendar => timegm calendar
        else calculated

end DcmAgent.Cron
