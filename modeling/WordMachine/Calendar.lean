/-
WordMachine/Calendar.lean

Days and times of the proleptic Gregorian calendar, counted from the beginning
of 1970 in universal time.

Design.  The years are taken to begin with March, so that the leap day is the
last day of its year, and are gathered into eras of 400 years or 146097 days,
after which the calendar repeats.  The day within the era then gives the year
of the era, the day of that year and the month by divisions alone.  How the
differences between are taken is left open, so that the same computation can be
done with a subtraction that fails below zero.
-/
import WordMachine.Text.Align

namespace WordMachine

/-- A day of the calendar.  Years are kept modulo `2^32`. -/
structure Date where
  year : Nat
  month : Nat
  day : Nat
  deriving DecidableEq

namespace Date

/-- Days in an era of 400 years. -/
def eraDays : Nat := 146097

/-- The number of the first day of 1970 when days are counted from the first of
March of the year zero. -/
def unixOrigin : Nat := 719468

/-- Day numbers have 64 bits. -/
def dayModulus : Nat := 18446744073709551616

/-- Years have 32 bits. -/
def yearModulus : Nat := 4294967296

/-- The day of an era, which begins with the first of March of its first year,
as the year of the era in which the era's March-based year began, month and
day.  January and February belong to the March-based year before.  The numbers
are unsigned, and `sub` takes their differences. -/
def ofDayOfEraBy {m : Type → Type} [Monad m] (sub : Nat → Nat → m Nat) (doe : Nat) :
    m (Nat × Nat × Nat) := do
  let daysOfFours ← sub doe (doe / 1460)
  let commonDays ← sub (daysOfFours + doe / 36524) (doe / 146096)
  let yearOfEra := commonDays / 365
  let daysBefore ← sub (365 * yearOfEra + yearOfEra / 4) (yearOfEra / 100)
  let dayOfYear ← sub doe daysBefore
  let marchMonth := (5 * dayOfYear + 2) / 153
  let dayOfMonth ← sub dayOfYear ((153 * marchMonth + 2) / 5)
  let month ← if marchMonth < 10 then pure (marchMonth + 3) else sub marchMonth 9
  return (yearOfEra, month, dayOfMonth + 1)

/-- The date `days` days after the first of January 1970.  Day numbers are
signed numbers of 64 bits. -/
def ofUnixDayBy {m : Type → Type} [Monad m] (sub : Nat → Nat → m Nat) (days : Nat) :
    m Date := do
  let z := Int.bmod (days + unixOrigin) dayModulus
  let era := z / eraDays
  let (yearOfEra, month, day) ← ofDayOfEraBy sub (z % eraDays).toNat
  let year : Int := yearOfEra + era * 400 + (if month ≤ 2 then 1 else 0)
  return { year := (year % yearModulus).toNat, month, day }

/-- The date by differences that end at zero. -/
def ofUnixDay (days : Nat) : Date := Id.run (ofUnixDayBy (fun a b => pure (a - b)) days)

end Date

/-- A moment, as the milliseconds since the beginning of 1970. -/
structure Timestamp where
  millis : Nat
  deriving DecidableEq

namespace Timestamp

/-- The moment written as date and time of day. -/
def text (t : Timestamp) : String :=
  let secs := t.millis / 1000
  let date := Date.ofUnixDay (secs / 86400)
  let time := secs % 86400
  Text.decimal 4 date.year ++ "-" ++ Text.decimal 2 date.month ++ "-"
    ++ Text.decimal 2 date.day ++ " " ++ Text.decimal 2 (time / 3600) ++ ":"
    ++ Text.decimal 2 (time / 60 % 60) ++ ":" ++ Text.decimal 2 (time % 60)
    ++ "." ++ Text.decimal 3 (t.millis % 1000)

end Timestamp

end WordMachine
