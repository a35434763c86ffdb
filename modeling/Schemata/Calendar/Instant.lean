import Schemata.Calendar.Date
import Schemata.Text.Digits

/-! Points in time, to the nanosecond, and the texts that stand for them.

Texts are in universal time. A year from 0 to 9999 has four digits; any other has a sign and five digits
at least. `Instant.stamp` is the digits alone, as in the name of a migration; `Instant.rfc3339` is what
a ledger keeps. -/
namespace Schemata.Calendar
open Text

/-- Seconds from 1970-01-01T00:00:00Z and nanoseconds on top. From a thousand million nanoseconds on,
the instant lies in the leap second that follows. -/
structure Instant where
  seconds : Int
  nanos : Nat
  deriving DecidableEq, Repr

def Instant.ofSeconds (seconds : Int) : Instant := ⟨seconds, 0⟩

/-- The seconds of the years −262143 to 262142, outside of which no date is formed. -/
def inRange (seconds : Int) : Bool := -8334601228800 ≤ seconds && seconds ≤ 8210266876799

def yearDigits (year : Int) : List Char :=
  if 0 ≤ year && year ≤ 9999 then paddedDigits 4 year.toNat
  else (if year < 0 then '-' else '+') :: paddedDigits (if year < 0 then 4 else 5) year.natAbs

def Instant.date (t : Instant) : Date := Date.ofDays (t.seconds / 86400)

def Instant.secondOfDay (t : Instant) : Nat := (t.seconds % 86400).toNat

def Instant.hour (t : Instant) : Nat := t.secondOfDay / 3600

def Instant.minute (t : Instant) : Nat := t.secondOfDay / 60 % 60

/-- The second of the minute; sixty in a leap second. -/
def Instant.second (t : Instant) : Nat := t.secondOfDay % 60 + t.nanos / 1000000000

/-- Year, month, day, hour, minute and second, in digits alone. -/
def Instant.stampDigits (t : Instant) : List Char :=
  yearDigits t.date.year ++ paddedDigits 2 t.date.month ++ paddedDigits 2 t.date.day ++
    paddedDigits 2 t.hour ++ paddedDigits 2 t.minute ++ paddedDigits 2 t.second

def Instant.stamp (t : Instant) : String := String.ofList t.stampDigits

/-- The fraction of the second, in three, six or nine digits; nothing when there is none. -/
def Instant.fraction (t : Instant) : List Char :=
  let n := t.nanos % 1000000000
  if n = 0 then []
  else if n % 1000000 = 0 then '.' :: paddedDigits 3 (n / 1000000)
  else if n % 1000 = 0 then '.' :: paddedDigits 6 (n / 1000)
  else '.' :: paddedDigits 9 n

/-- Date, `separator`, and time of day without its fraction. -/
def Instant.dateAndTime (t : Instant) (separator : Char) : List Char :=
  yearDigits t.date.year ++ '-' :: paddedDigits 2 t.date.month ++ '-' :: paddedDigits 2 t.date.day ++
    separator :: paddedDigits 2 t.hour ++ ':' :: paddedDigits 2 t.minute ++
    ':' :: paddedDigits 2 t.second

def Instant.rfc3339 (t : Instant) : String :=
  String.ofList (t.dateAndTime 'T' ++ t.fraction ++ ['Z'])

/-- Date and time for readers, to the second. -/
def Instant.plain (t : Instant) : String := String.ofList (t.dateAndTime ' ')

end Schemata.Calendar
