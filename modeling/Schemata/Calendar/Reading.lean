import Schemata.Calendar.Instant
import Schemata.Text.Blank

/-! Reading a point in time from a date, a time of day and an offset.

The form is that of RFC 3339 taken loosely: blanks may stand around the numbers, numbers may have fewer
digits than usual, a blank or a letter T comes before the time, and the offset may be called UTC. A second
of sixty is a leap second, at the end of any minute. -/
namespace Schemata.Calendar
open Text

/-! ### Numbers and marks -/

def skipBlanks (cs : List Char) : List Char := cs.dropWhile isBlank

/-- A number of one to `most` digits. -/
def number? (most : Nat) (cs : List Char) : Option (Nat × List Char) :=
  let digits := (cs.takeWhile isDigit).take most
  if digits.isEmpty then none else some (digitsValue digits, cs.drop digits.length)

/-- A number in the range, after blanks. -/
def part? (low high : Nat) (cs : List Char) : Option (Nat × List Char) := do
  let (n, rest) ← number? 2 (skipBlanks cs)
  if low ≤ n ∧ n ≤ high then some (n, rest) else none

def mark? (mark : Char) (cs : List Char) : Option (List Char) :=
  match skipBlanks cs with
  | c :: rest => if c = mark then some rest else none
  | [] => none

/-! ### Date and time -/

/-- A year: four digits at most, or a sign and any number of them. -/
def year? (cs : List Char) : Option (Int × List Char) :=
  match skipBlanks cs with
  | '-' :: rest => (number? rest.length rest).map fun r => (-(r.1 : Int), r.2)
  | '+' :: rest => (number? rest.length rest).map fun r => ((r.1 : Int), r.2)
  | rest => (number? 4 rest).map fun r => ((r.1 : Int), r.2)

def date? (cs : List Char) : Option (Date × List Char) := do
  let (year, cs) ← year? cs
  let (month, cs) ← part? 1 12 (← mark? '-' cs)
  let (day, cs) ← part? 1 (daysInMonth year month) (← mark? '-' cs)
  return (⟨year, month, day⟩, cs)

/-- The fraction of a second in nanoseconds, digits behind the ninth being passed over. -/
def fraction? : List Char → Option (Nat × List Char)
  | '.' :: cs =>
    let digits := cs.takeWhile isDigit
    if digits.isEmpty then none
    else some (digitsValue ((digits ++ List.replicate 9 '0').take 9), cs.drop digits.length)
  | cs => some (0, cs)

/-- The second of the day and the nanoseconds on top. -/
def timeOfDay? (cs : List Char) : Option (Nat × Nat × List Char) := do
  let (hour, cs) ← part? 0 23 cs
  let (minute, cs) ← part? 0 59 (← mark? ':' cs)
  let (second, cs) ← part? 0 60 (← mark? ':' cs)
  let (nanos, cs) ← fraction? cs
  return (hour * 3600 + minute * 60 + min second 59,
    nanos + (if second = 60 then 1000000000 else 0), cs)

/-- Hours and minutes of an offset, in seconds. -/
def hoursAndMinutes? : List Char → Option (Int × List Char)
  | a :: b :: cs =>
    match cs.dropWhile fun c => c == ':' || isBlank c with
    | c :: d :: rest =>
      let hours := digitsValue [a, b]
      let minutes := digitsValue [c, d]
      if [a, b, c, d].all isDigit ∧ minutes < 60 then
        some ((hours * 3600 + minutes * 60 : Nat), rest)
      else none
    | _ => none
  | _ => none

/-- The offset from universal time, in seconds. -/
def offset? (cs : List Char) : Option (Int × List Char) :=
  match skipBlanks cs with
  | 'Z' :: rest | 'z' :: rest => some (0, rest)
  | '+' :: rest => hoursAndMinutes? rest
  | '-' :: rest | '−' :: rest => (hoursAndMinutes? rest).map fun r => (-r.1, r.2)
  | u :: t :: c :: rest =>
    if [u, t, c].map Char.toUpper = ['U', 'T', 'C'] then some (0, rest) else none
  | _ => none

/-! ### Both together -/

def isSeparator (c : Char) : Bool := c == 'T' || c == 't' || c == ' '

/-- The point in time that a text names. Dates have to lie in the range for which dates are formed, and
offsets are less than a day. -/
def Instant.read? (text : String) : Option Instant := do
  let (date, cs) ← date? text.toList
  match cs with
  | [] => none
  | c :: cs =>
    let (second, nanos, cs) ← timeOfDay? cs
    let (offset, rest) ← offset? cs
    let localSeconds := date.toDays * 86400 + second
    if isSeparator c ∧ offset.natAbs < 86400 ∧ (skipBlanks rest).isEmpty ∧
        inRange localSeconds ∧ inRange (localSeconds - offset) then
      some ⟨localSeconds - offset, nanos⟩
    else none

end Schemata.Calendar
