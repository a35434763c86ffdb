import Schemata.Calendar.Instant
import Schemata.Failure
import Schemata.History.Label
import Schemata.History.Migration

/-! Names of migrations: a number, a time and a label, joined by underscores.

The number has four digits at least and the time has fourteen. A name that a person chose may have any
form; it has then no number (`Migration.sequence?`). The next name of a history has a number above those
of all names before it; when the highest of them is the last that there is, there is no next name. -/
namespace Schemata
open Text Calendar

structure MigrationName where
  sequence : UInt32
  /-- Year, month, day, hour, minute and second, in digits alone. -/
  timestamp : String
  label : String
  deriving DecidableEq, Repr

namespace MigrationName

/-- The characters before the first underscore, and those behind it. -/
def cut? (cs : List Char) : Option (List Char × List Char) :=
  match cs.dropWhile (· ≠ '_') with
  | [] => none
  | _ :: rest => some (cs.takeWhile (· ≠ '_'), rest)

def parse? (name : String) : Option MigrationName := do
  let (sequence, rest) ← cut? name.toList
  let (timestamp, label) ← cut? rest
  let number := digitsValue sequence
  if sequence.length ≥ 4 ∧ sequence.all isDigit ∧ timestamp.length = 14 ∧ timestamp.all isDigit ∧
      ¬ label.isEmpty ∧ number < 0x100000000 then
    some ⟨UInt32.ofNat number, String.ofList timestamp, String.ofList label⟩
  else none

def parse (name : String) : Except Failure MigrationName :=
  match parse? name with
  | some parsed => .ok parsed
  | none => .error (.malformedName name)

/-- The name with that number, time and label. -/
def generate (sequence : UInt32) (time : Instant) (label : String) : String :=
  padded 4 sequence.toNat ++ "_" ++ time.stamp ++ "_" ++ Label.ofText label

end MigrationName

/-- The number in the migration's name, if it has one. -/
def Migration.sequence? (m : Migration) : Option UInt32 :=
  (MigrationName.parse? m.name).map (·.sequence)

/-- The last number of all. -/
def lastNumber : UInt32 := 4294967295

/-- The number that the next one comes right after: the highest of all names, or the length of the history. -/
def highestNumber (history : List Migration) : UInt32 :=
  max ((history.filterMap Migration.sequence?).foldl max 0) (UInt32.ofNat history.length)

/-- The number for a migration behind those of the history. Nothing guards the addition: behind the last number
the program ends. -/
def nextSequence (history : List Migration) : Except Failure UInt32 :=
  if highestNumber history = lastNumber then .error .overflow else .ok (highestNumber history + 1)

def nextName (history : List Migration) (label : String) (time : Instant) : Except Failure String := do
  return MigrationName.generate (← nextSequence history) time label

end Schemata
