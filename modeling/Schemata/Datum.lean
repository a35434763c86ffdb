import Schemata.Collection.Keyed
import Schemata.Number.Binary64

/-! Trees of data: what is left of a document once its text is read.

Values are written as data and read back from data member by member. Reading is strict: a value that is
missing, of the wrong type or out of range gives nothing. Three places differ in how loosely a record or
a bare word may be spelled (`Spelling`); in each the normal spelling is a record for a structure and a word
for a case without parameters. -/
namespace Schemata

inductive Datum
  | null
  | bool (value : Bool)
  | int (value : Int)
  | float (value : Binary64)
  | text (value : String)
  /-- A date, a time or both. Nothing is read from it, so only that it was one is kept. -/
  | moment
  | list (items : List Datum)
  | record (members : List (String × Datum))
  deriving Inhabited

/-- Where a value is spelled. -/
inductive Spelling
  /-- On its own, as one value among the arguments of a request. -/
  | request
  /-- As part of a change of a migration. -/
  | change
  /-- In a file of models, entries or settings, or around the changes of a migration. -/
  | file
  deriving DecidableEq

/-- The members of a record. -/
abbrev Members := List (String × Datum)

namespace Datum

/-! ### Single values -/

def text? : Datum → Option String
  | .text s => some s
  | _ => none

def bool? : Datum → Option Bool
  | .bool b => some b
  | _ => none

/-- An integer from `low` up to, and not including, `high`. -/
def intIn? (low high : Int) : Datum → Option Int
  | .int n => if low ≤ n ∧ n < high then some n else none
  | _ => none

def word32? (d : Datum) : Option UInt32 :=
  (d.intIn? 0 0x100000000).map fun n => UInt32.ofNat n.toNat

def byte? (d : Datum) : Option UInt8 :=
  (d.intIn? 0 0x100).map fun n => UInt8.ofNat n.toNat

def int64? (d : Datum) : Option Int64 :=
  (d.intIn? (-0x8000000000000000) 0x8000000000000000).map Int64.ofInt

/-- A number; an integer stands for the nearest one. -/
def float? : Datum → Option Binary64
  | .float x => some x
  | .int n => some (.ofDecimal (decide (n < 0)) n.natAbs 0)
  | _ => none

def listOf? {α : Type} (read : Datum → Option α) : Datum → Option (List α)
  | .list items => items.mapM read
  | _ => none

/-! ### Records -/

/-- The members of a record whose members are declared in the order of `names`. A list stands for a
record with as many of the members as it is long; only in a file may it be longer than that. -/
def members? (spelling : Spelling) (names : List String) : Datum → Option Members
  | .record members => some members
  | .moment => some []
  | .list items =>
    if items.length ≤ names.length || spelling == .file then some (names.zip items) else none
  | _ => none

/-! ### Cases -/

/-- The name of a case, with its parameters if it has any: a bare word, or a record of one member. -/
def case? : Datum → Option (String × Option Datum)
  | .text name => some (name, none)
  | .record [(name, parameters)] => some (name, some parameters)
  | _ => none

/-- Whether the parameters of a case without parameters are spelled as there being none. -/
def isUnit (spelling : Spelling) : Option Datum → Bool
  | none => true
  | some .null => true
  | some (.record []) => spelling != .request
  | some (.list []) => spelling == .file
  | some _ => false

/-- The parameters of a case that has named parameters; a file may name no others. -/
def parameters? (spelling : Spelling) (names : List String) (d : Datum) : Option Members :=
  match d with
  | .record members =>
    if spelling == .file && members.any (fun m => !names.contains m.1) then none else some members
  | _ => d.members? spelling names

end Datum

namespace Members

def get? (ms : Members) (name : String) : Option Datum := Keyed.find name ms

/-- A member that has to be there. -/
def required {α : Type} (ms : Members) (name : String) (read : Datum → Option α) : Option α :=
  (ms.get? name).bind read

/-- A member that may be left out, for `fallback`. -/
def defaulted {α : Type} (ms : Members) (name : String) (read : Datum → Option α) (fallback : α) :
    Option α :=
  match ms.get? name with
  | some d => read d
  | none => some fallback

/-- A member that may be left out or null. -/
def optional {α : Type} (ms : Members) (name : String) (read : Datum → Option α) :
    Option (Option α) :=
  ms.defaulted name (fun d => match d with
    | .null => some none
    | d => (read d).map some) none

/-- A flag, off when it is left out. -/
def flag (ms : Members) (name : String) : Option Bool := ms.defaulted name Datum.bool? false

/-! ### Writing -/

/-- A member that is written when there is a value. -/
def ofOption {α : Type} (name : String) (write : α → Datum) (value : Option α) : Members :=
  (value.map fun a => (name, write a)).toList

/-- A member that is written when it is on. -/
def ofFlag (name : String) (value : Bool) : Members :=
  if value then [(name, .bool true)] else []

end Members

end Schemata
