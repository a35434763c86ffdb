import Schemata.Change.Apply
import Schemata.Failure
import Schemata.History.Migration

/-! The state that a history leads to, its changes applied one after the other to the empty state.

A change that does not apply stops the replay, and the failure names its migration and its position. -/
namespace Schemata.Replay

/-- The state after the changes of one migration. -/
def step (s : State) (m : Migration) : Except Failure State :=
  match Change.applyAll m.changes s with
  | .ok s' => .ok s'
  | .error (index, conflict) => .error (.replay m.name index conflict)

/-- The state after the migrations, in the order of the list. -/
def run (migrations : List Migration) : Except Failure State :=
  migrations.foldlM step Ascending.empty

/-- The migrations up to and with the named one. -/
def upTo? (migrations : List Migration) (name : String) : Option (List Migration) :=
  match migrations.dropWhile (·.name ≠ name) with
  | [] => none
  | m :: _ => some (migrations.takeWhile (·.name ≠ name) ++ [m])

/-- The state after the named migration. -/
def runTo (migrations : List Migration) (name : String) : Except Failure State :=
  match upTo? migrations name with
  | some history => run history
  | none => .error (.notFound name)

/-- The state after the migration that was applied last, or the empty state when none was. -/
def through (migrations : List Migration) : Option String → Except Failure State
  | some name => runTo migrations name
  | none => .ok Ascending.empty

end Schemata.Replay
