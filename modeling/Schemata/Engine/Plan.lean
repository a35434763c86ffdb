import Schemata.Diff.Between
import Schemata.Engine.Directory
import Schemata.Engine.World
import Schemata.History.Chain
import Schemata.History.Name
import Schemata.History.Replay

/-! New migrations from live models.

A plan compares the live models with the state that the whole chain leads to, whether it was applied or
not, for the new migration is built on the last one written. Making a migration writes the file of the
plan; it takes no lock and leaves the ledger alone. -/
namespace Schemata.Engine
open Store

structure Settings where
  /-- Where the migrations are. -/
  directory : Path
  ledger : LedgerPlace
  dryRun : Bool := false
  /-- Whether nobody is to be warned of changes that drop data. -/
  allowDestructive : Bool := false

structure Plan where
  engine : String
  diff : Diff
  /-- The migration to be written, if anything changed. -/
  migration : Option Migration := none
  /-- The file that it was written to. -/
  path : Option Path := none
  warnings : List String := []

def Plan.summary (p : Plan) : String :=
  match p.migration with
  | some m => s!"{m.name}: {p.diff.summary}"
  | none => "No changes detected"

/-- The chain of an engine's migrations. -/
def loadChain (s : Settings) (w : World) (engine : String) : Except Failure (List Migration) := do
  Chain.resolve engine (← Directory.migrations w.disk s.directory engine)

/-- What to know of migrations that were not applied yet. -/
def unappliedWarning (chain : List Migration) (applied : List Ledger.Entry) : List String :=
  let unapplied := chain.countP fun m => !applied.any (·.migration == m.name)
  if unapplied = 0 then []
  else [s!"{unapplied} migration(s) not applied yet; the new migration builds on them"]

/-- What to know of changes that drop data. -/
def destructiveWarnings (d : Diff) : List String :=
  (d.changes.filter Change.isDestructive).map fun c =>
    c.describe ++ " drops data and cannot be reversed"

/-- The migration of that name that a difference makes at the end of a chain. -/
def migrationBehind (engine : String) (chain : List Migration) (d : Diff) (name : String) : Migration where
  name
  database := engine
  parent := chain.getLast?.map (·.name)
  changes := d.changes

/-- The migration that a difference makes at the end of a chain. -/
def nextMigration (engine : String) (chain : List Migration) (d : Diff) (label : Option String)
    (now : Calendar.Instant) : Except Failure Migration := do
  let name ← nextName chain (label.getD (Label.suggest d.changes chain.isEmpty)) now
  return migrationBehind engine chain d name

def plan (s : Settings) (w : World) (engine : String) (models : List Model)
    (label : Option String) : Except Failure Plan := do
  let chain ← loadChain s w engine
  let baseline ← Replay.run chain
  let diff ← (Diff.between baseline models).mapError Failure.ofLive
  if diff.isEmpty then return { engine, diff }
  let applied ← s.ledger.applied w engine
  let migration ← nextMigration engine chain diff label w.now
  return {
    engine, diff, migration
    warnings := unappliedWarning chain applied ++
      if s.allowDestructive then [] else destructiveWarnings diff }

/-- Writes the migration that the live models ask for; when they ask for none, that is a failure. -/
def make (s : Settings) (engine : String) (models : List Model) (label : Option String) : Work Plan :=
  fun w =>
    match plan s w engine models label with
    | .error failure => .error failure w
    | .ok p =>
      match p.migration with
      | none => .error .noChanges w
      | some m =>
        if s.dryRun then .ok p w
        else
          match World.onDisk (Directory.writeMigration s.directory m) w with
          | .ok path w => .ok { p with path := some path } w
          | .error failure w => .error failure w

end Schemata.Engine
