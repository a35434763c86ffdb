import Schemata.Engine.Adapter
import Schemata.Engine.Plan
import Schemata.Ledger.Verify

/-! Applying the migrations of an engine that were not applied yet.

The lock of the engine is held from the beginning to the end, whatever happens. Before the first change is
executed the ledger is held against the chain and the whole chain is replayed. A migration is recorded
when all of its changes were executed, and not before. -/
namespace Schemata.Engine

/-- A world and a connection. -/
structure Session (γ : Type) where
  world : World
  connection : γ

structure Report where
  engine : String
  applied : List String := []
  /-- The migrations that a dry run would apply. -/
  planned : List String := []
  /-- The number of changes that were executed. -/
  changes : Nat := 0
  /-- The time taken, by the clock of the world. -/
  milliseconds : Nat := 0
  warnings : List String := []

namespace Report

def hasChanges (r : Report) : Bool := !r.applied.isEmpty

def summary (r : Report) : String :=
  if !r.planned.isEmpty then s!"[DRY RUN] {r.planned.length} pending"
  else if r.applied.isEmpty then "No migrations applied"
  else s!"{r.applied.length} applied ({r.changes} actions) in {r.milliseconds}ms"

/-- The report with one more migration applied. -/
def add (r : Report) (m : Migration) : Report :=
  { r with applied := r.applied ++ [m.name], changes := r.changes + m.changes.length }

/-- The report of a dry run. -/
def dry (engine : String) (pending : List Migration) : Report where
  engine
  planned := pending.map (·.name)
  warnings := pending.map fun m => "[DRY RUN] Would apply: " ++ m.name

end Report

/-- The chain of an engine, the migration that was applied last, and those behind it. -/
structure Position where
  chain : List Migration
  last : Option String
  entries : List Ledger.Entry
  pending : List Migration

/-- Where an engine stands, if its ledger fits its chain. -/
def position (s : Settings) (w : World) (engine : String) : Except Failure Position := do
  let chain ← loadChain s w engine
  let entries ← s.ledger.applied w engine
  let last ← Ledger.verify engine chain entries
  return ⟨chain, last, entries, ← Chain.pending engine chain last⟩

/-- What is pending and the schema that it starts from, if the whole chain replays. -/
def prepare (s : Settings) (w : World) (engine : String) :
    Except Failure (List Migration × State) := do
  let p ← position s w engine
  let _ ← Replay.run p.chain
  return (p.pending, ← Replay.through p.chain p.last)

section Sessions
variable {γ : Type}

def onWorld {α : Type} (work : Work α) : EStateM Failure (Session γ) α := fun t =>
  match work t.world with
  | .ok a w => .ok a { t with world := w }
  | .error failure w => .error failure { t with world := w }

def onConnection {ε α : Type} (work : EStateM ε γ α) : EStateM ε (Session γ) α := fun t =>
  match work t.connection with
  | .ok a c => .ok a { t with connection := c }
  | .error failure c => .error failure { t with connection := c }

/-- The adapter in a session, where it has nothing to do with the world. -/
def Adapter.inSession (A : Adapter γ) : Adapter (Session γ) where
  transactional := A.transactional
  begin := onConnection A.begin
  commit := onConnection A.commit
  rollback := onConnection A.rollback
  apply c schema := onConnection (A.apply c schema)

/-- Executes migrations one after the other, and records each when it is done. -/
def applyAll (l : LedgerPlace) (A : Adapter (Session γ)) (engine : String) :
    List Migration → State → Report → EStateM Failure (Session γ) Report
  | [], _, report => pure report
  | m :: rest, schema, report => do
    let after ← A.run m schema
    onWorld (l.record m.name engine m.checksum)
    applyAll l A engine rest after (report.add m)

/-- What is done while the lock is held. -/
def migrateLocked (s : Settings) (A : Adapter (Session γ)) (engine : String) :
    EStateM Failure (Session γ) Report := fun t =>
  match prepare s t.world engine with
  | .error failure => .error failure t
  | .ok (pending, schema) =>
    if s.dryRun then .ok (.dry engine pending) t
    else applyAll s.ledger A engine pending schema { engine } t

/-- Runs `work` while the lock of the engine is held. -/
def withLock {α : Type} (l : LedgerPlace) (engine : String) (work : EStateM Failure (Session γ) α) :
    EStateM Failure (Session γ) α := fun t =>
  match onWorld (l.acquire engine) t with
  | .error failure t => .error failure t
  | .ok _ t =>
    match work t with
    | .ok a t => .ok a { t with world := l.release engine t.world }
    | .error failure t => .error failure { t with world := l.release engine t.world }

/-- Applies the pending migrations of an engine through an adapter that may work on the world too. -/
def migrateIn (s : Settings) (A : Adapter (Session γ)) (engine : String) :
    EStateM Failure (Session γ) Report :=
  withLock s.ledger engine (migrateLocked s A engine)

/-- Applies the pending migrations of an engine. -/
def migrate (s : Settings) (A : Adapter γ) (engine : String) : EStateM Failure (Session γ) Report :=
  migrateIn s A.inSession engine

end Sessions

end Schemata.Engine
