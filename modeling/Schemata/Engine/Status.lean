import Schemata.Engine.Migrate

/-! Where engines stand, and whether their histories are sound. -/
namespace Schemata.Engine

structure Status where
  engine : String
  /-- The entries of the ledger, the oldest first. -/
  applied : List Ledger.Entry
  /-- The migrations to be applied, in order. -/
  pending : List String
  /-- The last migration of the chain. -/
  head : Option String

def Status.isUpToDate (s : Status) : Bool := s.pending.isEmpty

def status (s : Settings) (w : World) (engine : String) : Except Failure Status := do
  let p ← position s w engine
  return ⟨engine, p.entries, p.pending.map (·.name), p.chain.getLast?.map (·.name)⟩

/-- What a sound history comes to. -/
structure Check where
  engine : String
  migrations : Nat
  models : Nat

/-- Resolves and replays the history of an engine. -/
def check (s : Settings) (w : World) (engine : String) : Except Failure Check := do
  let chain ← loadChain s w engine
  let state ← Replay.run chain
  return ⟨engine, chain.length, state.size⟩

/-- Checks the engines in order, up to the first whose history is not sound. All names are looked at
before any history is. -/
def checkAll (s : Settings) (w : World) (engines : List String) : Except Failure (List Check) := do
  engines.forM EngineName.check
  engines.mapM (check s w)

end Schemata.Engine
