import Schemata.Ledger.Files
import Schemata.Ledger.Memory

/-! What the engine works on: a disk, a clock and a ledger.

The ledger is either in memory or in a directory of the disk, and both are used through the same four
operations. -/
namespace Schemata.Engine
open Store Ledger

structure World where
  disk : Disk := .empty
  now : Calendar.Instant
  memory : Memory := {}

/-- Work on a world. When it fails, what it did before stays done. -/
abbrev Work (α : Type) := EStateM Failure World α

/-- Work on the disk of a world. -/
def World.onDisk {α : Type} (work : EStateM Failure Disk α) : Work α := fun w =>
  match work w.disk with
  | .ok a d => .ok a { w with disk := d }
  | .error failure d => .error failure { w with disk := d }

/-- Where the ledger is. -/
inductive LedgerPlace
  | memory
  | directory (path : Path)
  deriving DecidableEq

namespace LedgerPlace

/-- The entries of an engine, in the order in which they were recorded. -/
def applied : LedgerPlace → World → String → Except Failure (List Entry)
  | .memory, w, engine => .ok (w.memory.applied engine)
  | .directory path, w, engine => Files.applied w.disk path engine

def last? (l : LedgerPlace) (w : World) (engine : String) : Except Failure (Option Entry) :=
  (l.applied w engine).map List.getLast?

/-- Records at the time of the clock that a migration was applied. -/
def record (l : LedgerPlace) (migration engine checksum : String) : Work Unit := fun w =>
  let e : Entry := ⟨migration, engine, checksum, w.now⟩
  match l with
  | .memory => .ok () { w with memory := w.memory.record e }
  | .directory path => World.onDisk (Files.record path e) w

def acquire (l : LedgerPlace) (engine : String) : Work Unit := fun w =>
  match l with
  | .memory =>
    match w.memory.acquire engine with
    | .ok m => .ok () { w with memory := m }
    | .error failure => .error failure w
  | .directory path => World.onDisk (Files.acquire path engine w.now) w

def release (l : LedgerPlace) (engine : String) (w : World) : World :=
  match l with
  | .memory => { w with memory := w.memory.release engine }
  | .directory path => { w with disk := Files.release path engine w.disk }

end LedgerPlace

end Schemata.Engine
