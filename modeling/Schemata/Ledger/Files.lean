import Schemata.EngineName
import Schemata.Ledger.Entry
import Schemata.Store.Disk

/-! A ledger of files in one directory: for each engine a document of its entries, and a lock.

A document is replaced as a whole, by way of a file beside it. A lock is a file that nobody else could
have made, and it is there for as long as the lock is held. -/
namespace Schemata.Ledger.Files
open Store

/-- Work on a disk. When it fails, what it did before stays done. -/
abbrev Work (α : Type) := EStateM Failure Disk α

def entriesPath (directory : Path) (engine : String) : Except Failure Path := do
  EngineName.check engine
  return directory.join (engine ++ ".toml")

def lockPath (directory : Path) (engine : String) : Except Failure Path := do
  EngineName.check engine
  return directory.join (engine ++ ".lock")

/-! ### Entries -/

/-- The entries of the file at the path, which are all of the engine. -/
def readFile (d : Disk) (path : Path) (engine : String) : Except Failure (List Entry) :=
  match d.exists? path with
  | none => .error .io
  | some false => .ok []
  | some true =>
    match d.read? path with
    | none => .error .io
    | some text => do
      let entries ← read text
      match entries.find? (·.engine ≠ engine) with
      | some foreign => .error (.foreignEntry path foreign.engine)
      | none => .ok entries

/-- The entries of an engine, in the order in which they were recorded. -/
def applied (d : Disk) (directory : Path) (engine : String) : Except Failure (List Entry) := do
  readFile d (← entriesPath directory engine) engine

def last? (d : Disk) (directory : Path) (engine : String) : Except Failure (Option Entry) := do
  return (← applied d directory engine).getLast?

/-- Puts a text in the place of a file, by way of a file beside it. -/
def replace (d : Disk) (path : Path) (text : String) : Option Disk := do
  let beside := path ++ ".tmp"
  let written ← d.write? beside (.text text)
  (← written.remove? beside).write? path (.text text)

def record (directory : Path) (e : Entry) : Work Unit := fun d =>
  match applied d directory e.engine, entriesPath directory e.engine with
  | .error failure, _ | _, .error failure => .error failure d
  | .ok entries, .ok path =>
    match d.makeDirectory? directory with
    | none => .error .io d
    | some d =>
      match replace d path (write (entries ++ [e])) with
      | some d => .ok () d
      | none => .error .io d

/-! ### Locks -/

/-- Takes the lock of an engine. The directory of the ledger is made first, whatever comes of it. -/
def acquire (directory : Path) (engine : String) (now : Calendar.Instant) : Work Unit := fun d =>
  match d.makeDirectory? directory with
  | none => .error .io d
  | some d =>
    match lockPath directory engine with
    | .error failure => .error failure d
    | .ok path =>
      match d.look path with
      | .free place => .ok () (d.put place (.text s!"acquired_at = \"{now.rfc3339}\"\n"))
      | .found _ _ => .error (.locked engine path) d
      | _ => .error .io d

/-- Gives the lock of an engine back. -/
def release (directory : Path) (engine : String) (d : Disk) : Disk :=
  match lockPath directory engine with
  | .error _ => d
  | .ok path => (d.remove? path).getD d

end Schemata.Ledger.Files
