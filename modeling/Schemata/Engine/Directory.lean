import Schemata.Document.Migration
import Schemata.EngineName
import Schemata.Store.Disk

/-! Migrations in files: one directory for each engine, one file for each migration.

A file has the name of its migration and belongs to the engine of its directory; one that cannot be read
or says otherwise is a failure of the whole directory. A file that is there is never overwritten. -/
namespace Schemata.Engine
open Store

/-- The ending of the files that hold migrations. -/
def fileExtension : String := "toml"

/-- The elements in the order of their keys. -/
def inOrder {α : Type} (key : α → String) (l : List α) : List α :=
  l.mergeSort fun a b => key a ≤ key b

namespace Directory

/-- The directory of an engine's migrations. -/
def ofEngine (directory : Path) (engine : String) : Except Failure Path := do
  EngineName.check engine
  return directory.join engine

/-- What is in the directory at the path; nothing when it is not there. -/
def contents (d : Disk) (path : Path) : Except Failure (List (String × Node)) :=
  match d.exists? path with
  | none => .error .io
  | some false => .ok []
  | some true =>
    match d.list? path with
    | some entries => .ok entries
    | none => .error .io

/-- The engines that have a directory, by name. -/
def engines (d : Disk) (directory : Path) : Except Failure (List String) := do
  let entries ← contents d directory
  let named := entries.filter fun e => e.2 = .directory && EngineName.isValid e.1
  return inOrder id (named.map Prod.fst)

/-- The migration in the file at the path. -/
def readMigration (d : Disk) (path : Path) : Except Failure Migration :=
  match path.stem? with
  | none => .error .pathWithoutName
  | some stem =>
    match d.read? path with
    | none => .error .io
    | some text =>
      match Migration.ofToml text with
      | .error .unreadable => .error (.unreadableFile path)
      | .error failure => .error failure
      | .ok m => if m.name = stem then .ok m else .error (.nameMismatch path m.name)

/-- The migration in the file at the path, which is in the directory of the engine. -/
def readOwn (d : Disk) (engine : String) (path : Path) : Except Failure Migration := do
  let m ← readMigration d path
  if m.database = engine then return m else throw (.databaseMismatch path m.database engine)

/-- The paths of the files that hold an engine's migrations, by name. -/
def paths (d : Disk) (directory : Path) (engine : String) : Except Failure (List Path) := do
  let own ← ofEngine directory engine
  let entries ← contents d own
  let named := (inOrder Prod.fst entries).map fun e => own.join e.1
  return named.filter fun p => p.extension? == some fileExtension

/-- The migrations of an engine, in the order of their files. -/
def migrations (d : Disk) (directory : Path) (engine : String) : Except Failure (List Migration) := do
  (← paths d directory engine).mapM (readOwn d engine)

/-- The migrations of all engines that have a directory. -/
def allMigrations (d : Disk) (directory : Path) : Except Failure (List Migration) := do
  return (← (← engines d directory).mapM (migrations d directory)).flatten

def find (d : Disk) (directory : Path) (engine name : String) : Except Failure Migration := do
  match (← migrations d directory engine).find? (·.name == name) with
  | some m => return m
  | none => throw (.notFound name)

/-- Writes a new file for the migration, and gives its path. -/
def writeMigration (directory : Path) (m : Migration) : EStateM Failure Disk Path := fun d =>
  match ofEngine directory m.database with
  | .error failure => .error failure d
  | .ok own =>
    match d.makeDirectory? own with
    | none => .error .io d
    | some d =>
      let path := own.join (m.name ++ "." ++ fileExtension)
      match d.look path with
      | .free place => .ok path (d.put place (.text m.toToml))
      | .found _ _ => .error (.alreadyWritten path) d
      | _ => .error .io d

end Directory

end Schemata.Engine
