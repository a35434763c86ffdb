import Schemata.Collection.Ascending
import Schemata.Datum
import Schemata.Store.Path

/-! The settings of a project: where its migrations and ledgers are, and the models of its engines.

Whatever a file of settings leaves out has a usual value. Paths in it are seen from the directory that the
file is in. -/
namespace Schemata.Console
open Store

/-- The usual name of a file of settings. -/
def settingsFile : String := "stratum.toml"

structure EngineSettings where
  name : String
  /-- The file that lists the live models. -/
  models : Option Path

structure ProjectSettings where
  directory : Path := "migrations"
  ledgerDirectory : Path := ".stratum"
  /-- The engine where none is named. -/
  defaultEngine : String := "default"
  engines : Ascending EngineSettings.name := .empty
  /-- The directory from which the paths are seen. -/
  root : Path := ""

namespace ProjectSettings

/-! ### Reading -/

/-- The settings about migrations in a document. -/
def withMigrations (p : ProjectSettings) (d : Datum) : Option ProjectSettings := do
  let ms ← d.members? .file ["directory", "ledger_dir", "default_engine"]
  return { p with
    directory := ← ms.defaulted "directory" Datum.text? p.directory
    ledgerDirectory := ← ms.defaulted "ledger_dir" Datum.text? p.ledgerDirectory
    defaultEngine := ← ms.defaulted "default_engine" Datum.text? p.defaultEngine }

def engineOfDatum? (name : String) (d : Datum) : Option EngineSettings := do
  let ms ← d.members? .file ["models"]
  return ⟨name, ← ms.optional "models" Datum.text?⟩

/-- The settings with the engines of a document. -/
def withEngines (p : ProjectSettings) : Datum → Option ProjectSettings
  | .record ms => do
    return { p with engines := .ofList (← ms.mapM fun m => engineOfDatum? m.1 m.2) }
  | _ => none

/-- The settings that a document in the directory `root` makes. -/
def ofDatum? (root : Path) (d : Datum) : Option ProjectSettings := do
  let ms ← d.members? .file ["migrations", "engines"]
  let p : ProjectSettings := { root }
  let p ← ms.defaulted "migrations" p.withMigrations p
  ms.defaulted "engines" p.withEngines p

/-! ### Use -/

def migrationsDirectory (p : ProjectSettings) : Path := p.root.join p.directory

def ledgersDirectory (p : ProjectSettings) : Path := p.root.join p.ledgerDirectory

/-- The engines that a command is about: the one that is named, or all, or the default one. -/
def selectEngines (p : ProjectSettings) : Option String → List String
  | some engine => [engine]
  | none =>
    if p.engines.isEmpty then [p.defaultEngine] else p.engines.toList.map EngineSettings.name

/-- The file with the models of an engine. -/
def modelsPath? (p : ProjectSettings) (engine : String) : Option Path :=
  ((p.engines.find? engine).bind EngineSettings.models).map p.root.join

end ProjectSettings

end Schemata.Console
