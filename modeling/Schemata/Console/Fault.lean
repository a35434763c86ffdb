import Schemata.Console.Page
import Schemata.Failure
import Schemata.Store.Disk

/-! Why a command failed: because of its files, or because of what the engine found.

The words of the system and of parsers are no part of a message; `CommandFault.isAbridged` tells where
they would have followed. -/
namespace Schemata.Console
open Store

inductive CommandFault
  /-- The settings are there, but cannot be read. -/
  | unreadSettings
  | malformedSettings
  /-- The settings name no file of models for the engine. -/
  | noModels (engine : String)
  | unreadModels (path : Path) (fault : AccessFault)
  | malformedModels (path : Path)
  | ofEngine (failure : Failure)

namespace CommandFault

def message : CommandFault → String
  | .unreadSettings => "IO error"
  | .malformedSettings => "Configuration error: " ++ Failure.parseText
  | .noModels engine =>
    s!"Configuration error: engine '{engine}' has no models file; add " ++
      s!"`[engines.{engine}] models = \"...\"` to stratum.toml"
  | .unreadModels path fault => "Model file error: " ++ fault.explain ("cannot read " ++ path)
  | .malformedModels path => "Model file error: " ++ path
  | .ofEngine failure => failure.message

def isAbridged : CommandFault → Bool
  | .unreadSettings | .malformedSettings | .malformedModels _ => true
  | .unreadModels _ fault => fault.words?.isNone
  | .noModels _ => false
  | .ofEngine failure => failure.isAbridged

def exitCode : CommandFault → Nat
  | .unreadSettings => 60
  | .malformedSettings | .noModels _ => 62
  | .unreadModels _ _ | .malformedModels _ => 31
  | .ofEngine failure => failure.kind.exitCode

/-- What to do about it, where something can be done. -/
def hint? : CommandFault → Option String
  | .ofEngine (.multipleHeads _ _) =>
    some "write a migration that depends on one head and re-parent the other"
  | .ofEngine (.checksumMismatch _ _ _) =>
    some "applied migrations are immutable; restore the file or write a new migration"
  | .ofEngine (.locked _ _) | .ofEngine (.waiting _) => some "wait for the running migration to finish"
  | .ofEngine (.adapter _ _ true _) =>
    some "repair the database by hand before running migrate again"
  | _ => none

/-- The message and the hint, as they are printed. -/
def page (f : CommandFault) : Page := .error f.message :: (f.hint?.map .hint).toList

end CommandFault

end Schemata.Console
