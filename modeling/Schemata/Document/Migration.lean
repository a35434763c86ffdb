import Schemata.Digest.Sha256
import Schemata.Document.Change
import Schemata.Failure
import Schemata.History.Migration
import Schemata.Text.Blank
import Schemata.Toml.Reader
import Schemata.Toml.Writer

/-! Migrations as data, and as documents.

The document of a migration is the one text that stands for it; its digest is what a ledger keeps to tell
whether the migration was changed after it was applied. -/
namespace Schemata.Migration

def members (m : Migration) : Members :=
  [("name", .text m.name), ("database", .text m.database)] ++
    Members.ofOption "depends_on" .text m.parent ++
    [("operations", .list (m.changes.map Change.toDatum))]

def toDatum (m : Migration) : Datum := .record m.members

def memberNames : List String := ["name", "database", "depends_on", "operations"]

def ofDatum? (d : Datum) : Option Migration := do
  let ms ← d.members? .file memberNames
  return {
    name := ← ms.required "name" Datum.text?
    database := ← ms.required "database" Datum.text?
    parent := ← ms.optional "depends_on" Datum.text?
    changes := ← ms.defaulted "operations" (Datum.listOf? Change.ofDatum?) [] }

def toToml (m : Migration) : String := Toml.write m.members

/-- The digest of the migration's document. -/
def checksum (m : Migration) : String := Digest.checksum m.toToml

/-- The migration, if neither its name nor that of its engine is blank. -/
def checked (m : Migration) : Except Failure Migration :=
  if Text.isBlankText m.name then .error .blankName
  else if Text.isBlankText m.database then .error (.blankDatabase m.name)
  else .ok m

def ofToml (text : String) : Except Failure Migration :=
  match (Toml.read? text).bind ofDatum? with
  | some m => m.checked
  | none => .error .unreadable

end Schemata.Migration
