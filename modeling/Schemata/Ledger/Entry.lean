import Schemata.Calendar.Reading
import Schemata.Datum
import Schemata.Failure
import Schemata.Toml.Reader
import Schemata.Toml.Writer

/-! Entries of a ledger: which migration was applied to which engine, when, and what its digest was then.

The last entry of an engine is where the engine stands. The entries of one engine make a document. -/
namespace Schemata.Ledger

structure Entry where
  migration : String
  engine : String
  /-- The digest of the migration when it was applied. -/
  checksum : String
  appliedAt : Calendar.Instant
  deriving DecidableEq

namespace Entry

def members (e : Entry) : Members :=
  [("migration", .text e.migration), ("engine", .text e.engine), ("checksum", .text e.checksum),
    ("applied_at", .text e.appliedAt.rfc3339)]

def toDatum (e : Entry) : Datum := .record e.members

def ofDatum? (d : Datum) : Option Entry := do
  let ms ← d.members? .file ["migration", "engine", "checksum", "applied_at"]
  return {
    migration := ← ms.required "migration" Datum.text?
    engine := ← ms.required "engine" Datum.text?
    checksum := ← ms.required "checksum" Datum.text?
    appliedAt := ← ms.required "applied_at" fun d => d.text?.bind Calendar.Instant.read? }

end Entry

/-! ### Documents -/

def document (entries : List Entry) : Members := [("entries", .list (entries.map Entry.toDatum))]

def write (entries : List Entry) : String := Toml.write (document entries)

def ofDocument? (d : Datum) : Option (List Entry) := do
  let ms ← d.members? .file ["entries"]
  ms.defaulted "entries" (Datum.listOf? Entry.ofDatum?) []

def read (text : String) : Except Failure (List Entry) :=
  match (Toml.read? text).bind ofDocument? with
  | some entries => .ok entries
  | none => .error .unreadable

end Schemata.Ledger
