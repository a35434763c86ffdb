import Schemata.Change.Basic

/-! Migrations: named lists of changes, each built on the one before it.

The migrations of an engine form its history through the names of their parents. A migration is never
edited once it is written. -/
namespace Schemata

structure Migration where
  name : String
  /-- The engine that the migration belongs to. -/
  database : String
  /-- The migration that this one is built on. -/
  parent : Option String := none
  changes : List Change := []

namespace Migration

/-- Whether a change drops stored data. -/
def isDestructive (m : Migration) : Bool := m.changes.any Change.isDestructive

/-- Equality of migrations, descriptions being compared as descriptions. -/
def same (m n : Migration) : Bool :=
  m.name == n.name && m.database == n.database && m.parent == n.parent &&
    m.changes.length == n.changes.length && (m.changes.zip n.changes).all fun p => p.1.same p.2

end Migration

end Schemata
