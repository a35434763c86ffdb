import Schemata.Change.Basic

/-! The difference between two schemas, as lists of changes by kind.

The eight lists are carried out in the order in which they stand (`Diff.changes`): tables are made before
anything refers to them, an index goes before its fields and comes after them, and what drops data comes
last. Differences of parts of a schema are joined list by list (`Diff.append`). -/
namespace Schemata

/-- Something of a model. -/
structure Located (α : Type) where
  model : String
  item : α

/-- A field before and after. -/
structure Revision where
  field : String
  source : Field
  target : Field

/-- A field's name before and after. -/
structure Renaming where
  source : String
  target : String
  deriving DecidableEq, Repr

structure Diff where
  createdModels : List (Located (List Field)) := []
  removedIndexes : List (Located Index) := []
  renamedFields : List (Located Renaming) := []
  changedFields : List (Located Revision) := []
  addedFields : List (Located Field) := []
  addedIndexes : List (Located Index) := []
  removedFields : List (Located Field) := []
  deletedModels : List String := []

namespace Diff

def empty : Diff := {}

/-- The changes of both, kind by kind. -/
def append (a b : Diff) : Diff where
  createdModels := a.createdModels ++ b.createdModels
  removedIndexes := a.removedIndexes ++ b.removedIndexes
  renamedFields := a.renamedFields ++ b.renamedFields
  changedFields := a.changedFields ++ b.changedFields
  addedFields := a.addedFields ++ b.addedFields
  addedIndexes := a.addedIndexes ++ b.addedIndexes
  removedFields := a.removedFields ++ b.removedFields
  deletedModels := a.deletedModels ++ b.deletedModels

instance : Append Diff := ⟨append⟩

/-- All changes, in the order in which they are carried out. -/
def changes (d : Diff) : List Change :=
  d.createdModels.map (fun c => .createModel c.model c.item) ++
  d.removedIndexes.map (fun c => .removeIndex c.model c.item) ++
  d.renamedFields.map (fun c => .renameField c.model c.item.source c.item.target) ++
  d.changedFields.map (fun c => .changeField c.model c.item.field c.item.source c.item.target) ++
  d.addedFields.map (fun c => .addField c.model c.item) ++
  d.addedIndexes.map (fun c => .addIndex c.model c.item) ++
  d.removedFields.map (fun c => .removeField c.model c.item) ++
  d.deletedModels.map .deleteModel

def isEmpty (d : Diff) : Bool := d.changes.isEmpty

def isDestructive (d : Diff) : Bool := d.changes.any Change.isDestructive

/-- The counts of each kind, kinds without changes being left out. -/
def counts (d : Diff) : List (String × Nat × String) :=
  [("Create", d.createdModels.length, "models"),
    ("Remove", d.removedIndexes.length, "indexes"),
    ("Rename", d.renamedFields.length, "fields"),
    ("Change", d.changedFields.length, "fields"),
    ("Add", d.addedFields.length, "fields"),
    ("Add", d.addedIndexes.length, "indexes"),
    ("Remove", d.removedFields.length, "fields"),
    ("Delete", d.deletedModels.length, "models")].filter (0 < ·.2.1)

/-- One line for a reader. -/
def summary (d : Diff) : String :=
  if d.counts.isEmpty then "No changes"
  else ", ".intercalate (d.counts.map fun c => s!"{c.1} {c.2.1} {c.2.2}")

end Diff

end Schemata
