import Schemata.Schema.State

/-! Changes of a schema, one atomic step each.

A migration is a list of changes. What a change needs and does is `Change.apply`; here are the change
itself, the model it concerns, and the lines that describe it to a reader. -/
namespace Schemata

inductive Change
  | createModel (name : String) (fields : List Field)
  | deleteModel (name : String)
  | addField (model : String) (field : Field)
  /-- The removed field is kept as it was last described. -/
  | removeField (model : String) (field : Field)
  | changeField (model field : String) (source target : Field)
  | renameField (model source target : String)
  | addIndex (model : String) (index : Index)
  | removeIndex (model : String) (index : Index)
  /-- A fix-up of data, of which only the database knows the meaning. -/
  | runData (name payload : String)

namespace Change

/-- The model that the change concerns, if it concerns one. -/
def model? : Change → Option String
  | .createModel name _ => some name
  | .deleteModel name => some name
  | .addField model _ => some model
  | .removeField model _ => some model
  | .changeField model _ _ _ => some model
  | .renameField model _ _ => some model
  | .addIndex model _ => some model
  | .removeIndex model _ => some model
  | .runData _ _ => none

/-- Whether the change drops stored data. -/
def isDestructive : Change → Bool
  | .deleteModel _ => true
  | .removeField _ _ => true
  | _ => false

/-- The name of the kind of change, as documents have it. -/
def kind : Change → String
  | .createModel _ _ => "create_model"
  | .deleteModel _ => "delete_model"
  | .addField _ _ => "add_field"
  | .removeField _ _ => "remove_field"
  | .changeField _ _ _ _ => "change_field"
  | .renameField _ _ _ => "rename_field"
  | .addIndex _ _ => "add_index"
  | .removeIndex _ _ => "remove_index"
  | .runData _ _ => "run_data_operation"

def uniqueWord (i : Index) : String := if i.unique then "unique " else ""

/-- One line for a reader. -/
def describe : Change → String
  | .createModel name fields => s!"Create model {name} ({fields.length} fields)"
  | .deleteModel name => s!"Delete model {name}"
  | .addField model field => s!"Add field {field.name} to {model}"
  | .removeField model field => s!"Remove field {field.name} from {model}"
  | .changeField model field _ _ => s!"Change field {field} on {model}"
  | .renameField model source target => s!"Rename field {source} on {model} to {target}"
  | .addIndex model index => s!"Add {uniqueWord index}index on {model} ({index.fieldList})"
  | .removeIndex model index => s!"Remove {uniqueWord index}index on {model} ({index.fieldList})"
  | .runData name _ => s!"Run data operation {name}"

/-- Equality of changes, descriptions being compared as descriptions. -/
def same : Change → Change → Bool
  | .createModel n fs, .createModel n' fs' =>
    n == n' && fs.length == fs'.length && (fs.zip fs').all fun p => p.1.same p.2
  | .deleteModel n, .deleteModel n' => n == n'
  | .addField m f, .addField m' f' => m == m' && f.same f'
  | .removeField m f, .removeField m' f' => m == m' && f.same f'
  | .changeField m f s t, .changeField m' f' s' t' => m == m' && f == f' && s.same s' && t.same t'
  | .renameField m s t, .renameField m' s' t' => m == m' && s == s' && t == t'
  | .addIndex m i, .addIndex m' i' => m == m' && i == i'
  | .removeIndex m i, .removeIndex m' i' => m == m' && i == i'
  | .runData n p, .runData n' p' => n == n' && p == p'
  | _, _ => false

end Change

end Schemata
