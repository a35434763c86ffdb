import Schemata.Change.Basic
import Schemata.Document.Model

/-! Changes as data: a record of the kind and the parameters of the change.

Given as a list, a change is its kind followed by its parameters. Reading takes the kind first and then
the parameters as a part of the change. -/
namespace Schemata.Change

def parameters : Change → Members
  | .createModel name fields => [("name", .text name), ("fields", .list (fields.map Field.toDatum))]
  | .deleteModel name => [("name", .text name)]
  | .addField model field => [("model", .text model), ("field", field.toDatum)]
  | .removeField model field => [("model", .text model), ("field", field.toDatum)]
  | .changeField model field source target =>
    [("model", .text model), ("field", .text field), ("from", source.toDatum), ("to", target.toDatum)]
  | .renameField model source target =>
    [("model", .text model), ("from", .text source), ("to", .text target)]
  | .addIndex model index => [("model", .text model), ("index", index.toDatum)]
  | .removeIndex model index => [("model", .text model), ("index", index.toDatum)]
  | .runData name payload => [("name", .text name), ("payload", .text payload)]

def toDatum (c : Change) : Datum := .record (("kind", .text c.kind) :: c.parameters)

def fieldOf? (ms : Members) (name : String) : Option Field :=
  ms.required name (Field.ofDatum? .change)

def indexOf? (ms : Members) : Option Index := ms.required "index" (Index.ofDatum? .change)

def textOf? (ms : Members) (name : String) : Option String := ms.required name Datum.text?

/-- The change of the kind, its parameters being members of `d`. -/
def ofParameters? (kind : String) (d : Datum) : Option Change :=
  match kind with
  | "create_model" => do
    let ms ← d.members? .change ["name", "fields"]
    let fields ← ms.required "fields" (Datum.listOf? (Field.ofDatum? .change))
    return .createModel (← textOf? ms "name") fields
  | "delete_model" => do
    let ms ← d.members? .change ["name"]
    return .deleteModel (← textOf? ms "name")
  | "add_field" => do
    let ms ← d.members? .change ["model", "field"]
    return .addField (← textOf? ms "model") (← fieldOf? ms "field")
  | "remove_field" => do
    let ms ← d.members? .change ["model", "field"]
    return .removeField (← textOf? ms "model") (← fieldOf? ms "field")
  | "change_field" => do
    let ms ← d.members? .change ["model", "field", "from", "to"]
    return .changeField (← textOf? ms "model") (← textOf? ms "field") (← fieldOf? ms "from")
      (← fieldOf? ms "to")
  | "rename_field" => do
    let ms ← d.members? .change ["model", "from", "to"]
    return .renameField (← textOf? ms "model") (← textOf? ms "from") (← textOf? ms "to")
  | "add_index" => do
    let ms ← d.members? .change ["model", "index"]
    return .addIndex (← textOf? ms "model") (← indexOf? ms)
  | "remove_index" => do
    let ms ← d.members? .change ["model", "index"]
    return .removeIndex (← textOf? ms "model") (← indexOf? ms)
  | "run_data_operation" => do
    let ms ← d.members? .change ["name", "payload"]
    return .runData (← textOf? ms "name") (← textOf? ms "payload")
  | _ => none

def ofDatum? : Datum → Option Change
  | .list (.text kind :: parameters) => ofParameters? kind (.list parameters)
  | .record ms => do ofParameters? (← textOf? ms "kind") (.record ms)
  | _ => none

end Schemata.Change
