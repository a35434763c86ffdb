import Schemata.Collection.Keyed
import Schemata.Schema.Field

/-! Models: named tables of fields with declared indexes.

The order of the fields is kept, for it is the order of the columns of a new table, but two models that
differ in it alone are the same (`Model.same`). `Model.fault?` names the first rule that a description
breaks. -/
namespace Schemata

structure Model where
  name : String
  fields : Keyed String Field
  indexes : Indexes

/-- Why a description, or a set of descriptions, is refused. -/
inductive ModelFault
  | keyMismatch (model field key : String)
  | manyPrimaryKeys (model : String) (count : Nat)
  | noChoices (model field : String)
  | setNullNotNullable (model field : String)
  | emptyIndex (model : String)
  | unknownIndexField (model field : String)
  | nonKeyDefault (model : String)
  | duplicateFields (model : String) (fields : List String)
  | declaredTwice (model : String)
  | unknownTarget (model field targetModel targetField : String)
  deriving DecidableEq, Repr

def ModelFault.message : ModelFault → String
  | .keyMismatch model field key => s!"model '{model}' stores field '{field}' under key '{key}'"
  | .manyPrimaryKeys model count => s!"model '{model}' declares {count} primary keys"
  | .noChoices model field => s!"enum field '{model}.{field}' has no choices"
  | .setNullNotNullable model field =>
    s!"foreign key '{model}.{field}' uses on_delete = set_null but is not nullable"
  | .emptyIndex model => s!"model '{model}' declares an index without fields"
  | .unknownIndexField model field => s!"index on '{model}' references unknown field '{field}'"
  | .nonKeyDefault model =>
    s!"model '{model}' declares a non-key field '{defaultKey}' and no primary key"
  | .duplicateFields model fields =>
    s!"model '{model}' declares duplicate fields: " ++ ", ".intercalate fields
  | .declaredTwice model => s!"model '{model}' is declared more than once"
  | .unknownTarget model field targetModel targetField =>
    s!"foreign key '{model}.{field}' references unknown field '{targetModel}.{targetField}'"

namespace Model

/-- The model with the given fields, of equal names the last one, and no declared index. -/
def ofFields (name : String) (fields : List Field) : Model :=
  ⟨name, .ofList (fields.map fun f => (f.name, f)), .empty⟩

def field? (m : Model) (name : String) : Option Field := m.fields.get? name

def primaryKey? (m : Model) : Option Field := m.fields.values.find? (·.primaryKey)

/-- The foreign keys of the model, each with its relation. -/
def relations (m : Model) : List (Field × Relation) :=
  m.fields.values.filterMap fun f => f.relation?.map fun r => (f, r)

/-- The other models that the model's foreign keys point at. -/
def references (m : Model) : List String :=
  (m.relations.map (·.2.model)).filter (· ≠ m.name)

/-- The declared indexes with those that indexed fields carry. -/
def effectiveIndexes (m : Model) : Indexes :=
  (m.fields.values.filterMap Field.implicitIndex?).foldl Ascending.insert m.indexes

/-- Equality up to the order of the fields. -/
def same (m n : Model) : Bool :=
  m.name == n.name && m.fields.size == n.fields.size &&
    m.fields.entries.all (fun e => (n.fields.get? e.1).any (e.2.same ·)) &&
    m.indexes.toList == n.indexes.toList

/-! ### What makes a description valid -/

def keyFault? (m : Model) : Option ModelFault :=
  m.fields.entries.findSome? fun e =>
    if e.1 = e.2.name then none else some (.keyMismatch m.name e.2.name e.1)

def primaryKeyFault? (m : Model) : Option ModelFault :=
  let count := m.fields.values.countP (·.primaryKey)
  if count > 1 then some (.manyPrimaryKeys m.name count) else none

def fieldFault? (m : Model) (f : Field) : Option ModelFault :=
  match f.type with
  | .choice [] => some (.noChoices m.name f.name)
  | .foreignKey r =>
    if r.onDelete = .setNull && !f.nullable then some (.setNullNotNullable m.name f.name) else none
  | _ => none

def indexFault? (m : Model) (i : Index) : Option ModelFault :=
  if i.fields.isEmpty then some (.emptyIndex m.name)
  else (i.fields.find? (!m.fields.contains ·)).map (.unknownIndexField m.name)

/-- The first rule that the description breaks. -/
def fault? (m : Model) : Option ModelFault :=
  m.keyFault? <|> m.primaryKeyFault? <|> m.fields.values.findSome? m.fieldFault? <|>
    m.indexes.toList.findSome? m.indexFault?

end Model

end Schemata
