import Schemata.Number.Binary64
import Schemata.Schema.Index

/-! Fields of a model: their types, defaults and attributes.

Descriptions are compared by `Field.same`, which is equality of all attributes with numbers compared as
numbers. A field is kept under its name but stored in the column `Field.columnName`, and only a
foreign key points at another model (`Field.relation?`). -/
namespace Schemata

/-- What happens to referencing rows when the referenced row is deleted. -/
inductive OnDelete
  | cascade
  | setNull
  | restrict
  | doNothing
  deriving DecidableEq, Repr

/-- The clause of the policy in SQL. -/
def OnDelete.clause : OnDelete → String
  | .cascade => "CASCADE"
  | .setNull => "SET NULL"
  | .restrict => "RESTRICT"
  | .doNothing => "NO ACTION"

/-- The target of a foreign key. -/
structure Relation where
  model : String
  field : String
  name : Option String
  relatedName : Option String
  onDelete : OnDelete
  deriving DecidableEq, Repr

/-- The name of the primary key that a model gets when it declares none, and of the field that a
foreign key points at when it names none. -/
def defaultKey : String := "id"

/-- The relation to the default key of `model`. -/
def Relation.toModel (model : String) (onDelete : OnDelete) : Relation :=
  ⟨model, defaultKey, none, none, onDelete⟩

inductive FieldType
  | text
  | varchar (maxLength : UInt32)
  | integer
  | bigInt
  | float
  | decimal (precision scale : UInt8)
  | boolean
  | date
  | dateTime
  | time
  | json
  | bytes
  | uuid
  | choice (choices : List String)
  | foreignKey (relation : Relation)
  deriving DecidableEq

inductive DefaultValue
  | null
  | bool (value : Bool)
  | int (value : Int64)
  | float (value : Binary64)
  | text (value : String)
  | expression (sql : String)

/-- Equality of defaults, numbers being compared as numbers. -/
def DefaultValue.same : DefaultValue → DefaultValue → Bool
  | .null, .null => true
  | .bool a, .bool b => a == b
  | .int a, .int b => a == b
  | .float a, .float b => a.same b
  | .text a, .text b => a == b
  | .expression a, .expression b => a == b
  | _, _ => false

/-- Equality of values that may be absent. -/
def sameOption {α : Type} (same : α → α → Bool) : Option α → Option α → Bool
  | none, none => true
  | some a, some b => same a b
  | _, _ => false

structure Field where
  name : String
  type : FieldType
  nullable : Bool := false
  blank : Bool := false
  unique : Bool := false
  indexed : Bool := false
  primaryKey : Bool := false
  autoIncrement : Bool := false
  default : Option DefaultValue := none
  column : Option String := none

namespace Field

/-- An integer key that the database counts up. -/
def autoKey (name : String) : Field :=
  { name, type := .integer, primaryKey := true, autoIncrement := true }

/-- Equality of descriptions, in every attribute. -/
def same (f g : Field) : Bool :=
  f.name == g.name && f.type == g.type && f.nullable == g.nullable && f.blank == g.blank &&
    f.unique == g.unique && f.indexed == g.indexed && f.primaryKey == g.primaryKey &&
    f.autoIncrement == g.autoIncrement && sameOption DefaultValue.same f.default g.default &&
    f.column == g.column

def rename (f : Field) (name : String) : Field := { f with name }

/-- Equality in every attribute but the name. -/
def sameShape (f g : Field) : Bool := (f.rename g.name).same g

/-- The column that holds the field. -/
def columnName (f : Field) : String := f.column.getD f.name

def relation? (f : Field) : Option Relation :=
  match f.type with
  | .foreignKey r => some r
  | _ => none

/-- The plain index that an indexed field carries, unless a constraint already has one. -/
def implicitIndex? (f : Field) : Option Index :=
  if f.indexed && !f.unique && !f.primaryKey then some ⟨[f.name], false⟩ else none

end Field

end Schemata
