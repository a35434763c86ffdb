import Schemata.Datum
import Schemata.Schema.Field

/-! Fields as data.

A case without parameters is written as its name, a case with parameters as a record of one member; flags
that are off and values that are absent are not written. -/
namespace Schemata

/-! ### Foreign keys -/

def OnDelete.word : OnDelete → String
  | .cascade => "cascade"
  | .setNull => "set_null"
  | .restrict => "restrict"
  | .doNothing => "do_nothing"

def OnDelete.ofWord? : String → Option OnDelete
  | "cascade" => some .cascade
  | "set_null" => some .setNull
  | "restrict" => some .restrict
  | "do_nothing" => some .doNothing
  | _ => none

def OnDelete.ofDatum? (spelling : Spelling) (d : Datum) : Option OnDelete := do
  let (name, parameters) ← d.case?
  if Datum.isUnit spelling parameters then OnDelete.ofWord? name else none

namespace Relation

def members (r : Relation) : Members :=
  [("model", .text r.model), ("field", .text r.field)] ++ Members.ofOption "name" .text r.name ++
    Members.ofOption "related_name" .text r.relatedName ++ [("on_delete", .text r.onDelete.word)]

def toDatum (r : Relation) : Datum := .record r.members

def memberNames : List String := ["model", "field", "name", "related_name", "on_delete"]

def ofDatum? (spelling : Spelling) (d : Datum) : Option Relation := do
  let ms ← d.members? spelling memberNames
  return {
    model := ← ms.required "model" Datum.text?
    field := ← ms.defaulted "field" Datum.text? defaultKey
    name := ← ms.optional "name" Datum.text?
    relatedName := ← ms.optional "related_name" Datum.text?
    onDelete := ← ms.required "on_delete" (OnDelete.ofDatum? spelling) }

end Relation

/-! ### Types -/

namespace FieldType

def toDatum : FieldType → Datum
  | .text => .text "text"
  | .varchar n => .record [("varchar", .record [("max_length", .int n.toNat)])]
  | .integer => .text "integer"
  | .bigInt => .text "big_int"
  | .float => .text "float"
  | .decimal p s =>
    .record [("decimal", .record [("precision", .int p.toNat), ("scale", .int s.toNat)])]
  | .boolean => .text "boolean"
  | .date => .text "date"
  | .dateTime => .text "date_time"
  | .time => .text "time"
  | .json => .text "json"
  | .bytes => .text "bytes"
  | .uuid => .text "uuid"
  | .choice choices => .record [("enum", .record [("choices", .list (choices.map .text))])]
  | .foreignKey r => .record [("foreign_key", r.toDatum)]

/-- The types without parameters, by name. -/
def ofWord? : String → Option FieldType
  | "text" => some .text
  | "integer" => some .integer
  | "big_int" => some .bigInt
  | "float" => some .float
  | "boolean" => some .boolean
  | "date" => some .date
  | "date_time" => some .dateTime
  | "time" => some .time
  | "json" => some .json
  | "bytes" => some .bytes
  | "uuid" => some .uuid
  | _ => none

def ofParameters? (spelling : Spelling) (name : String) (d : Datum) : Option FieldType :=
  match name with
  | "varchar" => do
    let ms ← d.parameters? spelling ["max_length"]
    return .varchar (← ms.required "max_length" Datum.word32?)
  | "decimal" => do
    let ms ← d.parameters? spelling ["precision", "scale"]
    return .decimal (← ms.required "precision" Datum.byte?) (← ms.required "scale" Datum.byte?)
  | "enum" => do
    let ms ← d.parameters? spelling ["choices"]
    return .choice (← ms.required "choices" (Datum.listOf? Datum.text?))
  | "foreign_key" => (Relation.ofDatum? spelling d).map .foreignKey
  | _ => none

def ofDatum? (spelling : Spelling) (d : Datum) : Option FieldType := do
  let (name, parameters) ← d.case?
  match ofWord? name with
  | some type => if Datum.isUnit spelling parameters then some type else none
  | none => parameters.bind (ofParameters? spelling name)

end FieldType

/-! ### Defaults -/

namespace DefaultValue

def toDatum : DefaultValue → Datum
  | .null => .text "null"
  | .bool b => .record [("bool", .bool b)]
  | .int n => .record [("int", .int n.toInt)]
  | .float x => .record [("float", .float x)]
  | .text s => .record [("text", .text s)]
  | .expression s => .record [("expression", .text s)]

def ofParameters? (name : String) (d : Datum) : Option DefaultValue :=
  match name with
  | "bool" => d.bool?.map .bool
  | "int" => d.int64?.map .int
  | "float" => d.float?.map .float
  | "text" => d.text?.map .text
  | "expression" => d.text?.map .expression
  | _ => none

def ofDatum? (spelling : Spelling) (d : Datum) : Option DefaultValue := do
  let (name, parameters) ← d.case?
  if name = "null" then if Datum.isUnit spelling parameters then some .null else none
  else parameters.bind (ofParameters? name)

end DefaultValue

/-! ### Fields -/

namespace Field

def members (f : Field) : Members :=
  [("name", .text f.name), ("type", f.type.toDatum)] ++ Members.ofFlag "nullable" f.nullable ++
    Members.ofFlag "blank" f.blank ++ Members.ofFlag "unique" f.unique ++
    Members.ofFlag "indexed" f.indexed ++ Members.ofFlag "primary_key" f.primaryKey ++
    Members.ofFlag "auto_increment" f.autoIncrement ++
    Members.ofOption "default" DefaultValue.toDatum f.default ++
    Members.ofOption "column" .text f.column

def toDatum (f : Field) : Datum := .record f.members

def memberNames : List String :=
  ["name", "type", "nullable", "blank", "unique", "indexed", "primary_key", "auto_increment",
    "default", "column"]

def ofDatum? (spelling : Spelling) (d : Datum) : Option Field := do
  let ms ← d.members? spelling memberNames
  return {
    name := ← ms.required "name" Datum.text?
    type := ← ms.required "type" (FieldType.ofDatum? spelling)
    nullable := ← ms.flag "nullable"
    blank := ← ms.flag "blank"
    unique := ← ms.flag "unique"
    indexed := ← ms.flag "indexed"
    primaryKey := ← ms.flag "primary_key"
    autoIncrement := ← ms.flag "auto_increment"
    default := ← ms.optional "default" (DefaultValue.ofDatum? spelling)
    column := ← ms.optional "column" Datum.text? }

end Field

end Schemata
