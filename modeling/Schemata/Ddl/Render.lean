import Schemata.Ddl.Statement
import Schemata.Failure
import Schemata.Text.Blank

/-! The statements that carry out a change.

A change is rendered against the schema it applies to (`render`): a foreign key takes the type of the
column it references, and columns and indexes are addressed by the names that the schema gives them.
Nothing is rendered of a change that cannot be rendered as a whole. -/
namespace Schemata.Ddl

/-- Why a change has no statements. -/
inductive Fault
  | addsPrimaryKey (model field : String)
  | changesKey (model field : String)
  | emptyPayload (name : String)
  | noTable (model : String)
  | noField (model field : String)
  | notForeignKey (field : String)
  | unknownTarget (field targetModel targetField : String)
  | transactionOpen
  | noTransaction
  deriving DecidableEq, Repr

def Fault.kind : Fault → AdapterFaultKind
  | .addsPrimaryKey _ _ | .changesKey _ _ | .emptyPayload _ => .unsupported
  | .noTable _ | .noField _ _ | .notForeignKey _ | .unknownTarget _ _ _ => .constraint
  | .transactionOpen | .noTransaction => .other

def Fault.text : Fault → String
  | .addsPrimaryKey model field => s!"adding primary key column '{model}.{field}'"
  | .changesKey model field => s!"changing the primary key or generation of '{model}.{field}'"
  | .emptyPayload name => s!"data operation '{name}' has an empty payload"
  | .noTable model => s!"table '{model}' does not exist"
  | .noField model field => s!"field '{model}.{field}' does not exist"
  | .notForeignKey field => s!"field '{field}' is not a foreign key"
  | .unknownTarget field targetModel targetField =>
    s!"foreign key '{field}' references unknown column '{targetModel}.{targetField}'"
  | .transactionOpen => "transaction already open"
  | .noTransaction => "no open transaction"

def Fault.report (f : Fault) : AdapterFault := { kind := f.kind, text := f.text }

/-! ### Columns -/

/-- The field that a foreign key points at: in the table that is being created, if it is the target, and
else in the schema. -/
def referencedField (field : Field) (schema : State) (creating : Option Model) :
    Except Fault Field :=
  match field.relation? with
  | none => .error (.notForeignKey field.name)
  | some r =>
    let target := (creating.filter (·.name == r.model)).or (schema.model? r.model)
    match target.bind (·.field? r.field) with
    | some f => .ok f
    | none => .error (.unknownTarget field.name r.model r.field)

/-- The type of a field's column: of a foreign key, that of the column it references. -/
def columnType (field : Field) (schema : State) (creating : Option Model) :
    Except Fault ColumnType :=
  if field.relation?.isSome then
    (referencedField field schema creating).map fun target => .ofFieldType target.type
  else .ok (.ofFieldType field.type)

/-- The type of a new column: numbers that the database counts up have types of their own. -/
def newColumnType (field : Field) (schema : State) (creating : Option Model) :
    Except Fault ColumnType :=
  match field.type, field.autoIncrement with
  | .integer, true => .ok .serial
  | .bigInt, true => .ok .bigSerial
  | _, _ => columnType field schema creating

def choices? (field : Field) : Option (List String) :=
  match field.type with
  | .choice choices => some choices
  | _ => none

def reference? (field : Field) (schema : State) (creating : Option Model) :
    Except Fault (Option Reference) :=
  match field.relation? with
  | none => .ok none
  | some r => (referencedField field schema creating).map fun target =>
    some ⟨r.model, target.columnName, r.onDelete⟩

/-- The column that holds a field. -/
def columnOf (field : Field) (schema : State) (creating : Option Model) : Except Fault Column := do
  let type ← newColumnType field schema creating
  let reference ← reference? field schema creating
  return {
    name := field.columnName
    type
    notNull := !field.nullable && !field.primaryKey
    unique := field.unique && !field.primaryKey
    default := field.default
    choices := choices? field
    reference }

/-! ### Constraints and indexes -/

/-- The name that the database gives to the constraint of a column. -/
def constraintName (table column suffix : String) : String :=
  table ++ "_" ++ column ++ "_" ++ suffix

/-- The suffixes of the constraints that a field's column owns. -/
def ownedSuffixes (field : Field) : List String :=
  (if field.unique && !field.primaryKey then ["key"] else []) ++
    (if field.relation?.isSome then ["fkey"] else []) ++
    (if (choices? field).isSome then ["check"] else [])

/-- Renames the constraints that were named after a column. -/
def renameConstraints (table : String) (field : Field) (source target : String) : List Statement :=
  (ownedSuffixes field).map fun suffix =>
    .renameConstraint table (constraintName table source suffix) (constraintName table target suffix)

def createIndex (table : String) (i : Index) (columns : List String) : Statement :=
  .createIndex i.unique (i.nameFor table) table columns

/-- The columns of an index; a field that the model lacks stands for itself. -/
def columnsOf (m : Model) (i : Index) : List String :=
  i.fields.map fun f => ((m.field? f).map Field.columnName).getD f

/-! ### Changes -/

/-- The statements that rename a field's column, if it follows the name, and the indexes over it. -/
def renameField (m : Model) (field : Field) (target : String) : List Statement :=
  let source := field.columnName
  let column := (field.rename target).columnName
  let moves :=
    if source = column then []
    else .renameColumn m.name source column :: renameConstraints m.name field source column
  let indexes := m.effectiveIndexes.toList.filter (·.references field.name)
  moves ++ indexes.map fun i =>
    .renameIndex (i.nameFor m.name) ((i.renameField field.name target).nameFor m.name)

/-- The statements that take a column from one type to another, with the constraints of the types. -/
def retype (table : String) (source target : Field) (schema : State) :
    Except Fault (List Statement) := do
  let column := target.columnName
  let newType ← columnType target schema none
  let oldType ← columnType source schema none
  let reference ← reference? target schema none
  let dropped : List Statement :=
    (if source.relation?.isSome then
      [.dropConstraint table (constraintName table column "fkey")] else []) ++
    (if (choices? source).isSome then
      [.dropConstraint table (constraintName table column "check")] else [])
  let typed : List Statement := if oldType = newType then [] else [.setType table column newType]
  return dropped ++ typed ++
    (reference.map (.addForeignKey table (constraintName table column "fkey") column)).toList ++
    ((choices? target).map (.addCheck table (constraintName table column "check") column)).toList

/-- The statement that turns the not-null constraint on or off. -/
def renullify (table column : String) (source target : Field) : List Statement :=
  if source.nullable = target.nullable then []
  else if target.nullable then [.dropNotNull table column]
  else [.setNotNull table column]

def redefault (table column : String) (source target : Field) : List Statement :=
  if sameOption DefaultValue.same source.default target.default then []
  else
    match target.default with
    | some value => [.setDefault table column value]
    | none => [.dropDefault table column]

def reunify (table column : String) (source target : Field) : List Statement :=
  let key := constraintName table column "key"
  if source.unique = target.unique then []
  else if target.unique then [.addUnique table key column]
  else [.dropConstraint table key]

/-- The statements that move a column to another name, with the constraints named after it. -/
def recolumn (table : String) (source target : Field) : List Statement :=
  let column := target.columnName
  if source.columnName = column then []
  else .renameColumn table source.columnName column ::
    renameConstraints table source source.columnName column

/-- Drops the plain index of a field that does without it from now on. -/
def unindex (table : String) (source target : Field) : List Statement :=
  if source.implicitIndex?.isSome && target.implicitIndex?.isNone then
    [.dropIndex ((Index.mk [target.name] false).nameFor table)]
  else []

/-- Creates the plain index of a field that had none before. -/
def reindex (table : String) (source target : Field) : List Statement :=
  match source.implicitIndex?, target.implicitIndex? with
  | none, some i => [createIndex table i [target.columnName]]
  | _, _ => []

def keepsKey (source target : Field) : Bool :=
  source.primaryKey == target.primaryKey && source.autoIncrement == target.autoIncrement

/-- The statements that take a column from one description to another. -/
def alterColumn (table : String) (source target : Field) (schema : State) :
    Except Fault (List Statement) :=
  if keepsKey source target then do
    let column := target.columnName
    let retyped ←
      if source.type = target.type then pure [] else retype table source target schema
    return recolumn table source target ++ unindex table source target ++ retyped ++
      renullify table column source target ++ redefault table column source target ++
      reunify table column source target ++ reindex table source target
  else .error (.changesKey table target.name)

/-- The statements of a new table and its indexes. -/
def createTable (name : String) (fields : List Field) (schema : State) :
    Except Fault (List Statement) := do
  let created := Model.ofFields name fields
  let columns ← fields.mapM fun f => columnOf f schema (some created)
  let primaryKey := (fields.find? (·.primaryKey)).map Field.columnName
  return .createTable name columns primaryKey ::
    created.effectiveIndexes.toList.map fun i => createIndex name i (columnsOf created i)

def addColumn (model : String) (field : Field) (schema : State) : Except Fault (List Statement) := do
  if field.primaryKey then throw (.addsPrimaryKey model field.name)
  let column ← columnOf field schema none
  return .addColumn model column ::
    (field.implicitIndex?.map fun i => createIndex model i [field.columnName]).toList

def existingModel (schema : State) (name : String) : Except Fault Model :=
  match schema.model? name with
  | some m => .ok m
  | none => .error (.noTable name)

/-- The statements of a change of the schema. -/
def render (change : Change) (schema : State) : Except Fault (List Statement) :=
  match change with
  | .createModel name fields => createTable name fields schema
  | .deleteModel name => .ok [.dropTable name]
  | .addField model field => addColumn model field schema
  | .removeField model field => .ok [.dropColumn model field.columnName]
  | .changeField model _ source target => alterColumn model source target schema
  | .renameField model source target => do
    let current ← existingModel schema model
    match current.field? source with
    | some field => return renameField current field target
    | none => throw (.noField model source)
  | .addIndex model i => do
    let current ← existingModel schema model
    return [createIndex model i (columnsOf current i)]
  | .removeIndex model i => .ok [.dropIndex (i.nameFor model)]
  | .runData name payload =>
    let trimmed := Text.trim payload
    if trimmed.isEmpty then .error (.emptyPayload name) else .ok [.data name trimmed]

end Schemata.Ddl
