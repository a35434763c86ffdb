import Schemata.Number.Shortest
import Schemata.Schema.Field
import Schemata.Text.Quoted

/-! Statements of PostgreSQL that change tables, columns, constraints and indexes.

A statement says what it changes; its text is made last, by `Statement.sql`. So a list of statements can
be read as updates of a catalogue as well as printed. -/
namespace Schemata.Ddl
open Text

inductive ColumnType
  | serial
  | bigSerial
  | text
  | varchar (maxLength : UInt32)
  | integer
  | bigInt
  | doublePrecision
  | numeric (precision scale : UInt8)
  | boolean
  | date
  | timestamp
  | time
  | jsonb
  | bytea
  | uuid
  deriving DecidableEq

def ColumnType.sql : ColumnType → String
  | .serial => "SERIAL"
  | .bigSerial => "BIGSERIAL"
  | .text => "TEXT"
  | .varchar n => s!"VARCHAR({n})"
  | .integer => "INTEGER"
  | .bigInt => "BIGINT"
  | .doublePrecision => "DOUBLE PRECISION"
  | .numeric p s => s!"NUMERIC({p}, {s})"
  | .boolean => "BOOLEAN"
  | .date => "DATE"
  | .timestamp => "TIMESTAMP WITH TIME ZONE"
  | .time => "TIME"
  | .jsonb => "JSONB"
  | .bytea => "BYTEA"
  | .uuid => "UUID"

/-- The type of a column that holds values of the field type. A foreign key whose target is not known
is taken for an integer. -/
def ColumnType.ofFieldType : FieldType → ColumnType
  | .text => .text
  | .varchar n => .varchar n
  | .integer => .integer
  | .bigInt => .bigInt
  | .float => .doublePrecision
  | .decimal p s => .numeric p s
  | .boolean => .boolean
  | .date => .date
  | .dateTime => .timestamp
  | .time => .time
  | .json => .jsonb
  | .bytes => .bytea
  | .uuid => .uuid
  | .choice _ => .text
  | .foreignKey _ => .integer

/-- The column that a foreign key points at, and what happens when its row goes. -/
structure Reference where
  table : String
  column : String
  onDelete : OnDelete
  deriving DecidableEq

def Reference.sql (r : Reference) : String :=
  s!"REFERENCES {quote r.table} ({quote r.column}) ON DELETE {r.onDelete.clause}"

/-- A column with its constraints. -/
structure Column where
  name : String
  type : ColumnType
  notNull : Bool
  unique : Bool
  default : Option DefaultValue
  choices : Option (List String)
  reference : Option Reference

inductive Statement
  | createTable (table : String) (columns : List Column) (primaryKey : Option String)
  | dropTable (table : String)
  | addColumn (table : String) (column : Column)
  | dropColumn (table column : String)
  | renameColumn (table source target : String)
  | renameConstraint (table source target : String)
  | dropConstraint (table name : String)
  | addUnique (table name column : String)
  | addCheck (table name column : String) (choices : List String)
  | addForeignKey (table name column : String) (reference : Reference)
  | setType (table column : String) (type : ColumnType)
  | setNotNull (table column : String)
  | dropNotNull (table column : String)
  | setDefault (table column : String) (value : DefaultValue)
  | dropDefault (table column : String)
  | createIndex (unique : Bool) (name table : String) (columns : List String)
  | dropIndex (name : String)
  | renameIndex (source target : String)
  | data (name payload : String)
  | begin
  | commit

def defaultSql : DefaultValue → String
  | .null => "NULL"
  | .bool true => "TRUE"
  | .bool false => "FALSE"
  | .int value => toString value
  | .float value => value.display
  | .text value => literal value
  | .expression sql => sql

/-- The check that a column holds one of the choices. -/
def checkSql (column : String) (choices : List String) : String :=
  let values := ", ".intercalate (choices.map literal)
  s!"CHECK ({quote column} IN ({values}))"

def Column.sql (c : Column) : String :=
  " ".intercalate <|
    [quote c.name, c.type.sql] ++
    (if c.notNull then ["NOT NULL"] else []) ++
    (if c.unique then ["UNIQUE"] else []) ++
    (c.default.map fun d => s!"DEFAULT {defaultSql d}").toList ++
    (c.choices.map (checkSql c.name)).toList ++
    (c.reference.map Reference.sql).toList

def Statement.sql : Statement → String
  | .createTable table columns primaryKey =>
    let lines := columns.map Column.sql ++
      (primaryKey.map fun c => s!"PRIMARY KEY ({quote c})").toList
    s!"CREATE TABLE {quote table} (\n    " ++ ",\n    ".intercalate lines ++ "\n);"
  | .dropTable table => s!"DROP TABLE {quote table};"
  | .addColumn table column => s!"ALTER TABLE {quote table} ADD COLUMN {column.sql};"
  | .dropColumn table column => s!"ALTER TABLE {quote table} DROP COLUMN {quote column};"
  | .renameColumn table source target =>
    s!"ALTER TABLE {quote table} RENAME COLUMN {quote source} TO {quote target};"
  | .renameConstraint table source target =>
    s!"ALTER TABLE {quote table} RENAME CONSTRAINT {quote source} TO {quote target};"
  | .dropConstraint table name => s!"ALTER TABLE {quote table} DROP CONSTRAINT {quote name};"
  | .addUnique table name column =>
    s!"ALTER TABLE {quote table} ADD CONSTRAINT {quote name} UNIQUE ({quote column});"
  | .addCheck table name column choices =>
    s!"ALTER TABLE {quote table} ADD CONSTRAINT {quote name} {checkSql column choices};"
  | .addForeignKey table name column reference =>
    s!"ALTER TABLE {quote table} ADD CONSTRAINT {quote name} FOREIGN KEY ({quote column}) " ++
      s!"{reference.sql};"
  | .setType table column type =>
    s!"ALTER TABLE {quote table} ALTER COLUMN {quote column} TYPE {type.sql} " ++
      s!"USING {quote column}::{type.sql};"
  | .setNotNull table column => s!"ALTER TABLE {quote table} ALTER COLUMN {quote column} SET NOT NULL;"
  | .dropNotNull table column =>
    s!"ALTER TABLE {quote table} ALTER COLUMN {quote column} DROP NOT NULL;"
  | .setDefault table column value =>
    s!"ALTER TABLE {quote table} ALTER COLUMN {quote column} SET DEFAULT {defaultSql value};"
  | .dropDefault table column =>
    s!"ALTER TABLE {quote table} ALTER COLUMN {quote column} DROP DEFAULT;"
  | .createIndex unique name table columns =>
    let kind := if unique then "UNIQUE " else ""
    s!"CREATE {kind}INDEX {quote name} ON {quote table} (" ++
      ", ".intercalate (columns.map quote) ++ ");"
  | .dropIndex name => s!"DROP INDEX {quote name};"
  | .renameIndex source target => s!"ALTER INDEX {quote source} RENAME TO {quote target};"
  | .data name payload =>
    let text := s!"-- data operation: {name}\n{payload}"
    if text.endsWith ";" then text else text ++ ";"
  | .begin => "BEGIN;"
  | .commit => "COMMIT;"

end Schemata.Ddl
