import Schemata.Document.Field
import Schemata.Schema.Model

/-! Indexes and models as data.

The fields of a model are a list, in the order of the model, with distinct names; its indexes are a list
too, but their order and repetitions carry no meaning. -/
namespace Schemata

namespace Index

def members (i : Index) : Members :=
  ("fields", .list (i.fields.map .text)) :: Members.ofFlag "unique" i.unique

def toDatum (i : Index) : Datum := .record i.members

def ofDatum? (spelling : Spelling) (d : Datum) : Option Index := do
  let ms ← d.members? spelling ["fields", "unique"]
  return {
    fields := ← ms.required "fields" (Datum.listOf? Datum.text?)
    unique := ← ms.flag "unique" }

end Index

namespace Model

def members (m : Model) : Members :=
  [("name", .text m.name), ("fields", .list (m.fields.values.map Field.toDatum))] ++
    if m.indexes.isEmpty then [] else [("indexes", .list (m.indexes.toList.map Index.toDatum))]

def toDatum (m : Model) : Datum := .record m.members

/-- The table of fields with distinct names. -/
def fieldsOfDatum? (spelling : Spelling) (d : Datum) : Option (Keyed String Field) := do
  let fields ← d.listOf? (Field.ofDatum? spelling)
  Keyed.ofDistinct? (fields.map fun f => (f.name, f))

def indexesOfDatum? (spelling : Spelling) (d : Datum) : Option Indexes :=
  (d.listOf? (Index.ofDatum? spelling)).map .ofList

def ofDatum? (spelling : Spelling) (d : Datum) : Option Model := do
  let ms ← d.members? spelling ["name", "fields", "indexes"]
  return {
    name := ← ms.required "name" Datum.text?
    fields := ← ms.defaulted "fields" (fieldsOfDatum? spelling) .empty
    indexes := ← ms.defaulted "indexes" (indexesOfDatum? spelling) .empty }

/-- The models that a file of models lists. -/
def listOfDatum? (d : Datum) : Option (List Model) := do
  let ms ← d.members? .file ["models"]
  ms.defaulted "models" (Datum.listOf? (ofDatum? .file)) []

end Model

end Schemata
