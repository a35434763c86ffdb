import Schemata.Schema.Normal

/-! Models put together field by field.

A draft takes fields one at a time or from a shared set of fields, and indexes. Of two fields with one
name the first stays and the name is noted: `Draft.build` refuses a draft with such names, and else gives
the normal form of what was collected. -/
namespace Schemata

/-- A model in the making. -/
structure Draft where
  model : Model
  duplicates : List String

namespace Draft

def start (name : String) : Draft := ⟨.ofFields name [], []⟩

def field (d : Draft) (f : Field) : Draft :=
  if d.model.fields.contains f.name then { d with duplicates := d.duplicates ++ [f.name] }
  else { d with model := { d.model with fields := d.model.fields.put f.name f } }

/-- The draft with every field of a shared set. -/
def includeAll (d : Draft) (fields : List Field) : Draft := fields.foldl field d

def index (d : Draft) (i : Index) : Draft :=
  { d with model := { d.model with indexes := d.model.indexes.insert i } }

def build (d : Draft) : Except ModelFault Model :=
  if d.duplicates.isEmpty then d.model.normalize
  else .error (.duplicateFields d.model.name d.duplicates)

end Draft

end Schemata
