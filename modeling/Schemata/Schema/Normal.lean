import Schemata.Schema.Model

/-! The normal form of a description: one primary key, and uniqueness of a single field said by the field.

`Model.normalize` puts the default key first when no key is declared, turns every unique index over a
single field into the field's own attribute, and then holds the result against `Model.fault?`. -/
namespace Schemata.Model

/-- The model with a primary key, the default one if it declares none. -/
def withKey (m : Model) : Except ModelFault Model :=
  if m.primaryKey?.isSome then .ok m
  else if m.fields.contains defaultKey then .error (.nonKeyDefault m.name)
  else .ok { m with fields := m.fields.putFirst defaultKey (.autoKey defaultKey) }

/-- The model with the unique index `i` over one field folded into the field, if it has the field. -/
def foldIndex (m : Model) (i : Index) : Model :=
  match i.fields with
  | [name] =>
    if i.unique && m.fields.contains name then
      { m with
        fields := m.fields.revise name fun f => { f with unique := true }
        indexes := m.indexes.erase i }
    else m
  | _ => m

def foldIndexes (m : Model) : Model := m.indexes.toList.foldl foldIndex m

/-- The normal form of the description, or why it has none. -/
def normalize (m : Model) : Except ModelFault Model := do
  let keyed ← m.withKey
  let folded := keyed.foldIndexes
  match folded.fault? with
  | some fault => .error fault
  | none => .ok folded

end Schemata.Model
