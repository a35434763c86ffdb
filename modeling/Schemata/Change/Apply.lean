import Schemata.Change.Basic

/-! What a change needs of a state, and what it makes of it.

`Change.apply` is a function: the same change on the same state always gives the same result, and a
change whose needs are not met gives a `Conflict` and no state. Every change but a fix-up of data
concerns one model and looks at no other. -/
namespace Schemata

/-- What a change needed and did not find. -/
inductive Conflict
  | modelExists (model : String)
  | duplicateFields (model : String)
  | noModelToDelete (model : String)
  | noModel (model : String)
  | fieldExists (model field : String)
  | noFieldToRemove (model field : String)
  | fieldIndexed (model field : String) (index : Index)
  | renamedByChange (model field name : String)
  | noFieldToChange (model field : String)
  | otherBaseline (model field : String)
  | targetExists (model source target : String)
  | noFieldToRename (model source : String)
  | unknownIndexField (model field : String)
  | indexExists (model : String) (index : Index)
  | noIndexToRemove (model : String) (index : Index)
  deriving DecidableEq, Repr

def Conflict.message : Conflict → String
  | .modelExists model => s!"cannot create model '{model}': it already exists"
  | .duplicateFields model => s!"cannot create model '{model}': duplicate field names"
  | .noModelToDelete model => s!"cannot delete model '{model}': it does not exist"
  | .noModel model => s!"model '{model}' does not exist"
  | .fieldExists model field => s!"cannot add field '{model}.{field}': it already exists"
  | .noFieldToRemove model field => s!"cannot remove field '{model}.{field}': it does not exist"
  | .fieldIndexed model field index =>
    s!"cannot remove field '{model}.{field}': index ({index.fieldList}) still references it"
  | .renamedByChange model field name =>
    s!"cannot change field '{model}.{field}': new description is named '{name}'"
  | .noFieldToChange model field => s!"cannot change field '{model}.{field}': it does not exist"
  | .otherBaseline model field =>
    s!"cannot change field '{model}.{field}': current description does not match " ++
      "the expected one (the migration was built against a different baseline)"
  | .targetExists model source target =>
    s!"cannot rename '{model}.{source}' to '{target}': target name already exists"
  | .noFieldToRename model source => s!"cannot rename '{model}.{source}': it does not exist"
  | .unknownIndexField model field => s!"cannot add index on '{model}': unknown field '{field}'"
  | .indexExists model index =>
    s!"cannot add index ({index.fieldList}) on '{model}': it already exists"
  | .noIndexToRemove model index =>
    s!"cannot remove index ({index.fieldList}) on '{model}': it does not exist"

namespace Model

/-! ### Changes within a model -/

def addField (m : Model) (f : Field) : Except Conflict Model :=
  if m.fields.contains f.name then .error (.fieldExists m.name f.name)
  else .ok { m with fields := m.fields.put f.name f }

def removeField (m : Model) (name : String) : Except Conflict Model :=
  if !m.fields.contains name then .error (.noFieldToRemove m.name name)
  else
    match m.indexes.toList.find? (·.references name) with
    | some i => .error (.fieldIndexed m.name name i)
    | none => .ok { m with fields := m.fields.erase name }

def changeField (m : Model) (name : String) (source target : Field) : Except Conflict Model :=
  match m.field? name with
  | none => .error (.noFieldToChange m.name name)
  | some current =>
    if current.same source then .ok { m with fields := m.fields.revise name fun _ => target }
    else .error (.otherBaseline m.name name)

/-- The field keeps its position and its attributes, and every index follows it. -/
def renameField (m : Model) (source target : String) : Except Conflict Model :=
  if m.fields.contains target then .error (.targetExists m.name source target)
  else if !m.fields.contains source then .error (.noFieldToRename m.name source)
  else .ok
    { m with
      fields := m.fields.rekey source target (·.rename target)
      indexes := .ofList (m.indexes.toList.map (·.renameField source target)) }

def addIndex (m : Model) (i : Index) : Except Conflict Model :=
  match i.fields.find? (!m.fields.contains ·) with
  | some missing => .error (.unknownIndexField m.name missing)
  | none =>
    if m.indexes.contains i then .error (.indexExists m.name i)
    else .ok { m with indexes := m.indexes.insert i }

def removeIndex (m : Model) (i : Index) : Except Conflict Model :=
  if m.indexes.contains i then .ok { m with indexes := m.indexes.erase i }
  else .error (.noIndexToRemove m.name i)

end Model

namespace State

/-- The state with the model of that name replaced by what `f` makes of it. -/
def onModel (s : State) (name : String) (f : Model → Except Conflict Model) :
    Except Conflict State :=
  match s.model? name with
  | none => .error (.noModel name)
  | some m => (f m).map s.insert

def createModel (s : State) (name : String) (fields : List Field) : Except Conflict State :=
  if s.contains name then .error (.modelExists name)
  else
    let model := Model.ofFields name fields
    if model.fields.size = fields.length then .ok (s.insert model)
    else .error (.duplicateFields name)

def deleteModel (s : State) (name : String) : Except Conflict State :=
  if s.contains name then .ok (s.erase name) else .error (.noModelToDelete name)

end State

namespace Change

def apply : Change → State → Except Conflict State
  | .createModel name fields, s => s.createModel name fields
  | .deleteModel name, s => s.deleteModel name
  | .addField model field, s => s.onModel model (·.addField field)
  | .removeField model field, s => s.onModel model (·.removeField field.name)
  | .changeField model field source target, s =>
    if target.name = field then s.onModel model (·.changeField field source target)
    else .error (.renamedByChange model field target.name)
  | .renameField model source target, s => s.onModel model (·.renameField source target)
  | .addIndex model index, s => s.onModel model (·.addIndex index)
  | .removeIndex model index, s => s.onModel model (·.removeIndex index)
  | .runData _ _, s => .ok s

/-- The changes one after the other; a conflict comes with the position of its change. -/
def applyFrom (position : Nat) : List Change → State → Except (Nat × Conflict) State
  | [], s => .ok s
  | c :: rest, s =>
    match c.apply s with
    | .ok s' => applyFrom (position + 1) rest s'
    | .error conflict => .error (position, conflict)

def applyAll (changes : List Change) (s : State) : Except (Nat × Conflict) State :=
  applyFrom 0 changes s

theorem applyFrom_append (position : Nat) (a b : List Change) (s : State) :
    applyFrom position (a ++ b) s =
      (applyFrom position a s).bind (applyFrom (position + a.length) b) := by
  induction a generalizing position s with
  | nil => rfl
  | cons c rest ih =>
    simp only [List.cons_append, applyFrom]
    cases c.apply s with
    | error conflict => rfl
    | ok s' =>
      simp only [ih]
      congr 2
      simp only [List.length_cons]
      omega

end Change

end Schemata
