import Schemata.Diff.Basic

/-! The order in which new models are created.

A model is ready when it refers to none of the models that are still to be created; of those that are
ready the first by name is created next. When none is ready the references run in a circle: the first
model by name is created without the foreign keys into the circle, which are added as fields later. -/
namespace Schemata.Creation

/-- Whether the model refers to none of the models still to come. -/
def isReady (remaining : List Model) (m : Model) : Bool :=
  m.references.all fun target => !remaining.any (·.name == target)

/-- The foreign keys of `m` that have to wait for a model still to come. -/
def deferred (remaining : List Model) (m : Model) : List String :=
  (m.relations.filter fun r =>
    r.2.model ≠ m.name && remaining.any (·.name == r.2.model)).map (·.1.name)

/-- The model to be created next, with the names of its fields that have to wait. -/
def next? (remaining : List Model) : Option (Model × List String) :=
  match remaining.find? (isReady remaining) with
  | some m => some (m, [])
  | none => remaining.head?.map fun m => (m, deferred remaining m)

def dropModel (name : String) (models : List Model) : List Model :=
  models.filter (·.name ≠ name)

/-- The order in which `steps` models are created, one at each step. -/
def orderFor : (steps : Nat) → List Model → List (Model × List String)
  | 0, _ => []
  | steps + 1, remaining =>
    match next? remaining with
    | none => []
    | some (m, waiting) => (m, waiting) :: orderFor steps (dropModel m.name remaining)

/-- The creation order of models with distinct names, given in the order of their names. -/
def order (models : List Model) : List (Model × List String) := orderFor models.length models

/-- The changes that make one new model: its table, then the fields that had to wait, then its indexes. -/
def create (m : Model) (waiting : List String) : Diff where
  createdModels := [⟨m.name, m.fields.values.filter fun f => !waiting.contains f.name⟩]
  addedFields := (m.fields.values.filter fun f => waiting.contains f.name).map (⟨m.name, ·⟩)
  addedIndexes := m.indexes.toList.map (⟨m.name, ·⟩)

def diff (models : List Model) : Diff :=
  (order models).foldl (fun d step => d ++ create step.1 step.2) Diff.empty

end Schemata.Creation
