import Schemata.Diff.Creation

/-! The order in which old models are deleted.

A model may go when no other model still to be deleted refers to it; of those the first by name goes next.
When there is none the references run in a circle: the first model by name goes, after the foreign keys
that point at it were removed from the others, and the indexes over them before that. -/
namespace Schemata.Deletion

/-- What was removed from models that are deleted later, to let others go first. -/
structure Released where
  indexes : List (Located Index) := []
  fields : List (Located Field) := []

def Released.hasField (r : Released) (model field : String) : Bool :=
  r.fields.any fun f => f.model == model && f.item.name == field

def Released.hasIndex (r : Released) (model : String) (i : Index) : Bool :=
  r.indexes.any fun j => j.model == model && j.item == i

/-- Whether the foreign key still ties its model to the model `name`. -/
def Released.binds (r : Released) (holder : Model) (name : String) (key : Field × Relation) : Bool :=
  key.2.model == name && !r.hasField holder.name key.1.name

/-- Whether a model still to be deleted, other than itself, refers to the model `name`. -/
def isReferenced (remaining : List Model) (r : Released) (name : String) : Bool :=
  remaining.any fun m => m.name ≠ name && m.relations.any (r.binds m name)

/-- Removes the foreign key from its model, after the indexes over it. -/
def Released.release (r : Released) (holder : Model) (key : Field) : Released :=
  let concerned := holder.indexes.toList.filter (·.references key.name)
  { indexes := concerned.foldl (fun js i =>
      if r.hasIndex holder.name i then js else js ++ [⟨holder.name, i⟩]) r.indexes
    fields := r.fields ++ [⟨holder.name, key⟩] }

/-- Removes every foreign key of `holder` that points at the model `name`. -/
def Released.releaseAll (r : Released) (name : String) (holder : Model) : Released :=
  holder.relations.foldl (fun r key =>
    if r.binds holder name key then r.release holder key.1 else r) r

/-- The model to be deleted next, and what has to be removed before. -/
def next? (remaining : List Model) (r : Released) : Option (String × Released) :=
  match remaining.find? (fun m => !isReferenced remaining r m.name) with
  | some m => some (m.name, r)
  | none => remaining.head?.map fun m =>
    (m.name, (Creation.dropModel m.name remaining).foldl (·.releaseAll m.name ·) r)

/-- The order in which `steps` models are deleted, one at each step. -/
def orderFor : (steps : Nat) → List Model → Released → List String × Released
  | 0, _, r => ([], r)
  | steps + 1, remaining, r =>
    match next? remaining r with
    | none => ([], r)
    | some (name, r') =>
      let (names, last) := orderFor steps (Creation.dropModel name remaining) r'
      (name :: names, last)

/-- The deletion of models with distinct names, given in the order of their names. -/
def diff (models : List Model) : Diff :=
  let (names, released) := orderFor models.length models {}
  { removedIndexes := released.indexes
    removedFields := released.fields
    deletedModels := names }

end Schemata.Deletion
