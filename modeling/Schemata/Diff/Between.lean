import Schemata.Diff.Creation
import Schemata.Diff.Deletion
import Schemata.Diff.Revision

/-! The difference between a schema and a list of live models.

The live models are checked first: each by itself, then against each other, for names declared twice and
for foreign keys that lead nowhere. Then the difference is that of the models on one side only and of the
models on both, in the order of their names. -/
namespace Schemata

/-- Why live models cannot be compared with a schema. -/
inductive LiveFault
  | invalid (fault : ModelFault)
  | dangling (model field target : String)
  deriving DecidableEq, Repr

/-- The live models as a state, if each is valid and no name is declared twice. -/
def State.ofLive (models : List Model) : Except LiveFault State :=
  models.foldlM (fun s m =>
    match m.fault? with
    | some fault => .error (.invalid fault)
    | none =>
      if s.contains m.name then .error (.invalid (.declaredTwice m.name)) else .ok (s.insert m))
    Ascending.empty

/-- Why a foreign key of the model `m` leads nowhere. -/
def State.relationFault? (s : State) (m : Model) (key : Field × Relation) : Option LiveFault :=
  match s.model? key.2.model with
  | none => some (.dangling m.name key.1.name key.2.model)
  | some target =>
    if target.fields.contains key.2.field then none
    else some (.invalid (.unknownTarget m.name key.1.name key.2.model key.2.field))

/-- The first foreign key that leads nowhere. -/
def State.firstRelationFault? (s : State) : Option LiveFault :=
  s.toList.findSome? fun m => m.relations.findSome? (s.relationFault? m)

/-- The difference between two schemas, whatever they hold. -/
def Diff.ofStates (baseline live : State) : Diff :=
  let created := live.toList.filter fun m => !baseline.contains m.name
  let deleted := baseline.toList.filter fun m => !live.contains m.name
  let kept := live.toList.filterMap fun m => (baseline.model? m.name).map fun old => (old, m)
  Creation.diff created ++ kept.foldl (fun d p => d ++ Revision.diff p.1 p.2) Diff.empty ++
    Deletion.diff deleted

/-- The difference between the schema `baseline` and live models. -/
def Diff.between (baseline : State) (live : List Model) : Except LiveFault Diff := do
  let s ← State.ofLive live
  match s.firstRelationFault? with
  | some fault => .error fault
  | none => .ok (Diff.ofStates baseline s)

end Schemata
