import Schemata.Diff.Basic

/-! What changes in a model that is on both sides.

A model that lost one field and gained one of the same shape has renamed it. Its indexes are compared as
the renaming leaves them: an index that only follows the new name is neither removed nor added. -/
namespace Schemata.Revision

/-- The renaming that explains the field lost and the field gained, if there is one of each. -/
def renaming? (removed added : List Field) : Option Renaming :=
  match removed, added with
  | [source], [target] =>
    if source.sameShape target then some ⟨source.name, target.name⟩ else none
  | _, _ => none

/-- The index as the renaming leaves it. -/
def carry (renamed : Option Renaming) (i : Index) : Index :=
  match renamed with
  | some r => i.renameField r.source r.target
  | none => i

def removedFields (old new : Model) : List Field :=
  old.fields.values.filter fun f => !new.fields.contains f.name

/-- The fields that are on both sides and differ. -/
def changedFields (old new : Model) : List Revision :=
  old.fields.entries.filterMap fun e =>
    match new.field? e.1 with
    | some after => if e.2.same after then none else some ⟨e.1, e.2, after⟩
    | none => none

def diff (old new : Model) : Diff :=
  let removed := removedFields old new
  let added := removedFields new old
  let renamed := renaming? removed added
  let carried : Indexes := .ofList (old.indexes.toList.map (carry renamed))
  { removedIndexes :=
      (old.indexes.toList.filter fun i => !new.indexes.contains (carry renamed i)).map (⟨new.name, ·⟩)
    renamedFields := renamed.toList.map (⟨new.name, ·⟩)
    changedFields := (changedFields old new).map (⟨new.name, ·⟩)
    addedFields := if renamed.isSome then [] else added.map (⟨new.name, ·⟩)
    addedIndexes :=
      (new.indexes.toList.filter fun i => !carried.contains i).map (⟨new.name, ·⟩)
    removedFields := if renamed.isSome then [] else removed.map (⟨new.name, ·⟩) }

end Schemata.Revision
