import Schemata.Ddl.Render
import Schemata.Proofs.Change.Alike
import Schemata.Proofs.Schema.Indexes

/-! Statements do not depend on what alike schemas may differ in.

A change is rendered with the fields that a schema gives under their names, and of these with the types and the columns
alone, and with the indexes of a model, which are a set. So a change has the same statements against schemas that are
alike, or cannot be rendered against either for the same reason (`render_eq`). -/
namespace Schemata
open Ddl

namespace Model.Alike
variable {m n : Model} {f g : Field}

theorem columnsOf_eq (h : m.Alike n) (i : Index) : columnsOf m i = columnsOf n i := by
  refine List.map_congr_left fun k _ => ?_
  have hk := h.field k
  generalize m.field? k = o at hk
  generalize n.field? k = p at hk
  cases hk with
  | none => rfl
  | some hfg => exact hfg.columnName

theorem renameField_eq (h : m.Alike n) (hf : f.Alike g) (target : String) :
    Ddl.renameField m f target = Ddl.renameField n g target := by
  have hsuffixes : ownedSuffixes f = ownedSuffixes g := by
    have hattr := hf.attributes
    simp only [Field.mk.injEq] at hattr
    obtain ⟨-, htype, -, -, hunique, -, hkey, -⟩ := hattr
    have hchoices : choices? f = choices? g := by rw [choices?, choices?, htype]
    rw [ownedSuffixes, ownedSuffixes, hf.relation?, hchoices, hunique, hkey]
  simp only [Ddl.renameField, renameConstraints, hf.columnName, (hf.rename target).columnName, hf.name, h.name,
    h.effectiveIndexes_eq, hsuffixes]

end Model.Alike

namespace State.Alike
variable {s t : State}

/-- A foreign key points at fields that are alike, or at none. -/
theorem referencedField (h : s.Alike t) (field : Field) (creating : Option Model) :
    Matched Field.Alike (Ddl.referencedField field s creating) (Ddl.referencedField field t creating) := by
  rw [Ddl.referencedField, Ddl.referencedField]
  cases field.relation? with
  | none => exact .error _
  | some r =>
    have hmodel : Option.Rel Model.Alike ((creating.filter (·.name == r.model)).or (s.model? r.model))
        ((creating.filter (·.name == r.model)).or (t.model? r.model)) := by
      cases creating.filter (·.name == r.model) with
      | none => exact h r.model
      | some m => exact .some (.refl m)
    dsimp only
    generalize (creating.filter (·.name == r.model)).or (s.model? r.model) = o at hmodel
    generalize (creating.filter (·.name == r.model)).or (t.model? r.model) = p at hmodel
    cases hmodel with
    | none => exact .error _
    | some hmn =>
      have hfield := hmn.field r.field
      simp only [Option.bind_some]
      generalize Model.field? _ r.field = o at hfield
      generalize Model.field? _ r.field = p at hfield
      cases hfield with
      | none => exact .error _
      | some hfg => exact .ok hfg

theorem columnType_eq (h : s.Alike t) (field : Field) (creating : Option Model) :
    columnType field s creating = columnType field t creating := by
  rw [columnType, columnType]
  split
  · exact (h.referencedField field creating).map_eq fun _ _ hfg => by rw [hfg.type]
  · rfl

theorem reference?_eq (h : s.Alike t) (field : Field) (creating : Option Model) :
    reference? field s creating = reference? field t creating := by
  rw [reference?, reference?]
  split
  · rfl
  · exact (h.referencedField field creating).map_eq fun _ _ hfg => by rw [hfg.columnName]

theorem columnOf_eq (h : s.Alike t) (field : Field) (creating : Option Model) :
    columnOf field s creating = columnOf field t creating := by
  have htype : newColumnType field s creating = newColumnType field t creating := by
    rw [newColumnType, newColumnType, h.columnType_eq]
  rw [columnOf, columnOf, htype, h.reference?_eq]

theorem alterColumn_eq (h : s.Alike t) (table : String) (source target : Field) :
    alterColumn table source target s = alterColumn table source target t := by
  have hretype : retype table source target s = retype table source target t := by
    rw [retype, retype, h.columnType_eq target, h.columnType_eq source, h.reference?_eq]
  rw [alterColumn, alterColumn, hretype]

theorem createTable_eq (h : s.Alike t) (name : String) (fields : List Field) :
    createTable name fields s = createTable name fields t := by
  have hcolumns : (fun f => columnOf f s (some (Model.ofFields name fields))) =
      fun f => columnOf f t (some (Model.ofFields name fields)) :=
    funext fun f => h.columnOf_eq f _
  simp only [createTable, hcolumns]

theorem addColumn_eq (h : s.Alike t) (model : String) (field : Field) :
    addColumn model field s = addColumn model field t := by
  rw [addColumn, addColumn, h.columnOf_eq]

theorem existingModel (h : s.Alike t) (name : String) :
    Matched Model.Alike (Ddl.existingModel s name) (Ddl.existingModel t name) := by
  have hmodel := h name
  rw [Ddl.existingModel, Ddl.existingModel]
  generalize s.model? name = o at hmodel
  generalize t.model? name = p at hmodel
  cases hmodel with
  | none => exact .error _
  | some hmn => exact .ok hmn

/-- **The statements of a change** are the same against schemas that are alike. -/
theorem render_eq (h : s.Alike t) (c : Change) : render c s = render c t := by
  cases c with
  | createModel name fields => exact h.createTable_eq name fields
  | addField model field => exact h.addColumn_eq model field
  | changeField model _ source target => exact h.alterColumn_eq model source target
  | renameField model source target =>
    refine (h.existingModel model).bind_eq fun m n hmn => ?_
    have hfield := hmn.field source
    generalize m.field? source = o at hfield
    generalize n.field? source = p at hfield
    cases hfield with
    | none => rfl
    | some hfg => exact congrArg Except.ok (hmn.renameField_eq hfg target)
  | addIndex model i =>
    exact (h.existingModel model).bind_eq fun m n hmn => by rw [hmn.columnsOf_eq]
  | deleteModel | removeField | removeIndex | runData => rfl

end State.Alike

end Schemata
