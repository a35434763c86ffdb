import Mathlib.Logic.Function.Basic
import Schemata.Proofs.Engine.Script
import Schemata.Proofs.Schema.Columns

/-! Statements read as updates of a catalogue of tables and columns.

A statement that names a column has no meaning where the column is lacking, and one that makes a column none
where there is one already (`Statement.update`). The statements of a change take the catalogue of the schema
before it to that of the schema after it exactly when, in the schema after it, no two fields of a model have
one column (`mirrors_render`). -/
namespace Schemata.Ddl

/-! ### Catalogues -/

/-- The columns of each table; none where there is no table. -/
abbrev Catalogue := String → Option (Finset String)

namespace Catalogue

/-- The catalogue with the columns of a table that is there changed, if they can be. -/
def alter (cat : Catalogue) (table : String) (change : Finset String → Option (Finset String)) :
    Option Catalogue :=
  ((cat table).bind change).map fun columns => Function.update cat table (some columns)

def add (column : String) (columns : Finset String) : Option (Finset String) :=
  if column ∈ columns then none else some (insert column columns)

def drop (column : String) (columns : Finset String) : Option (Finset String) :=
  if column ∈ columns then some (columns.erase column) else none

def rename (source target : String) (columns : Finset String) : Option (Finset String) :=
  if source ∈ columns ∧ target ∉ columns then some (insert target (columns.erase source)) else none

/-- Leaves the columns alone, if the column is one of them. -/
def touch (column : String) (columns : Finset String) : Option (Finset String) :=
  if column ∈ columns then some columns else none

variable {cat : Catalogue} {table : String} {columns : Finset String}
  {change : Finset String → Option (Finset String)}

theorem alter_eq (h : cat table = some columns) :
    cat.alter table change = (change columns).map fun cs => Function.update cat table (some cs) := by
  rw [alter, h, Option.bind_some]

theorem alter_self (h : cat table = some columns) (hc : change columns = some columns) :
    cat.alter table change = some cat := by
  rw [alter_eq h, hc, Option.map_some, ← h, Function.update_eq_self]

end Catalogue

open Catalogue in
/-- The catalogue after the statement; none when the statement names a table or column that is lacking, or
makes one that is there. Indexes and the names of constraints are no part of a catalogue. -/
def Statement.update : Statement → Catalogue → Option Catalogue
  | .createTable table columns _, cat =>
    if cat table = none ∧ (columns.map Column.name).Nodup then
      some (Function.update cat table (some (columns.map Column.name).toFinset))
    else none
  | .dropTable table, cat => (cat table).map fun _ => Function.update cat table none
  | .addColumn table column, cat => cat.alter table (add column.name)
  | .dropColumn table column, cat => cat.alter table (drop column)
  | .renameColumn table source target, cat => cat.alter table (rename source target)
  | .addUnique table _ column, cat | .addCheck table _ column _, cat
  | .addForeignKey table _ column _, cat | .setType table column _, cat | .setNotNull table column, cat
  | .dropNotNull table column, cat | .setDefault table column _, cat | .dropDefault table column, cat =>
    cat.alter table (touch column)
  | .renameConstraint _ _ _, cat | .dropConstraint _ _, cat | .createIndex _ _ _ _, cat
  | .dropIndex _, cat | .renameIndex _ _, cat | .data _ _, cat | .begin, cat | .commit, cat => some cat

/-- The catalogue after statements in a row. -/
def Catalogue.run (cat : Catalogue) (statements : List Statement) : Option Catalogue :=
  statements.foldlM (fun cat statement => statement.update cat) cat

/-- The catalogue of a database that holds the schema. -/
def catalogueOf (s : State) : Catalogue := fun n => (s.model? n).map Model.columns

/-! ### Statements that change nothing -/

variable {cat : Catalogue} {table column : String} {columns : Finset String}

theorem run_cons (statement : Statement) (rest : List Statement) :
    cat.run (statement :: rest) = (statement.update cat).bind (·.run rest) := by
  rw [Catalogue.run, List.foldlM_cons]
  rfl

theorem run_append (a b : List Statement) : cat.run (a ++ b) = (cat.run a).bind (·.run b) := by
  rw [Catalogue.run, List.foldlM_append]
  rfl

/-- Whether the statement changes nothing of a catalogue in which the table has the column. -/
def Statement.Keeps (statement : Statement) (table column : String) : Prop :=
  ∀ (cat : Catalogue) (columns : Finset String), cat table = some columns → column ∈ columns →
    statement.update cat = some cat

theorem Statement.keeps_of_eq {statement : Statement} (h : ∀ cat, statement.update cat = some cat)
    (table column : String) : statement.Keeps table column := fun cat _ _ _ => h cat

theorem Statement.keeps_of_touch {statement : Statement}
    (h : ∀ cat : Catalogue, statement.update cat = cat.alter table (Catalogue.touch column)) :
    statement.Keeps table column := by
  intro cat columns hcat hc
  rw [h, Catalogue.alter_self hcat (if_pos hc)]

theorem run_of_keeps {statements : List Statement} (h : ∀ st ∈ statements, st.Keeps table column)
    (hcat : cat table = some columns) (hc : column ∈ columns) : cat.run statements = some cat := by
  induction statements with
  | nil => rfl
  | cons st rest ih =>
    rw [run_cons, h st (List.mem_cons_self ..) cat columns hcat hc, Option.bind_some]
    exact ih fun st hst => h st (List.mem_cons_of_mem _ hst)

theorem run_of_eq {statements : List Statement} (h : ∀ st ∈ statements, ∀ cat, st.update cat = some cat) :
    cat.run statements = some cat :=
  foldlM_eq_some_self h _

theorem mem_renameConstraints {f : Field} {source target : String} {st : Statement}
    (h : st ∈ renameConstraints table f source target) (cat : Catalogue) : st.update cat = some cat := by
  obtain ⟨suffix, -, rfl⟩ := List.mem_map.1 h
  rfl

/-! ### What a change is rendered to -/

section Rendering
variable {schema : State} {creating : Option Model} {n : String} {f : Field} {m : Model} {own : List Statement}

theorem of_columnOf {c : Column} (h : columnOf f schema creating = .ok c) :
    ∃ type reference, newColumnType f schema creating = .ok type ∧ reference? f schema creating = .ok reference ∧
      c = {
        name := f.columnName
        type
        notNull := !f.nullable && !f.primaryKey
        unique := f.unique && !f.primaryKey
        default := f.default
        choices := choices? f
        reference } := by
  obtain ⟨type, htype, h⟩ := bind_eq_ok_iff.1 h
  obtain ⟨reference, href, h⟩ := bind_eq_ok_iff.1 h
  exact ⟨type, reference, htype, href, (Except.ok.inj h).symm⟩

theorem name_of_columnOf {c : Column} (h : columnOf f schema creating = .ok c) : c.name = f.columnName := by
  obtain ⟨type, reference, -, -, rfl⟩ := of_columnOf h
  rfl

theorem names_of_mapM {fields : List Field} {columns : List Column}
    (h : fields.mapM (columnOf · schema creating) = .ok columns) :
    columns.map Column.name = fields.map Field.columnName :=
  map_of_mapM h fun _ _ => name_of_columnOf

theorem of_createTable {fields : List Field} (h : createTable n fields schema = .ok own) :
    ∃ columns, fields.mapM (columnOf · schema (some (.ofFields n fields))) = .ok columns ∧
      own = .createTable n columns ((fields.find? (·.primaryKey)).map Field.columnName) ::
        (Model.ofFields n fields).effectiveIndexes.toList.map fun i =>
          createIndex n i (columnsOf (.ofFields n fields) i) := by
  obtain ⟨columns, hcolumns, h⟩ := bind_eq_ok_iff.1 h
  exact ⟨columns, hcolumns, (Except.ok.inj h).symm⟩

theorem of_render_addField (h : render (.addField n f) schema = .ok own) :
    ∃ column, columnOf f schema none = .ok column ∧
      own = .addColumn n column :: (f.implicitIndex?.map fun i => createIndex n i [f.columnName]).toList := by
  rw [render, addColumn] at h
  split at h
  · cases h
  · obtain ⟨column, hcolumn, h⟩ := bind_eq_ok_iff.1 h
    exact ⟨column, hcolumn, (Except.ok.inj h).symm⟩

theorem of_retype {source target : Field} {retyped : List Statement}
    (h : retype table source target schema = .ok retyped) :
    ∃ (newType oldType : ColumnType) (reference : Option Reference),
      (columnType target schema none = .ok newType ∧ columnType source schema none = .ok oldType ∧
        reference? target schema none = .ok reference) ∧ retyped =
      ((if source.relation?.isSome then
          [.dropConstraint table (constraintName table target.columnName "fkey")] else []) ++
        (if (choices? source).isSome then
          [.dropConstraint table (constraintName table target.columnName "check")] else [])) ++
      (if oldType = newType then [] else [.setType table target.columnName newType]) ++
      (reference.map (.addForeignKey table (constraintName table target.columnName "fkey")
        target.columnName)).toList ++
      ((choices? target).map (.addCheck table (constraintName table target.columnName "check")
        target.columnName)).toList := by
  obtain ⟨newType, hnew, h⟩ := bind_eq_ok_iff.1 h
  obtain ⟨oldType, hold, h⟩ := bind_eq_ok_iff.1 h
  obtain ⟨reference, href, h⟩ := bind_eq_ok_iff.1 h
  exact ⟨newType, oldType, reference, ⟨hnew, hold, href⟩, (Except.ok.inj h).symm⟩

theorem render_renameField {source target : String} (hm : schema.model? n = some m) (hf : m.field? source = some f) :
    render (.renameField n source target) schema = .ok (renameField m f target) := by
  simp only [render, existingModel, hm, bind, Except.bind, hf, pure, Except.pure]

theorem render_addIndex {i : Index} (hm : schema.model? n = some m) :
    render (.addIndex n i) schema = .ok [createIndex n i (columnsOf m i)] := by
  simp only [render, existingModel, hm, bind, Except.bind, pure, Except.pure]

theorem of_render_runData {name payload : String} (h : render (.runData name payload) schema = .ok own) :
    own = [.data name (Text.trim payload)] := by
  simp only [render] at h
  split at h <;> cases h
  rfl

end Rendering

/-! ### What the parts of a rendered change do to the catalogue -/

section Altering
variable {source target : Field} {st : Statement}

theorem keeps_of_retype {schema : State} {retyped : List Statement}
    (h : retype table source target schema = .ok retyped) (hst : st ∈ retyped) :
    st.Keeps table target.columnName := by
  obtain ⟨newType, oldType, reference, -, rfl⟩ := of_retype h
  simp only [List.mem_append, List.mem_ite_nil_right, List.mem_ite_nil_left, List.mem_singleton,
    Option.mem_toList, Option.map_eq_some_iff] at hst
  rcases hst with (((⟨-, rfl⟩ | ⟨-, rfl⟩) | ⟨-, rfl⟩) | ⟨r, -, rfl⟩) | ⟨choices, -, rfl⟩
  · exact Statement.keeps_of_eq (fun _ => rfl) _ _
  · exact Statement.keeps_of_eq (fun _ => rfl) _ _
  · exact Statement.keeps_of_touch fun _ => rfl
  · exact Statement.keeps_of_touch fun _ => rfl
  · exact Statement.keeps_of_touch fun _ => rfl

theorem keeps_of_unindex (hst : st ∈ unindex table source target) : st.Keeps table column := by
  simp only [unindex, List.mem_ite_nil_right, List.mem_singleton] at hst
  obtain ⟨-, rfl⟩ := hst
  exact Statement.keeps_of_eq (fun _ => rfl) _ _

theorem keeps_of_renullify (hst : st ∈ renullify table column source target) : st.Keeps table column := by
  rw [renullify] at hst
  split at hst
  · cases hst
  split at hst <;> (rw [List.mem_singleton.1 hst]; exact Statement.keeps_of_touch fun _ => rfl)

theorem keeps_of_redefault (hst : st ∈ redefault table column source target) : st.Keeps table column := by
  rw [redefault] at hst
  split at hst
  · cases hst
  split at hst <;> (rw [List.mem_singleton.1 hst]; exact Statement.keeps_of_touch fun _ => rfl)

theorem keeps_of_reunify (hst : st ∈ reunify table column source target) : st.Keeps table column := by
  rw [reunify] at hst
  split at hst
  · cases hst
  split at hst
  · rw [List.mem_singleton.1 hst]
    exact Statement.keeps_of_touch fun _ => rfl
  · rw [List.mem_singleton.1 hst]
    exact Statement.keeps_of_eq (fun _ => rfl) _ _

theorem keeps_of_reindex (hst : st ∈ reindex table source target) : st.Keeps table column := by
  rw [reindex] at hst
  split at hst
  · rw [List.mem_singleton.1 hst]
    exact Statement.keeps_of_eq (fun _ => rfl) _ _
  · cases hst

/-- What altering a column comes to, with the statements for another type left open. -/
theorem of_alterColumn {schema : State} {own : List Statement}
    (h : alterColumn table source target schema = .ok own) :
    keepsKey source target = true ∧ ∃ retyped,
      (source.type = target.type ∧ retyped = [] ∨ retype table source target schema = .ok retyped) ∧
      own = recolumn table source target ++ (unindex table source target ++ (retyped ++
        renullify table target.columnName source target ++ redefault table target.columnName source target ++
        reunify table target.columnName source target ++ reindex table source target)) := by
  simp only [alterColumn] at h
  split at h
  · rename_i hkey
    refine ⟨hkey, ?_⟩
    split at h
    · rename_i htype
      cases h
      exact ⟨[], .inl ⟨htype, rfl⟩, by simp only [List.append_assoc]⟩
    · cases hr : retype table source target schema with
      | error fault =>
        rw [hr] at h
        cases h
      | ok retyped =>
        rw [hr] at h
        cases h
        exact ⟨retyped, .inr rfl, by simp only [List.append_assoc]⟩
  · cases h

/-- Behind the renaming of the column, altering a column changes nothing of the catalogue. -/
theorem keeps_of_alterColumn {schema : State} {own : List Statement}
    (h : alterColumn table source target schema = .ok own) :
    ∃ rest, own = recolumn table source target ++ rest ∧ ∀ st ∈ rest, st.Keeps table target.columnName := by
  obtain ⟨-, retyped, hretyped, rfl⟩ := of_alterColumn h
  refine ⟨_, rfl, fun st hst => ?_⟩
  simp only [List.mem_append] at hst
  rcases hst with hst | ((((hst | hst) | hst) | hst) | hst)
  · exact keeps_of_unindex hst
  · rcases hretyped with ⟨-, rfl⟩ | hr
    · cases hst
    · exact keeps_of_retype hr hst
  · exact keeps_of_renullify hst
  · exact keeps_of_redefault hst
  · exact keeps_of_reunify hst
  · exact keeps_of_reindex hst

end Altering

/-! ### The statements of a change -/

/-- The statements make of the catalogue what the table is then, unless two fields of it have one column. -/
structure Outcome (cat : Catalogue) (own : List Statement) (n : String) (m : Model) : Prop where
  runs : m.DistinctColumns → cat.run own = some (Function.update cat n (some m.columns))
  fails : ¬ m.DistinctColumns → cat.run own = none

section Within
variable {n : String} {m : Model} (hcat : cat n = some m.columns) (hm : m.DistinctColumns)
include hcat hm

omit hm in
theorem outcome_of_eq {m' : Model} {own : List Statement} (hown : cat.run own = some cat)
    (hc : m'.columns = m.columns) (hd : m'.DistinctColumns) : Outcome cat own n m' where
  runs _ := by rw [hown, hc, ← hcat, Function.update_eq_self]
  fails h := absurd hd h

theorem outcome_addColumn {f : Field} {column : Column} {rest : List Statement}
    (hfree : m.field? f.name = none) (hcolumn : column.name = f.columnName)
    (hrest : ∀ st ∈ rest, ∀ cat, st.update cat = some cat) :
    Outcome cat (.addColumn n column :: rest) n (m.withFields [f]) := by
  have hadd : cat.run (.addColumn n column :: rest) =
      (Catalogue.add f.columnName m.columns).map fun cs => Function.update cat n (some cs) := by
    rw [run_cons, Statement.update, Catalogue.alter_eq hcat, hcolumn]
    cases Catalogue.add f.columnName m.columns with
    | none => rfl
    | some cs => exact run_of_eq hrest
  constructor
  · intro hd
    have hnew := (Model.distinctColumns_withField hm hfree).1 hd
    rw [hadd, Catalogue.add, if_neg hnew, Model.columns_withField hfree, Option.map_some]
  · intro hd
    have hin : f.columnName ∈ m.columns := by
      by_contra hnew
      exact hd ((Model.distinctColumns_withField hm hfree).2 hnew)
    rw [hadd, Catalogue.add, if_pos hin, Option.map_none]

theorem outcome_dropColumn {f g : Field} (hg : m.field? f.name = some g)
    (hc : g.columnName = f.columnName) :
    Outcome cat [.dropColumn n f.columnName] n (m.withoutFields [f]) := by
  have hin : f.columnName ∈ m.columns := Model.mem_columns.2 ⟨_, g, hg, hc⟩
  constructor
  · intro _
    rw [run_cons, Statement.update, Catalogue.alter_eq hcat, Catalogue.drop, if_pos hin,
      Model.columns_withoutField hm hg hc]
    rfl
  · intro hd
    refine absurd (hm.of_fields fun k x hx => ⟨x, ?_, rfl⟩) hd
    rw [Model.field?_withoutFields] at hx
    split at hx
    · cases hx
    · exact hx

/-- A field makes way for another one: its column is renamed, unless the name stays. -/
theorem outcome_renameColumn {m' : Model} {k k' : String} {f f' : Field} {rest tail : List Statement}
    (h : m.Replaces m' k f k' f') (hrest : ∀ st ∈ rest, ∀ cat, st.update cat = some cat)
    (htail : ∀ st ∈ tail, st.Keeps n f'.columnName) :
    Outcome cat
      ((if f.columnName = f'.columnName then []
        else .renameColumn n f.columnName f'.columnName :: rest) ++ tail) n m' := by
  have hin : f.columnName ∈ m.columns := Model.mem_columns.2 ⟨k, f, h.found, rfl⟩
  by_cases hc : f.columnName = f'.columnName
  · rw [if_pos hc, List.nil_append]
    exact outcome_of_eq hcat (run_of_keeps htail hcat (hc ▸ hin)) (h.columns_of_eq hc)
      ((h.distinctColumns_iff hm).2 (.inl hc))
  · rw [if_neg hc, List.cons_append]
    have hrename : cat.run (.renameColumn n f.columnName f'.columnName :: (rest ++ tail)) =
        (Catalogue.rename f.columnName f'.columnName m.columns).bind fun cs =>
          Catalogue.run (Function.update cat n (some cs)) tail := by
      rw [run_cons, Statement.update, Catalogue.alter_eq hcat, Option.bind_map]
      refine congrArg _ (funext fun cs => ?_)
      exact (run_append ..).trans (by rw [run_of_eq hrest, Option.bind_some])
    constructor
    · intro hd
      have hnew := ((h.distinctColumns_iff hm).1 hd).resolve_left hc
      rw [hrename, Catalogue.rename, if_pos ⟨hin, hnew⟩, Option.bind_some,
        ← h.columns_of_ne hm]
      refine run_of_keeps htail (Function.update_self ..) (Model.mem_columns.2 ⟨k', f', ?_, rfl⟩)
      rw [h.left, if_pos rfl]
    · intro hd
      rw [hrename, Catalogue.rename, if_neg fun hnew => ?_, Option.bind_none]
      exact hd ((h.distinctColumns_iff hm).2 (.inr hnew.2))

end Within

theorem outcome_createTable {n : String} {fields : List Field} {schema : State} {own : List Statement}
    (hcat : cat n = none) (hd : (fields.map Field.name).Nodup)
    (h : createTable n fields schema = .ok own) : Outcome cat own n (.ofFields n fields) := by
  have hvalues := Model.values_ofFields n hd
  obtain ⟨columns, hcolumns, rfl⟩ := of_createTable h
  have hnames := names_of_mapM hcolumns
  have hindexes : ∀ st ∈ (Model.ofFields n fields).effectiveIndexes.toList.map
      (fun i => createIndex n i (columnsOf (.ofFields n fields) i)),
      ∀ cat : Catalogue, st.update cat = some cat := by
    intro st hst cat
    obtain ⟨i, -, rfl⟩ := List.mem_map.1 hst
    rfl
  constructor
  · intro hdistinct
    rw [Model.DistinctColumns, hvalues] at hdistinct
    rw [run_cons, Statement.update, hnames, if_pos ⟨hcat, hdistinct⟩, Option.bind_some,
      run_of_eq hindexes, Model.columns, hvalues]
  · intro hdistinct
    rw [Model.DistinctColumns, hvalues] at hdistinct
    rw [run_cons, Statement.update, hnames, if_neg fun h => hdistinct h.2, Option.bind_none]

/-- Whether the change tells the column of a field that it removes as the schema has it. -/
def Fits : Change → State → Prop
  | .removeField n f, s => ∀ m g, s.model? n = some m → m.field? f.name = some g →
      g.columnName = f.columnName
  | _, _ => True

variable {c : Change} {s s' : State} {own : List Statement}

theorem catalogueOf_of_apply {n : String} (hc : c.model? = some n) (h : c.apply s = .ok s') :
    catalogueOf s' = Function.update (catalogueOf s) n ((s'.model? n).map Model.columns) := by
  funext x
  by_cases hx : x = n
  · subst hx
    rw [Function.update_self, catalogueOf]
  · rw [Function.update_of_ne hx, catalogueOf, catalogueOf, Change.model?_of_apply_of_ne hc h hx]

/-- The statements take the catalogue of the one schema to that of the other or, when two fields of a model of
the latter have one column, nowhere. -/
structure Mirrors (own : List Statement) (s s' : State) : Prop where
  runs : s'.DistinctColumns → (catalogueOf s).run own = some (catalogueOf s')
  fails : ¬ s'.DistinctColumns → (catalogueOf s).run own = none

/-- Within a model, the outcome for its table is the outcome of the change. -/
theorem mirrors_of_outcome {n : String} {m' : Model} (hc : c.model? = some n) (h : c.apply s = .ok s')
    (hs : s.DistinctColumns) (hm' : s'.model? n = some m') (ho : Outcome (catalogueOf s) own n m') :
    Mirrors own s s' where
  runs hd := by
    rw [ho.runs (hd n m' hm'), catalogueOf_of_apply hc h, hm']
    rfl
  fails hd := by
    refine ho.fails fun hm => hd (Change.forall_model_of_apply hc h hs fun mx hx => ?_)
    cases hm'.symm.trans hx
    exact hm

theorem catalogueOf_of_model? {n : String} {m : Model} (h : s.model? n = some m) :
    catalogueOf s n = some m.columns := by
  rw [catalogueOf, h]
  rfl

/-! ### One change of each kind -/

section Kinds
variable {n : String} {m m' : Model} (hs : s.DistinctColumns)
include hs

theorem mirrors_runData {name payload : String} (hr : render (.runData name payload) s = .ok own) :
    Mirrors own s s := by
  obtain rfl := of_render_runData hr
  exact ⟨fun _ => rfl, fun hd => absurd hs hd⟩

theorem mirrors_createModel {fields : List Field} (h : (Change.createModel n fields).apply s = .ok s')
    (hr : render (.createModel n fields) s = .ok own) : Mirrors own s s' := by
  obtain ⟨hnone, hd, hmodel⟩ := Change.of_effect_createModel (Change.effect_of_apply rfl h)
  refine mirrors_of_outcome rfl h hs hmodel (outcome_createTable ?_ hd hr)
  rw [catalogueOf, hnone]
  rfl

variable (hm : s.model? n = some m)
include hm

theorem mirrors_deleteModel (hgone : s'.model? n = none) (h : (Change.deleteModel n).apply s = .ok s')
    (hr : render (.deleteModel n) s = .ok own) : Mirrors own s s' := by
  cases hr
  refine ⟨fun _ => ?_, fun hd => absurd (Change.forall_model_of_apply rfl h hs fun mx hx => ?_) hd⟩
  · rw [run_cons, Statement.update, catalogueOf_of_model? hm, catalogueOf_of_apply rfl h, hgone]
    rfl
  · cases hgone.symm.trans hx

variable (hm' : s'.model? n = some m')
include hm'

theorem mirrors_addField {f : Field} (ha : m.addField f = .ok m') (h : (Change.addField n f).apply s = .ok s')
    (hr : render (.addField n f) s = .ok own) : Mirrors own s s' := by
  obtain ⟨hfree, rfl⟩ := Model.of_addField ha
  obtain ⟨column, hcolumn, rfl⟩ := of_render_addField hr
  refine mirrors_of_outcome rfl h hs hm'
    (outcome_addColumn (catalogueOf_of_model? hm) (hs n m hm) hfree (name_of_columnOf hcolumn) ?_)
  intro st hst cat
  obtain ⟨i, -, rfl⟩ := Option.map_eq_some_iff.1 (Option.mem_toList.1 hst)
  rfl

theorem mirrors_removeField {f : Field} (ha : m.removeField f.name = .ok m')
    (h : (Change.removeField n f).apply s = .ok s') (hr : render (.removeField n f) s = .ok own)
    (hfit : Fits (.removeField n f) s) : Mirrors own s s' := by
  cases hr
  obtain ⟨hin, rfl⟩ := Model.of_removeField ha
  obtain ⟨g, hg⟩ := Option.isSome_iff_exists.1 hin
  exact mirrors_of_outcome rfl h hs hm'
    (outcome_dropColumn (catalogueOf_of_model? hm) (hs n m hm) hg (hfit m g hm hg))

theorem mirrors_changeField {name : String} {source target : Field} (ha : m.changeField name source target = .ok m')
    (h : (Change.changeField n name source target).apply s = .ok s')
    (hr : render (.changeField n name source target) s = .ok own) : Mirrors own s s' := by
  obtain ⟨⟨current, hcurrent, hsame⟩, rfl⟩ := Model.of_changeField ha
  obtain ⟨rest, rfl, hrest⟩ := keeps_of_alterColumn hr
  have hcolumn : source.columnName = current.columnName := (Field.alike_of_same hsame).columnName.symm
  rw [recolumn, hcolumn]
  exact mirrors_of_outcome rfl h hs hm' (outcome_renameColumn (catalogueOf_of_model? hm) (hs n m hm)
    (Model.replaces_revised hcurrent) (fun st hst => mem_renameConstraints hst) hrest)

theorem mirrors_renameField {source target : String} (ha : m.renameField source target = .ok m')
    (h : (Change.renameField n source target).apply s = .ok s')
    (hr : render (.renameField n source target) s = .ok own) : Mirrors own s s' := by
  obtain ⟨hfree, ⟨f, hf⟩, rfl⟩ := Model.of_renameField ha
  cases (render_renameField hm hf).symm.trans hr
  rw [renameField, State.name_of_model? hm]
  refine mirrors_of_outcome rfl h hs hm' (outcome_renameColumn (catalogueOf_of_model? hm) (hs n m hm)
    (Model.replaces_renamed hf hfree) (fun st hst => mem_renameConstraints hst) fun st hst => ?_)
  obtain ⟨i, -, rfl⟩ := List.mem_map.1 hst
  exact Statement.keeps_of_eq (fun _ => rfl) _ _

theorem mirrors_addIndex {i : Index} (ha : m.addIndex i = .ok m') (h : (Change.addIndex n i).apply s = .ok s')
    (hr : render (.addIndex n i) s = .ok own) : Mirrors own s s' := by
  obtain rfl := Model.of_addIndex ha
  cases (render_addIndex hm).symm.trans hr
  exact mirrors_of_outcome rfl h hs hm' (outcome_of_eq (catalogueOf_of_model? hm) rfl rfl (hs n m hm))

theorem mirrors_removeIndex {i : Index} (ha : m.removeIndex i = .ok m')
    (h : (Change.removeIndex n i).apply s = .ok s') (hr : render (.removeIndex n i) s = .ok own) :
    Mirrors own s s' := by
  obtain rfl := Model.of_removeIndex ha
  cases hr
  exact mirrors_of_outcome rfl h hs hm' (outcome_of_eq (catalogueOf_of_model? hm) rfl rfl (hs n m hm))

end Kinds

/-- **The statements of a change** take the catalogue of the schema before it to that of the schema after it,
or, when two fields of a model would have one column, nowhere. -/
theorem mirrors_render (hr : render c s = .ok own) (h : c.apply s = .ok s') (hs : s.DistinctColumns)
    (hfit : Fits c s) : Mirrors own s s' := by
  obtain ⟨name, payload, rfl, rfl⟩ | ⟨n, o, o', hc, hm, hm', ht⟩ := Change.data_or_turns_of_apply h
  · exact mirrors_runData hs hr
  cases ht with
  | runData => cases hc
  | createModel => exact mirrors_createModel hs h hr
  | deleteModel => cases hc; exact mirrors_deleteModel hs hm hm' h hr
  | addField ha => cases hc; exact mirrors_addField hs hm hm' ha h hr
  | removeField ha => cases hc; exact mirrors_removeField hs hm hm' ha h hr hfit
  | changeField _ ha => cases hc; exact mirrors_changeField hs hm hm' ha h hr
  | renameField ha => cases hc; exact mirrors_renameField hs hm hm' ha h hr
  | addIndex ha => cases hc; exact mirrors_addIndex hs hm hm' ha h hr
  | removeIndex ha => cases hc; exact mirrors_removeIndex hs hm hm' ha h hr

/-! ### Changes in a row -/

theorem run_cons_render {rest : List Statement} (h : (catalogueOf s).run own = some (catalogueOf s')) :
    (catalogueOf s).run (own ++ rest) = (catalogueOf s').run rest := by
  rw [run_append, h, Option.bind_some]

/-- Changes in a row whose statements keep the catalogue and the schema together on the way: they do so to
the end, unless two fields of a model have one column somewhere on the way. -/
theorem run_statements {cs : List Change} {after : State} {statements : List Statement}
    (h : statements? cs s = some (statements, after)) (hs : s.DistinctColumns)
    (hfit : ∀ done c rest t, cs = done ++ c :: rest → Change.applyAll done s = .ok t → Fits c t) :
    ((∀ done rest t, cs = done ++ rest → Change.applyAll done s = .ok t → t.DistinctColumns) →
        (catalogueOf s).run statements = some (catalogueOf after)) ∧
      ∀ done rest t, cs = done ++ rest → Change.applyAll done s = .ok t → ¬ t.DistinctColumns →
        (catalogueOf s).run statements = none := by
  induction cs generalizing s statements with
  | nil =>
    cases h
    refine ⟨fun _ => rfl, fun done rest t hsplit ht hd => ?_⟩
    obtain ⟨rfl, -⟩ := List.append_eq_nil_iff.1 hsplit.symm
    cases ht
    exact absurd hs hd
  | cons c rest ih =>
    obtain ⟨own, u, more, hr, ha, hmore, rfl⟩ := of_statements?_cons h
    have hstep := mirrors_render hr ha hs (hfit [] c rest s rfl rfl)
    have hfit' : ∀ done c' rest' t, rest = done ++ c' :: rest' → Change.applyAll done u = .ok t →
        Fits c' t := fun done c' rest' t hsplit ht =>
      hfit (c :: done) c' rest' t (by rw [hsplit]; rfl) (Change.applyAll_cons_eq_ok_iff.2 ⟨u, ha, ht⟩)
    constructor
    · intro hall
      have hdu : u.DistinctColumns :=
        hall [c] rest u rfl (Change.applyAll_cons_eq_ok_iff.2 ⟨u, ha, rfl⟩)
      rw [run_cons_render (hstep.runs hdu)]
      refine (ih hmore hdu hfit').1 fun done rest' t hsplit ht => ?_
      exact hall (c :: done) rest' t (by rw [hsplit]; rfl) (Change.applyAll_cons_eq_ok_iff.2 ⟨u, ha, ht⟩)
    · intro done rest' t hsplit ht hd
      cases done with
      | nil =>
        cases ht
        exact absurd hs hd
      | cons first done =>
        obtain ⟨rfl, hrest⟩ := List.cons.inj hsplit
        obtain ⟨v, hv, ht⟩ := Change.applyAll_cons_eq_ok_iff.1 ht
        cases ha.symm.trans hv
        by_cases hdu : u.DistinctColumns
        · rw [run_cons_render (hstep.runs hdu)]
          exact (ih hmore hdu hfit').2 done rest' t hrest ht hd
        · rw [run_append, hstep.fails hdu, Option.bind_none]

end Schemata.Ddl
