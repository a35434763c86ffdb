import Schemata.Proofs.Change.Indexes
import Schemata.Proofs.Change.Paired
import Schemata.Proofs.Ddl.Catalogue

/-! Statements read as updates of a registry of indexes.

An index has a name that no other one in the database has, and is over columns of one table. A statement that
creates an index or gives one another name has no meaning where the name is taken, and one that drops or renames
an index none where there is none of the name (`Statement.register`). -/
namespace Schemata.Ddl

/-! ### Registries -/

/-- An index in the database. -/
structure NamedIndex where
  name : String
  table : String
  columns : List String
  deriving DecidableEq

namespace NamedIndex

/-- The index after the one of the name `source` was renamed to `target`. -/
def rename (source target : String) (x : NamedIndex) : NamedIndex :=
  { x with name := if x.name = source then target else x.name }

/-- The index after the column `source` of the table was renamed to `target`. -/
def recolumn (table source target : String) (x : NamedIndex) : NamedIndex :=
  if x.table = table then { x with columns := x.columns.map fun c => if c = source then target else c } else x

end NamedIndex

/-- The indexes of a database. -/
abbrev Registry := Finset NamedIndex

def Registry.names (reg : Registry) : Finset String := reg.image NamedIndex.name

/-- The registry after the statement; none when the statement makes an index of a name that is taken, or drops
or renames one that is lacking. An index goes with its table and with each of its columns. -/
def Statement.register : Statement → Registry → Option Registry
  | .createIndex _ name table columns, reg =>
    if name ∈ reg.names then none else some (insert ⟨name, table, columns⟩ reg)
  | .dropIndex name, reg => if name ∈ reg.names then some (reg.filter (·.name ≠ name)) else none
  | .renameIndex source target, reg =>
    if source ∈ reg.names ∧ target ∉ reg.names then some (reg.image (·.rename source target)) else none
  | .dropTable table, reg => some (reg.filter (·.table ≠ table))
  | .dropColumn table column, reg => some (reg.filter fun x => ¬ (x.table = table ∧ column ∈ x.columns))
  | .renameColumn table source target, reg => some (reg.image (·.recolumn table source target))
  | .createTable _ _ _, reg | .addColumn _ _, reg | .renameConstraint _ _ _, reg | .dropConstraint _ _, reg
  | .addUnique _ _ _, reg | .addCheck _ _ _ _, reg | .addForeignKey _ _ _ _, reg | .setType _ _ _, reg
  | .setNotNull _ _, reg | .dropNotNull _ _, reg | .setDefault _ _ _, reg | .dropDefault _ _, reg
  | .data _ _, reg | .begin, reg | .commit, reg => some reg

/-- The registry after statements in a row. -/
def Registry.run (reg : Registry) (statements : List Statement) : Option Registry :=
  statements.foldlM (fun reg statement => statement.register reg) reg

/-- The index as the database has it. -/
def placed (m : Model) (i : Index) : NamedIndex := ⟨i.nameFor m.name, m.name, columnsOf m i⟩

/-- The registry of a database that holds the schema: every index in force, under its name. -/
def registryOf (s : State) : Registry :=
  (s.toList.flatMap fun m => m.effectiveIndexes.toList.map (placed m)).toFinset

namespace Registry
variable {reg : Registry}

theorem run_cons (statement : Statement) (rest : List Statement) :
    reg.run (statement :: rest) = (statement.register reg).bind (·.run rest) := by
  rw [run, List.foldlM_cons]
  rfl

theorem run_append (a b : List Statement) : reg.run (a ++ b) = (reg.run a).bind (·.run b) := by
  rw [run, List.foldlM_append]
  rfl

theorem run_of_still {statements : List Statement} (h : ∀ st ∈ statements, ∀ reg, st.register reg = some reg) :
    reg.run statements = some reg :=
  foldlM_eq_some_self h _

end Registry

theorem mem_registryOf {s : State} {x : NamedIndex} :
    x ∈ registryOf s ↔ ∃ m, s.model? x.table = some m ∧ ∃ i ∈ m.indexSet, placed m i = x := by
  simp only [registryOf, List.mem_toFinset, List.mem_flatMap, List.mem_map, Model.indexSet]
  constructor
  · rintro ⟨m, hm, i, hi, rfl⟩
    exact ⟨m, Ascending.find?_of_mem hm, i, hi, rfl⟩
  · rintro ⟨m, hm, hx⟩
    exact ⟨m, State.mem_of_model? hm, hx⟩

/-- The names in the registry of a schema are those of its indexes. -/
theorem names_registryOf (s : State) : (registryOf s).names = s.indexNames.toFinset := by
  ext name
  simp only [Registry.names, registryOf, State.indexNames, State.indexes, placed, Finset.mem_image,
    List.mem_toFinset, List.mem_flatMap, List.mem_map]
  constructor
  · rintro ⟨-, ⟨m, hm, i, hi, rfl⟩, rfl⟩
    exact ⟨_, ⟨m, hm, i, hi, rfl⟩, rfl⟩
  · rintro ⟨-, ⟨m, hm, i, hi, rfl⟩, rfl⟩
    exact ⟨_, ⟨m, hm, i, hi, rfl⟩, rfl⟩

/-! ### The indexes of one table -/

/-- Indexes over a table, under the names and columns that are given for them. -/
def entries (table : String) (name : Index → String) (columns : Index → List String) (is : Finset Index) :
    Registry :=
  is.image fun i => ⟨name i, table, columns i⟩

/-- Whether indexes have names of their own, apart from those of the registry. -/
structure Apart (reg : Registry) (name : Index → String) (is : Finset Index) : Prop where
  inj : ∀ i ∈ is, ∀ j ∈ is, name i = name j → i = j
  outside : ∀ i ∈ is, name i ∉ reg.names

theorem Apart.mono {reg : Registry} {name : Index → String} {is js : Finset Index} (h : Apart reg name is)
    (hsub : js ⊆ is) : Apart reg name js where
  inj i hi j hj := h.inj i (hsub hi) j (hsub hj)
  outside i hi := h.outside i (hsub hi)

section Table
variable {rest : Registry} {table : String} {name name' : Index → String} {columns columns' : Index → List String}
  {is : Finset Index} {i j : Index}

theorem Apart.congr {rest : Registry} (h : Apart rest name is) (hname : ∀ i ∈ is, name i = name' i) :
    Apart rest name' is where
  inj i hi j hj he := h.inj i hi j hj (by rwa [hname i hi, hname j hj])
  outside i hi := hname i hi ▸ h.outside i hi

theorem entries_congr (hname : ∀ i ∈ is, name i = name' i) (hcolumns : ∀ i ∈ is, columns i = columns' i) :
    entries table name columns is = entries table name' columns' is :=
  Finset.image_congr fun i hi => by rw [hname i hi, hcolumns i hi]

theorem names_entries : (entries table name columns is).names = is.image name := by
  rw [Registry.names, entries, Finset.image_image]
  rfl

theorem mem_names_union {a : String} :
    a ∈ (rest ∪ entries table name columns is).names ↔ a ∈ rest.names ∨ ∃ i ∈ is, name i = a := by
  rw [Registry.names, Finset.image_union, Finset.mem_union, ← Registry.names, ← Registry.names, names_entries,
    Finset.mem_image]

theorem register_create {unique : Bool} (h : Apart rest name (insert j is)) (hj : j ∉ is) :
    (Statement.createIndex unique (name j) table (columns j)).register (rest ∪ entries table name columns is) =
      some (rest ∪ entries table name columns (insert j is)) := by
  have hfree : name j ∉ (rest ∪ entries table name columns is).names := by
    rw [mem_names_union]
    rintro (hin | ⟨i, hi, he⟩)
    · exact h.outside j (Finset.mem_insert_self ..) hin
    · exact hj (h.inj i (Finset.mem_insert_of_mem hi) j (Finset.mem_insert_self ..) he ▸ hi)
  rw [Statement.register, if_neg hfree, entries, entries, Finset.image_insert, Finset.union_insert]

theorem register_create_taken {unique : Bool} {cs : List String} (hj : j ∈ is) :
    (Statement.createIndex unique (name j) table cs).register (rest ∪ entries table name columns is) =
      none :=
  if_pos (mem_names_union.2 (.inr ⟨j, hj, rfl⟩))

theorem register_drop (h : Apart rest name is) (hj : j ∈ is) :
    (Statement.dropIndex (name j)).register (rest ∪ entries table name columns is) =
      some (rest ∪ entries table name columns (is.erase j)) := by
  have hrest : rest.filter (·.name ≠ name j) = rest := by
    refine Finset.filter_true_of_mem fun x hx he => h.outside j hj ?_
    exact he ▸ Finset.mem_image_of_mem _ hx
  have hentries : (entries table name columns is).filter (·.name ≠ name j) =
      entries table name columns (is.erase j) := by
    rw [entries, Finset.filter_image, entries]
    refine congrArg _ (Finset.ext fun i => ?_)
    rw [Finset.mem_filter, Finset.mem_erase, and_comm]
    exact and_congr_left fun hi => not_congr ⟨h.inj i hi j hj, fun he => he ▸ rfl⟩
  rw [Statement.register, if_pos (mem_names_union.2 (.inr ⟨j, hj, rfl⟩)), Finset.filter_union, hrest, hentries]

theorem image_recolumn {source target : String} (hrest : ∀ x ∈ rest, x.table ≠ table) :
    (rest ∪ entries table name columns is).image (·.recolumn table source target) =
      rest ∪ entries table name (fun i => (columns i).map fun c => if c = source then target else c) is := by
  have hstay : rest.image (·.recolumn table source target) = rest := by
    refine (Finset.image_congr fun x hx => ?_).trans Finset.image_id
    exact if_neg (hrest x hx)
  rw [Finset.image_union, hstay, entries, Finset.image_image, entries]
  refine congrArg _ (Finset.image_congr fun i _ => ?_)
  simp [NamedIndex.recolumn]

theorem register_dropColumn {column : String} (hrest : ∀ x ∈ rest, x.table ≠ table) :
    (Statement.dropColumn table column).register (rest ∪ entries table name columns is) =
      some (rest ∪ entries table name columns (is.filter fun i => column ∉ columns i)) := by
  have hstay : rest.filter (fun x => ¬ (x.table = table ∧ column ∈ x.columns)) = rest :=
    Finset.filter_true_of_mem fun x hx he => hrest x hx he.1
  rw [Statement.register, Finset.filter_union, hstay, entries, Finset.filter_image, entries]
  simp

theorem register_dropTable (hrest : ∀ x ∈ rest, x.table ≠ table) :
    (Statement.dropTable table).register (rest ∪ entries table name columns is) = some rest := by
  have hstay : rest.filter (·.table ≠ table) = rest := Finset.filter_true_of_mem hrest
  have hgone : (entries table name columns is).filter (·.table ≠ table) = ∅ := by
    refine Finset.filter_false_of_mem fun x hx he => he ?_
    obtain ⟨i, -, rfl⟩ := Finset.mem_image.1 hx
    rfl
  rw [Statement.register, Finset.filter_union, hstay, hgone, Finset.union_empty]

/-- Indexes with names of their own are created one after the other. -/
theorem run_create {js : List Index} (hd : js.Nodup) (hnew : ∀ j ∈ js, j ∉ is)
    (h : Apart rest name (is ∪ js.toFinset)) :
    (rest ∪ entries table name columns is).run
        (js.map fun j => .createIndex j.unique (name j) table (columns j)) =
      some (rest ∪ entries table name columns (is ∪ js.toFinset)) := by
  induction js generalizing is with
  | nil => simp [Registry.run]
  | cons j js ih =>
    obtain ⟨hj, hd⟩ := List.nodup_cons.1 hd
    have heq : is ∪ (j :: js).toFinset = insert j is ∪ js.toFinset := by
      rw [List.toFinset_cons, Finset.union_insert, Finset.insert_union]
    rw [heq] at h ⊢
    rw [List.map_cons, Registry.run_cons, register_create (h.mono Finset.subset_union_left)
      (hnew j (List.mem_cons_self ..)), Option.bind_some]
    refine ih hd (fun k hk hin => ?_) h
    rcases Finset.mem_insert.1 hin with rfl | hin
    · exact hj hk
    · exact hnew k (List.mem_cons_of_mem _ hk) hin

theorem register_rename {target : String} (h : Apart rest name is) (hj : j ∈ is)
    (hfree : target ∉ (rest ∪ entries table name columns is).names) :
    (Statement.renameIndex (name j) target).register (rest ∪ entries table name columns is) =
      some (rest ∪ entries table (Function.update name j target) columns is) := by
  have hstay : rest.image (·.rename (name j) target) = rest := by
    refine (Finset.image_congr fun x hx => ?_).trans Finset.image_id
    have hne : x.name ≠ name j := fun he => h.outside j hj (he ▸ Finset.mem_image_of_mem _ hx)
    simp [NamedIndex.rename, hne]
  rw [Statement.register, if_pos ⟨mem_names_union.2 (.inr ⟨j, hj, rfl⟩), hfree⟩, Finset.image_union, hstay,
    entries, Finset.image_image, entries]
  refine congrArg _ (congrArg _ (Finset.image_congr fun i hi => ?_))
  by_cases hij : i = j
  · subst hij
    simp [NamedIndex.rename]
  · have hne : name i ≠ name j := fun he => hij (h.inj i hi j hj he)
    simp [NamedIndex.rename, hne, hij]

/-- One index has another name, which none had. -/
theorem Apart.update {target : String} (h : Apart rest name is) (hrest : target ∉ rest.names)
    (hnew : ∀ i ∈ is, name i ≠ target) : Apart rest (Function.update name j target) is where
  inj i hi k hk he := by
    by_cases hij : i = j <;> by_cases hkj : k = j
    · exact hij.trans hkj.symm
    · rw [hij, Function.update_self, Function.update_of_ne hkj] at he
      exact absurd he.symm (hnew k hk)
    · rw [hkj, Function.update_self, Function.update_of_ne hij] at he
      exact absurd he (hnew i hi)
    · rw [Function.update_of_ne hij, Function.update_of_ne hkj] at he
      exact h.inj i hi k hk he
  outside i hi := by
    by_cases hij : i = j
    · rwa [hij, Function.update_self]
    · rw [Function.update_of_ne hij]
      exact h.outside i hi

/-- A name that is to be that of one index, although another one has it, is that of an index that leaves it. -/
theorem exists_leaving {js : List Index} (hj : j ∈ is) (hself : name j ≠ name' j)
    (h' : Apart rest (fun i => if i ∈ j :: js then name' i else name i) is)
    (htaken : name' j ∈ (rest ∪ entries table name columns is).names) : ∃ i ∈ js, name i = name' j := by
  have hlast : (if j ∈ j :: js then name' j else name j) = name' j := if_pos (List.mem_cons_self ..)
  rcases mem_names_union.1 htaken with hmem | ⟨i, hi, he⟩
  · exact absurd (hlast.symm ▸ hmem) (h'.outside j hj)
  · refine ⟨i, by_contra fun hmem => ?_, he⟩
    have hij : i ≠ j := fun hij => hself (hij ▸ he)
    -- an index that is not renamed keeps its name, which the renamed one has in the end
    have hstay : (if i ∈ j :: js then name' i else name i) = name i :=
      if_neg fun hcons => (List.mem_cons.1 hcons).elim hij hmem
    exact hij (h'.inj i hi j hj (hstay.trans (he.trans hlast.symm)))

/-- Indexes are renamed one after the other, each to a name that no index has before nor after. That goes well
exactly when none takes the name of one that is renamed behind it. -/
theorem run_rename {js : List Index} (hd : js.Nodup) (hsub : ∀ j ∈ js, j ∈ is) (hself : ∀ j ∈ js, name j ≠ name' j)
    (h : Apart rest name is) (h' : Apart rest (fun i => if i ∈ js then name' i else name i) is) :
    (rest ∪ entries table name columns is).run (js.map fun j => .renameIndex (name j) (name' j)) =
      if js.Pairwise fun i j => name j ≠ name' i then
        some (rest ∪ entries table (fun i => if i ∈ js then name' i else name i) columns is)
      else none := by
  induction js generalizing name with
  | nil => simp [Registry.run]
  | cons j js ih =>
    obtain ⟨hj, hd⟩ := List.nodup_cons.1 hd
    have hin := hsub j (List.mem_cons_self ..)
    have hjs : ∀ k ∈ js, Function.update name j (name' j) k = name k := fun k hk =>
      Function.update_of_ne (fun he : k = j => hj (he ▸ hk)) ..
    rw [List.map_cons, Registry.run_cons]
    by_cases hfree : name' j ∉ (rest ∪ entries table name columns is).names
    · have hnew : ∀ i ∈ is, name i ≠ name' j := fun i hi he => hfree (mem_names_union.2 (.inr ⟨i, hi, he⟩))
      have hfinal : (fun i => if i ∈ js then name' i else Function.update name j (name' j) i) =
          fun i => if i ∈ j :: js then name' i else name i := by
        funext i
        by_cases hij : i = j
        · simp [hij]
        · simp [hij]
      have hmiddle := h.update (j := j) (fun hmem => hfree (mem_names_union.2 (.inl hmem))) hnew
      have hpairwise : (js.Pairwise fun i k => Function.update name j (name' j) k ≠ name' i) ↔
          (j :: js).Pairwise fun i k => name k ≠ name' i := by
        rw [List.pairwise_cons, and_iff_right fun k hk => hnew k (hsub k (List.mem_cons_of_mem _ hk))]
        exact List.Pairwise.iff_of_mem fun _ hk => by rw [hjs _ hk]
      have hstatements : (js.map fun k => Statement.renameIndex (name k) (name' k)) =
          js.map fun k => .renameIndex (Function.update name j (name' j) k) (name' k) :=
        List.map_congr_left fun k hk => by rw [hjs k hk]
      rw [register_rename h hin hfree, Option.bind_some, hstatements,
        ih hd (fun k hk => hsub k (List.mem_cons_of_mem _ hk))
          (fun k hk => hjs k hk ▸ hself k (List.mem_cons_of_mem _ hk)) hmiddle (hfinal ▸ h'), hfinal]
      exact if_congr hpairwise rfl rfl
    · rw [Statement.register, if_neg fun hok => hfree hok.2, Option.bind_none, if_neg]
      intro hpairwise
      obtain ⟨i, hi, he⟩ := exists_leaving hin (hself j (List.mem_cons_self ..)) h' (not_not.1 hfree)
      exact (List.pairwise_cons.1 hpairwise).1 i hi he

end Table

end Schemata.Ddl
