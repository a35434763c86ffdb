import Schemata.Proofs.Ddl.Registry

/-! The statements of a change, read as an update of the registry of indexes.

A change of one model touches the indexes over its table and no others. -/
namespace Schemata.Ddl

variable {m m' : Model} {i : Index} {k : String} {f : Field}

/-! ### The columns of an index -/

theorem columnsOf_congr (h : ∀ k ∈ i.fields, m'.field? k = m.field? k) : columnsOf m' i = columnsOf m i :=
  List.map_congr_left fun k hk => by rw [h k hk]

theorem mem_columnsOf (hd : m.DistinctColumns) (hi : ∀ x ∈ i.fields, m.fields.contains x = true)
    (hf : m.field? k = some f) : f.columnName ∈ columnsOf m i ↔ k ∈ i.fields := by
  rw [columnsOf, List.mem_map]
  constructor
  · rintro ⟨x, hx, hc⟩
    obtain ⟨g, hg⟩ : ∃ g, m.field? x = some g := Option.isSome_iff_exists.1 (hi x hx)
    rw [hg] at hc
    rwa [← Model.distinctColumns_iff.1 hd x k g f hg hf hc]
  · exact fun hk => ⟨k, hk, by rw [hf]; rfl⟩

/-- When a field makes way for another one, the columns of an index follow. -/
theorem columnsOf_replaced {k' : String} {f' : Field} (h : m.Replaces m' k f k' f') (hd : m.DistinctColumns)
    (hi : ∀ x ∈ i.fields, m.fields.contains x = true) :
    columnsOf m' (i.renameField k k') =
      (columnsOf m i).map fun c => if c = f.columnName then f'.columnName else c := by
  simp only [columnsOf, Index.renameField, List.map_map]
  refine List.map_congr_left fun x hx => ?_
  obtain ⟨g, hg⟩ : ∃ g, m.field? x = some g := Option.isSome_iff_exists.1 (hi x hx)
  by_cases hxk : x = k
  · subst hxk
    cases h.found.symm.trans hg
    simp [h.left, hg]
  · have hne : x ≠ k' := by
      rintro rfl
      rcases h.free with he | hfree
      · exact hxk he.symm
      · cases hfree.symm.trans hg
    have hc : g.columnName ≠ f.columnName := fun he =>
      hxk (Model.distinctColumns_iff.1 hd x k g f hg h.found he)
    simp [h.left, hg, hxk, hne, hc]

/-! ### One table -/

/-- The indexes over the table that holds the model. -/
def tableRegistry (n : String) (m : Model) : Registry := entries n (·.nameFor n) (columnsOf m) m.indexSet

/-- What is known of a model and the one that a change makes of it, next to the indexes over other tables. -/
structure Succeeds (rest : Registry) (n : String) (m m' : Model) : Prop where
  elsewhere : ∀ x ∈ rest, x.table ≠ n
  wellFormed : m.WellFormed
  wellFormed' : m'.WellFormed
  columns : m.DistinctColumns
  once : m.IndexedOnce
  before : Apart rest (·.nameFor n) m.indexSet
  after : Apart rest (·.nameFor n) m'.indexSet

section Kinds
variable {rest : Registry} {n : String}

theorem Succeeds.known (h : Succeeds rest n m m') (hi : i ∈ m.indexSet) :
    ∀ x ∈ i.fields, m.fields.contains x = true := fun _ => Model.contains_of_mem_indexSet h.wellFormed hi

/-- An index is created unless it is there. -/
theorem run_createIndex {columns : Index → List String} {is : Finset Index}
    (h : Apart rest (·.nameFor n) (insert i is)) :
    (rest ∪ entries n (·.nameFor n) columns is).run [createIndex n i (columns i)] =
      if i ∉ is then some (rest ∪ entries n (·.nameFor n) columns (insert i is)) else none := by
  rw [Registry.run_cons, createIndex]
  split
  · exact congrArg (Option.bind · _) (register_create h ‹_›)
  · exact congrArg (Option.bind · _) (register_create_taken (not_not.1 ‹_›))

theorem run_addColumn {column : Column} (h : Succeeds rest n m (m.withFields [f])) (hfree : m.field? f.name = none) :
    (rest ∪ tableRegistry n m).run (.addColumn n column ::
        (f.implicitIndex?.map fun i => createIndex n i [f.columnName]).toList) =
      some (rest ∪ tableRegistry n (m.withFields [f])) := by
  have hfield : ∀ k, (m.withFields [f]).field? k = if f.name = k then some f else m.field? k :=
    fun k => Keyed.get?_put ..
  have hset := Model.indexSet_withField h.wellFormed h.wellFormed' hfree
  have hcolumns : ∀ i ∈ m.indexSet, columnsOf m i = columnsOf (m.withFields [f]) i := by
    refine fun i hi => (columnsOf_congr fun k hk => ?_).symm
    rw [hfield, if_neg]
    rintro rfl
    exact Model.not_mem_fields h.wellFormed hfree hi hk
  rw [Registry.run_cons, Statement.register, Option.bind_some, tableRegistry, tableRegistry,
    entries_congr (fun _ _ => rfl) hcolumns]
  cases hi : f.implicitIndex? with
  | none =>
    rw [hset, hi]
    rfl
  | some i =>
    obtain ⟨-, rfl⟩ := Field.implicitIndex?_eq_some_iff.1 hi
    have hover : columnsOf (m.withFields [f]) (.plain f.name) = [f.columnName] := by
      simp [columnsOf, Index.plain, hfield]
    have hnew : Index.plain f.name ∉ m.indexSet := fun hin =>
      Model.not_mem_fields h.wellFormed hfree hin Model.mem_plain_fields
    have hafter := h.after
    rw [hset, hi] at hafter
    rw [hset, hi, Option.map_some, Option.toList_some, ← hover, run_createIndex hafter, if_pos hnew]
    rfl

theorem run_dropColumn {g : Field} (h : Succeeds rest n m (m.withoutFields [f])) (hg : m.field? f.name = some g)
    (hc : g.columnName = f.columnName) :
    (rest ∪ tableRegistry n m).run [.dropColumn n f.columnName] =
      some (rest ∪ tableRegistry n (m.withoutFields [f])) := by
  have hset : (m.indexSet.filter fun i => f.columnName ∉ columnsOf m i) = (m.withoutFields [f]).indexSet := by
    rw [Model.indexSet_withoutField h.wellFormed h.wellFormed']
    refine Finset.filter_congr fun i hi => not_congr ?_
    rw [← hc]
    exact mem_columnsOf h.columns (h.known hi) hg
  rw [Registry.run_cons, tableRegistry, register_dropColumn h.elsewhere, hset, tableRegistry]
  refine congrArg (fun reg => some (rest ∪ reg)) (entries_congr (fun _ _ => rfl) fun i hi => ?_)
  refine (columnsOf_congr fun k hk => ?_).symm
  rw [Model.indexSet_withoutField h.wellFormed h.wellFormed', Finset.mem_filter] at hi
  refine (Keyed.get?_erase ..).trans (if_neg ?_)
  rintro rfl
  exact hi.2 hk

/-- An index that is declared is created, unless a field carries it. -/
theorem run_addIndex (h : Succeeds rest n m (m.withIndexes [i])) (hi : m.indexes.contains i = false) :
    (rest ∪ tableRegistry n m).run [createIndex n i (columnsOf m i)] =
      if (m.withIndexes [i]).IndexedOnce then some (rest ∪ tableRegistry n (m.withIndexes [i])) else none := by
  have hset := Model.indexSet_withIndex h.wellFormed h.wellFormed'
  rw [tableRegistry, run_createIndex (hset ▸ h.after), tableRegistry, hset]
  exact if_congr (Model.indexedOnce_withIndex h.wellFormed h.once hi).symm rfl rfl

theorem run_removeIndex (h : Succeeds rest n m (m.withoutIndexes [i])) (hi : m.indexes.contains i = true) :
    (rest ∪ tableRegistry n m).run [.dropIndex (i.nameFor n)] =
      some (rest ∪ tableRegistry n (m.withoutIndexes [i])) := by
  have hin : i ∈ m.indexSet := (Model.mem_indexSet h.wellFormed).2 (.inl hi)
  rw [Registry.run_cons, tableRegistry, register_drop h.before hin, tableRegistry,
    Model.indexSet_withoutIndex h.wellFormed h.wellFormed' h.once hi]
  rfl

/-- The columns of indexes follow one that is renamed, whatever comes of its constraints. -/
theorem run_renameColumn {table source target : String} {name : Index → String} {columns : Index → List String}
    {is : Finset Index} {still tail : List Statement} (hrest : ∀ x ∈ rest, x.table ≠ table)
    (hstill : ∀ st ∈ still, ∀ reg, st.register reg = some reg) :
    (rest ∪ entries table name columns is).run
        ((if source = target then [] else .renameColumn table source target :: still) ++ tail) =
      (rest ∪ entries table name (fun i => (columns i).map fun c => if c = source then target else c) is).run
        tail := by
  split
  · rename_i he
    have hid : ∀ c : String, (if c = source then target else c) = c := fun c => by
      split
      · exact he ▸ Eq.symm ‹_›
      · rfl
    simp [hid]
  · rw [List.cons_append, Registry.run_cons, Statement.register, image_recolumn hrest, Option.bind_some,
      Registry.run_append, Registry.run_of_still hstill, Option.bind_some]

theorem still_of_renameConstraints {table source target : String} {st : Statement}
    (h : st ∈ renameConstraints table f source target) (reg : Registry) : st.register reg = some reg := by
  obtain ⟨suffix, -, rfl⟩ := List.mem_map.1 h
  rfl

/-- Between the plain index that a changed field leaves and the one that it takes, indexes stay. -/
theorem still_of_alterColumn {table : String} {source target : Field} {schema : State} {own : List Statement}
    (h : alterColumn table source target schema = .ok own) :
    ∃ still, (∀ st ∈ still, ∀ reg, st.register reg = some reg) ∧
      own = recolumn table source target ++ (unindex table source target ++
        (still ++ reindex table source target)) := by
  obtain ⟨-, retyped, hretyped, rfl⟩ := of_alterColumn h
  refine ⟨_, fun st hst reg => ?_, rfl⟩
  simp only [List.mem_append] at hst
  rcases hst with ((hst | hst) | hst) | hst
  · rcases hretyped with ⟨-, rfl⟩ | hr
    · cases hst
    · obtain ⟨newType, oldType, reference, -, rfl⟩ := of_retype hr
      simp only [List.mem_append, List.mem_ite_nil_right, List.mem_ite_nil_left, List.mem_singleton,
        Option.mem_toList, Option.map_eq_some_iff] at hst
      rcases hst with (((⟨-, rfl⟩ | ⟨-, rfl⟩) | ⟨-, rfl⟩) | ⟨r, -, rfl⟩) | ⟨choices, -, rfl⟩ <;> rfl
  · rw [renullify] at hst
    split at hst
    · cases hst
    split at hst <;> (rw [List.mem_singleton.1 hst]; rfl)
  · rw [redefault] at hst
    split at hst
    · cases hst
    split at hst <;> (rw [List.mem_singleton.1 hst]; rfl)
  · rw [reunify] at hst
    split at hst
    · cases hst
    split at hst <;> (rw [List.mem_singleton.1 hst]; rfl)

theorem run_recolumn {source target : Field} {tail : List Statement}
    (h : Succeeds rest n m (m.revised [⟨k, source, target⟩])) (hf : m.field? k = some f)
    (hsame : f.columnName = source.columnName) :
    (rest ∪ tableRegistry n m).run (recolumn n source target ++ tail) =
      (rest ∪ entries n (·.nameFor n) (columnsOf (m.revised [⟨k, source, target⟩])) m.indexSet).run tail := by
  rw [recolumn, ← hsame, tableRegistry, run_renameColumn h.elsewhere fun st hst => still_of_renameConstraints hst]
  refine congrArg (fun reg => (rest ∪ reg).run tail) (entries_congr (fun _ _ => rfl) fun i hi => ?_)
  rw [← columnsOf_replaced (Model.replaces_revised hf) h.columns (h.known hi), Index.renameField_self]

/-- A changed field takes its column along, and gives up or takes a plain index. It cannot take one that the
model declares. -/
theorem run_alterColumn {source target : Field} {schema : State} {own : List Statement}
    (h : Succeeds rest n m (m.revised [⟨k, source, target⟩])) (hf : m.field? k = some f) (hsame : f.Alike source)
    (hname : target.name = k) (hown : alterColumn n source target schema = .ok own) :
    (rest ∪ tableRegistry n m).run own =
      if (m.revised [⟨k, source, target⟩]).IndexedOnce then
        some (rest ∪ tableRegistry n (m.revised [⟨k, source, target⟩]))
      else none := by
  obtain ⟨still, hstill, rfl⟩ := still_of_alterColumn hown
  have hover : columnsOf (m.revised [⟨k, source, target⟩]) (.plain k) = [target.columnName] := by
    simp [columnsOf, Index.plain, (Model.replaces_revised hf).left]
  have honce : (m.revised [⟨k, source, target⟩]).IndexedOnce ↔
      (target.implicitIndex?.isSome = true → m.indexes.contains (.plain k) = false) :=
    Model.indexedOnce_revised hf h.once
  rw [run_recolumn h hf hsame.columnName, unindex, reindex, ← hsame.implicitIndex?, tableRegistry]
  cases hfi : f.implicitIndex? with
  | none =>
    cases hti : target.implicitIndex? with
    | none =>
      rw [if_pos (honce.2 fun ht => by rw [hti] at ht; cases ht),
        Model.indexSet_revised_of_eq h.wellFormed h.wellFormed' hf (by rw [hfi, hti])]
      simpa using Registry.run_of_still hstill
    | some i =>
      obtain ⟨ht, rfl⟩ := Field.implicitIndex?_eq_some_iff.1 hti
      have hset := Model.indexSet_revised_of_carries h.wellFormed h.wellFormed' hf ht
      simp only [Option.isSome_none, Bool.false_and, Bool.false_eq_true, if_false, List.nil_append,
        Registry.run_append, Registry.run_of_still hstill, Option.bind_some, hname, ← hover]
      rw [run_createIndex (hset ▸ h.after), hset]
      exact if_congr (Model.indexedOnce_revised_of_carries h.wellFormed hf h.once (by rw [hfi]; rfl) ht).symm rfl rfl
  | some i =>
    obtain ⟨hfc, rfl⟩ := Field.implicitIndex?_eq_some_iff.1 hfi
    have hcarries := (Model.carries_iff hf).2 hfc
    cases hti : target.implicitIndex? with
    | none =>
      have hnone : target.implicitIndex?.isSome = false := by rw [hti]; rfl
      rw [if_pos (honce.2 fun ht => by rw [hnone] at ht; cases ht),
        Model.indexSet_revised_of_lost h.wellFormed h.wellFormed' hf h.once hfc hnone]
      simp only [Option.isSome_some, Option.isNone_none, Bool.and_self, if_true, List.cons_append, List.nil_append,
        List.append_nil, Registry.run_cons, hname]
      have hin := (Model.plain_mem_indexSet h.wellFormed).2 (.inr hcarries)
      refine (congrArg (Option.bind · _) (register_drop h.before hin)).trans ?_
      exact Registry.run_of_still hstill
    | some j =>
      rw [if_pos (honce.2 fun _ => h.once k hcarries),
        Model.indexSet_revised_of_eq h.wellFormed h.wellFormed' hf (by rw [hfi, hti]; rfl)]
      simpa using Registry.run_of_still hstill

/-- Whether, as the field is renamed, no index takes the name of one that is renamed behind it. -/
def InOrder (m : Model) (n source target : String) : Prop :=
  (m.effectiveIndexes.toList.filter (·.references source)).Pairwise fun i j =>
    j.nameFor n ≠ (i.renameField source target).nameFor n

instance (m : Model) (n source target : String) : Decidable (InOrder m n source target) :=
  inferInstanceAs (Decidable (List.Pairwise _ _))

/-- A renamed field takes its column along and then the names of the indexes over it, one after the other. -/
theorem run_renameField {target : String} (h : Succeeds rest n m (m.renamed f.name target)) (hn : m.name = n)
    (hf : m.field? f.name = some f) (hfree : m.field? target = none) :
    (rest ∪ tableRegistry n m).run (renameField m f target) =
      if InOrder m n f.name target then some (rest ∪ tableRegistry n (m.renamed f.name target)) else none := by
  have hreplaces := Model.replaces_renamed hf hfree
  have hne : f.name ≠ target := by
    rintro he
    rw [← he, hf] at hfree
    cases hfree
  have hlack : ∀ i ∈ m.indexSet, target ∉ i.fields := fun _ => Model.not_mem_fields h.wellFormed hfree
  have hset := Model.indexSet_renamed h.wellFormed h.wellFormed' hf hfree
  have hafter := h.after
  rw [hset] at hafter
  generalize hjs : m.effectiveIndexes.toList.filter (·.references f.name) = js
  have hmem : ∀ {i}, i ∈ js ↔ i ∈ m.indexSet ∧ f.name ∈ i.fields := by
    intro i
    rw [← hjs, List.mem_filter, Model.indexSet, List.mem_toFinset, Index.references_iff]
  -- an index that is not over the field has its name before and after
  have hname : ∀ i ∈ m.indexSet, (i.renameField f.name target).nameFor n =
      if i ∈ js then (i.renameField f.name target).nameFor n else i.nameFor n := by
    intro i hi
    split
    · rfl
    · rw [Index.renameField_of_not_mem fun hin => ‹¬ i ∈ js› (hmem.2 ⟨hi, hin⟩)]
  have hfinal : Apart rest (fun i => (i.renameField f.name target).nameFor n) m.indexSet := by
    refine ⟨fun i hi j hj he => ?_, fun i hi => hafter.outside _ (Finset.mem_image_of_mem _ hi)⟩
    exact Index.renameField_inj (hlack i hi) (hlack j hj)
      (hafter.inj _ (Finset.mem_image_of_mem _ hi) _ (Finset.mem_image_of_mem _ hj) he)
  rw [renameField, hn, tableRegistry, run_renameColumn h.elsewhere fun st hst => still_of_renameConstraints hst,
    hjs, run_rename (hjs ▸ m.effectiveIndexes.nodup.filter _) (fun j hj => (hmem.1 hj).1)
      (fun j hj => (Index.nameFor_renameField_ne (Index.references_iff.2 (hmem.1 hj).2) hne).symm) h.before
      (hfinal.congr hname)]
  refine if_congr (by rw [InOrder, hjs]) (congrArg (fun reg => some (rest ∪ reg)) ?_) rfl
  rw [tableRegistry, hset, entries, entries, Finset.image_image]
  refine Finset.image_congr fun i hi => ?_
  simp only [Function.comp, columnsOf_replaced hreplaces h.columns (h.known hi), ← hname i hi]

theorem run_createTable {fields : List Field} {schema : State} {own : List Statement}
    (hafter : Apart rest (·.nameFor n) (Model.ofFields n fields).indexSet)
    (hown : createTable n fields schema = .ok own) :
    rest.run own = some (rest ∪ tableRegistry n (.ofFields n fields)) := by
  obtain ⟨columns, -, rfl⟩ := of_createTable hown
  have hset : (∅ ∪ (Model.ofFields n fields).effectiveIndexes.toList.toFinset) =
      (Model.ofFields n fields).indexSet := Finset.empty_union _
  have hnone : rest = rest ∪ entries n (·.nameFor n) (columnsOf (.ofFields n fields)) ∅ := by
    rw [entries, Finset.image_empty, Finset.union_empty]
  rw [Registry.run_cons, Statement.register, Option.bind_some, tableRegistry, ← hset]
  refine (congrArg (Registry.run · _) hnone).trans ?_
  exact run_create (Model.ofFields n fields).effectiveIndexes.nodup (fun j _ => Finset.notMem_empty j)
    (hset.symm ▸ hafter)

end Kinds

/-! ### A change of the schema -/

/-- The indexes over the other tables. -/
def others (s : State) (n : String) : Registry := (registryOf s).filter (·.table ≠ n)

theorem table_of_mem_others {s : State} {n : String} : ∀ x ∈ others s n, x.table ≠ n :=
  fun _ hx => (Finset.mem_filter.1 hx).2

variable {c : Change} {s s' : State} {own : List Statement} {n : String}

theorem registryOf_eq (hm : s.model? n = some m) : registryOf s = others s n ∪ tableRegistry n m := by
  ext x
  rw [Finset.mem_union, others, Finset.mem_filter, mem_registryOf, tableRegistry, entries, Finset.mem_image]
  constructor
  · rintro ⟨m', hm', i, hi, hx⟩
    by_cases htable : x.table = n
    · rw [htable, hm] at hm'
      cases hm'
      refine .inr ⟨i, hi, ?_⟩
      rw [← hx, placed, State.name_of_model? hm]
    · exact .inl ⟨⟨m', hm', i, hi, hx⟩, htable⟩
  · rintro (⟨hx, -⟩ | ⟨i, hi, rfl⟩)
    · exact hx
    · exact ⟨m, hm, i, hi, by rw [placed, State.name_of_model? hm]⟩

theorem registryOf_of_none (hm : s.model? n = none) : registryOf s = others s n := by
  refine (Finset.filter_true_of_mem fun x hx he => ?_).symm
  obtain ⟨m, hmodel, -⟩ := mem_registryOf.1 hx
  rw [he, hm] at hmodel
  cases hmodel

theorem others_of_apply (hc : c.model? = some n) (h : c.apply s = .ok s') : others s' n = others s n := by
  ext x
  rw [others, others, Finset.mem_filter, Finset.mem_filter, mem_registryOf, mem_registryOf]
  refine and_congr_left fun hne => ?_
  rw [Change.model?_of_apply_of_ne hc h hne]

theorem apart_of_model? (h : s.DistinctIndexNames) (hm : s.model? n = some m) :
    Apart (others s n) (·.nameFor n) m.indexSet := by
  have hin : ∀ {n m i}, s.model? n = some m → i ∈ m.indexSet → (n, i) ∈ s.indexes := fun {n m i} hm hi =>
    State.mem_indexes.2 ⟨m, hm, Ascending.contains_iff_mem.2 (List.mem_toFinset.1 hi)⟩
  refine ⟨fun i hi j hj he => ?_, fun i hi hname => ?_⟩
  · exact congrArg Prod.snd (h.inj (hin hm hi) (hin hm hj) he)
  · obtain ⟨x, hx, he⟩ := Finset.mem_image.1 hname
    obtain ⟨hx, hne⟩ := Finset.mem_filter.1 hx
    obtain ⟨m', hm', j, hj, rfl⟩ := mem_registryOf.1 hx
    exact hne (congrArg Prod.fst (h.inj (hin hm' hj) (hin hm hi) he))

/-- Whether the change, should it rename a field, gives no index the name of one that it renames behind it. -/
def Orderly : Change → State → Prop
  | .renameField n source target, s => ∀ m ∈ s.model? n, InOrder m n source target
  | _, _ => True

instance : ∀ (c : Change) (s : State), Decidable (Orderly c s)
  | .renameField n source target, s =>
    inferInstanceAs (Decidable (∀ m ∈ s.model? n, InOrder m n source target))
  | .createModel _ _, _ | .deleteModel _, _ | .addField _ _, _ | .removeField _ _, _ | .changeField _ _ _ _, _
  | .addIndex _ _, _ | .removeIndex _ _, _ | .runData _ _, _ => inferInstanceAs (Decidable True)

/-- Only the model that a change concerns may come to have an index twice. -/
theorem indexedOnce_iff_of_apply (hc : c.model? = some n) (h : c.apply s = .ok s') (honce : s.IndexedOnce) :
    s'.IndexedOnce ↔ ∀ m', s'.model? n = some m' → m'.IndexedOnce := by
  exact ⟨fun hall m' hm' => hall n m' hm', fun hn => Change.forall_model_of_apply hc h honce hn⟩

section Kinds
variable (hs : s.WellFormed) (hu : s.Unambiguous) (hu' : s'.Unambiguous) (honce : s.IndexedOnce)

include hs hu hu' honce in
theorem succeeds_of_apply (hc : c.model? = some n) (h : c.apply s = .ok s') (hm : s.model? n = some m)
    (hm' : s'.model? n = some m') : Succeeds (others s n) n m m' where
  elsewhere := table_of_mem_others
  wellFormed := State.wellFormed_iff.1 hs n m hm
  wellFormed' := State.wellFormed_iff.1 (Change.apply_wellFormed h hs) n m' hm'
  columns := hu.columns n m hm
  once := honce n m hm
  before := apart_of_model? hu.indexes hm
  after := others_of_apply hc h ▸ apart_of_model? hu'.indexes hm'

include honce in
/-- What comes of the indexes over the table of a model is what comes of the change. -/
theorem run_of_table {ok : Prop} [Decidable ok] (hc : c.model? = some n) (h : c.apply s = .ok s')
    (hm : s.model? n = some m) (hm' : s'.model? n = some m')
    (hrun : (others s n ∪ tableRegistry n m).run own =
      if ok then some (others s n ∪ tableRegistry n m') else none)
    (hok : ok ↔ m'.IndexedOnce ∧ Orderly c s) :
    (registryOf s).run own = if s'.IndexedOnce ∧ Orderly c s then some (registryOf s') else none := by
  rw [registryOf_eq hm, registryOf_eq hm', others_of_apply hc h, hrun]
  refine if_congr (hok.trans (and_congr_left fun _ => ?_)) rfl rfl
  rw [indexedOnce_iff_of_apply hc h honce, hm']
  simp

include honce in
theorem run_of_table_always (hc : c.model? = some n) (h : c.apply s = .ok s')
    (hm : s.model? n = some m) (hm' : s'.model? n = some m')
    (hrun : (others s n ∪ tableRegistry n m).run own = some (others s n ∪ tableRegistry n m'))
    (hok : m'.IndexedOnce) (horder : Orderly c s) :
    (registryOf s).run own = if s'.IndexedOnce ∧ Orderly c s then some (registryOf s') else none :=
  run_of_table honce hc h hm hm' (hrun.trans (if_pos trivial).symm) (iff_of_true trivial ⟨hok, horder⟩)

theorem register_createModel {fields : List Field} (hu' : s'.Unambiguous) (honce : s.IndexedOnce)
    (h : (Change.createModel n fields).apply s = .ok s') (hr : render (.createModel n fields) s = .ok own) :
    (registryOf s).run own =
      if s'.IndexedOnce ∧ Orderly (.createModel n fields) s then some (registryOf s') else none := by
  obtain ⟨hnone, -, hmodel⟩ := Change.of_effect_createModel (Change.effect_of_apply rfl h)
  have hapart := apart_of_model? hu'.indexes hmodel
  rw [others_of_apply rfl h] at hapart
  have honce' : s'.IndexedOnce := by
    refine (indexedOnce_iff_of_apply rfl h honce).2 fun m' hm' => ?_
    cases hmodel.symm.trans hm'
    exact Model.indexedOnce_ofFields n fields
  rw [registryOf_of_none hnone, run_createTable hapart hr, if_pos ⟨honce', trivial⟩, registryOf_eq hmodel,
    others_of_apply rfl h]

section Within
variable (hs : s.WellFormed) (hu : s.Unambiguous) (hu' : s'.Unambiguous) (honce : s.IndexedOnce)
  (hm : s.model? n = some m) (hm' : s'.model? n = some m')
include honce hm

theorem register_deleteModel (hgone : s'.model? n = none) (h : (Change.deleteModel n).apply s = .ok s')
    (hr : render (.deleteModel n) s = .ok own) :
    (registryOf s).run own =
      if s'.IndexedOnce ∧ Orderly (.deleteModel n) s then some (registryOf s') else none := by
  cases hr
  have honce' : s'.IndexedOnce := by
    refine (indexedOnce_iff_of_apply rfl h honce).2 fun m' hm' => ?_
    cases hgone.symm.trans hm'
  rw [registryOf_eq hm, Registry.run_cons, tableRegistry, register_dropTable table_of_mem_others,
    if_pos ⟨honce', trivial⟩, registryOf_of_none hgone, others_of_apply rfl h]
  rfl

include hs hu hu' hm'

theorem register_addField (ha : m.addField f = .ok m') (h : (Change.addField n f).apply s = .ok s')
    (hr : render (.addField n f) s = .ok own) :
    (registryOf s).run own =
      if s'.IndexedOnce ∧ Orderly (.addField n f) s then some (registryOf s') else none := by
  obtain ⟨hfree, rfl⟩ := Model.of_addField ha
  have hsucceeds := succeeds_of_apply hs hu hu' honce rfl h hm hm'
  obtain ⟨column, -, rfl⟩ := of_render_addField hr
  exact run_of_table_always honce rfl h hm hm' (run_addColumn hsucceeds hfree)
    (Model.indexedOnce_withField hsucceeds.wellFormed hfree hsucceeds.once) trivial

theorem register_removeField (ha : m.removeField f.name = .ok m') (h : (Change.removeField n f).apply s = .ok s')
    (hr : render (.removeField n f) s = .ok own) (hfit : Fits (.removeField n f) s) :
    (registryOf s).run own =
      if s'.IndexedOnce ∧ Orderly (.removeField n f) s then some (registryOf s') else none := by
  obtain ⟨hin, rfl⟩ := Model.of_removeField ha
  obtain ⟨g, hg⟩ := Option.isSome_iff_exists.1 hin
  have hsucceeds := succeeds_of_apply hs hu hu' honce rfl h hm hm'
  cases hr
  exact run_of_table_always honce rfl h hm hm' (run_dropColumn hsucceeds hg (hfit m g hm hg))
    (Model.indexedOnce_withoutField hsucceeds.once) trivial

theorem register_changeField {name : String} {source target : Field} (hname : target.name = name)
    (ha : m.changeField name source target = .ok m') (h : (Change.changeField n name source target).apply s = .ok s')
    (hr : render (.changeField n name source target) s = .ok own) :
    (registryOf s).run own =
      if s'.IndexedOnce ∧ Orderly (.changeField n name source target) s then some (registryOf s') else none := by
  obtain ⟨⟨current, hcurrent, hsame⟩, rfl⟩ := Model.of_changeField ha
  have hsucceeds := succeeds_of_apply hs hu hu' honce rfl h hm hm'
  exact run_of_table honce rfl h hm hm'
    (run_alterColumn hsucceeds hcurrent (Field.alike_of_same hsame) hname hr) (and_iff_left trivial).symm

theorem register_renameField {source target : String} (ha : m.renameField source target = .ok m')
    (h : (Change.renameField n source target).apply s = .ok s')
    (hr : render (.renameField n source target) s = .ok own) :
    (registryOf s).run own =
      if s'.IndexedOnce ∧ Orderly (.renameField n source target) s then some (registryOf s') else none := by
  obtain ⟨hfree, ⟨g, hg⟩, rfl⟩ := Model.of_renameField ha
  have hsucceeds := succeeds_of_apply hs hu hu' honce rfl h hm hm'
  obtain rfl := hsucceeds.wellFormed.named source g hg
  cases (render_renameField hm hg).symm.trans hr
  refine run_of_table honce rfl h hm hm'
    (run_renameField hsucceeds (State.name_of_model? hm) hg hfree) ⟨fun hok => ⟨?_, ?_⟩, fun hok => ?_⟩
  · exact Model.indexedOnce_renamed hsucceeds.wellFormed hg hfree hsucceeds.once
  · rintro x hx
    cases hm.symm.trans hx
    exact hok
  · exact hok.2 m hm

theorem register_addIndex (ha : m.addIndex i = .ok m') (h : (Change.addIndex n i).apply s = .ok s')
    (hr : render (.addIndex n i) s = .ok own) :
    (registryOf s).run own =
      if s'.IndexedOnce ∧ Orderly (.addIndex n i) s then some (registryOf s') else none := by
  obtain ⟨-, hnew, -⟩ := Model.addIndex_eq_ok_iff.1 ha
  obtain rfl := Model.of_addIndex ha
  have hsucceeds := succeeds_of_apply hs hu hu' honce rfl h hm hm'
  cases (render_addIndex hm).symm.trans hr
  exact run_of_table honce rfl h hm hm' (run_addIndex hsucceeds hnew) (and_iff_left trivial).symm

theorem register_removeIndex (ha : m.removeIndex i = .ok m') (h : (Change.removeIndex n i).apply s = .ok s')
    (hr : render (.removeIndex n i) s = .ok own) :
    (registryOf s).run own =
      if s'.IndexedOnce ∧ Orderly (.removeIndex n i) s then some (registryOf s') else none := by
  obtain ⟨hthere, -⟩ := Model.removeIndex_eq_ok_iff.1 ha
  obtain rfl := Model.of_removeIndex ha
  have hsucceeds := succeeds_of_apply hs hu hu' honce rfl h hm hm'
  cases hr
  exact run_of_table_always honce rfl h hm hm' (run_removeIndex hsucceeds hthere)
    (Model.indexedOnce_withoutIndexes [i] hsucceeds.once) trivial

end Within

end Kinds

/-- **The statements of a change** take the registry of the schema before it to that of the schema after it,
unless a field comes to carry an index that its model declares, or a renamed field gives an index the name of one
that is renamed behind it. Then there is a statement without meaning among them. -/
theorem register_render (hr : render c s = .ok own) (h : c.apply s = .ok s') (hs : s.WellFormed)
    (hu : s.Unambiguous) (hu' : s'.Unambiguous) (honce : s.IndexedOnce) (hfit : Fits c s) :
    (registryOf s).run own = if s'.IndexedOnce ∧ Orderly c s then some (registryOf s') else none := by
  obtain ⟨name, payload, rfl, rfl⟩ | ⟨n, o, o', hc, hm, hm', ht⟩ := Change.data_or_turns_of_apply h
  · obtain rfl := of_render_runData hr
    rw [if_pos ⟨honce, trivial⟩]
    rfl
  cases ht with
  | runData => cases hc
  | createModel => exact register_createModel hu' honce h hr
  | deleteModel => cases hc; exact register_deleteModel honce hm hm' h hr
  | addField ha => cases hc; exact register_addField hs hu hu' honce hm hm' ha h hr
  | removeField ha => cases hc; exact register_removeField hs hu hu' honce hm hm' ha h hr hfit
  | changeField hname ha => cases hc; exact register_changeField hs hu hu' honce hm hm' hname ha h hr
  | renameField ha => cases hc; exact register_renameField hs hu hu' honce hm hm' ha h hr
  | addIndex ha => cases hc; exact register_addIndex hs hu hu' honce hm hm' ha h hr
  | removeIndex ha => cases hc; exact register_removeIndex hs hu hu' honce hm hm' ha h hr

/-! ### Changes in a row -/

theorem run_statements_registry {cs : List Change} {after : State} {statements : List Statement}
    (h : statements? cs s = some (statements, after)) (hs : s.WellFormed)
    (hu : ∀ call ∈ Change.paired cs s, call.2.Unambiguous) (hafter : after.Unambiguous)
    (hfit : ∀ call ∈ Change.paired cs s, Fits call.1 call.2) (honce : s.IndexedOnce) :
    (registryOf s).run statements =
      if (∀ call ∈ Change.paired cs s, call.2.IndexedOnce ∧ Orderly call.1 call.2) ∧ after.IndexedOnce then
        some (registryOf after)
      else none := by
  induction cs generalizing s statements with
  | nil =>
    cases h
    rw [if_pos ⟨fun _ hcall => absurd hcall List.not_mem_nil, honce⟩]
    rfl
  | cons c rest ih =>
    obtain ⟨own, u, more, hr, ha, hmore, rfl⟩ := of_statements?_cons h
    rw [Change.paired_cons ha] at hu hfit ⊢
    rw [List.forall_mem_cons] at hu hfit
    have hfirst := Change.of_paired (applyAll_of_statements? hmore) hu.2 hafter
    rw [Registry.run_append, register_render hr ha hs hu.1 hfirst honce hfit.1]
    by_cases hok : u.IndexedOnce ∧ Orderly c s
    · rw [if_pos hok, Option.bind_some, ih hmore (Change.apply_wellFormed ha hs) hu.2 hfit.2 hok.1]
      refine if_congr (and_congr_left fun _ => ?_) rfl rfl
      rw [List.forall_mem_cons, and_iff_right ⟨honce, hok.2⟩]
    · rw [if_neg hok, Option.bind_none, if_neg]
      rintro ⟨hall, hlast⟩
      rw [List.forall_mem_cons] at hall
      refine hok ⟨?_, hall.1.2⟩
      exact Change.of_paired (applyAll_of_statements? hmore) (fun call hcall => (hall.2 call hcall).1) hlast

end Schemata.Ddl
