import Schemata.Proofs.Change.Locality

/-! What every state has that came about by changes.

Changes look before they act: none of them puts a field under a name that is not its own, and none leaves
an index behind without its fields. So a model that changes made holds each field under the field's name
and has the fields of its indexes (`Model.WellFormed`), whatever the changes were. -/
namespace Schemata

/-- What a model has that came about by changes. -/
structure Model.WellFormed (m : Model) : Prop where
  named : ∀ k f, m.field? k = some f → f.name = k
  indexed : ∀ i ∈ m.indexes.toList, ∀ k ∈ i.fields, m.fields.contains k = true

namespace State

def WellFormed (s : State) : Prop := ∀ m ∈ s.toList, m.WellFormed

/-- The state that some list of changes makes of the empty state. -/
def Reachable (s : State) : Prop := ∃ history, Change.applyAll history Ascending.empty = .ok s

theorem wellFormed_iff {s : State} :
    s.WellFormed ↔ ∀ n m, s.model? n = some m → m.WellFormed :=
  ⟨fun h _ m hm => h m (mem_of_model? hm), fun h m hm => h m.name m (Ascending.find?_of_mem hm)⟩

theorem WellFormed.of_model? {s : State} (hs : s.WellFormed) {n : String} {m : Model} (h : s.model? n = some m) :
    m.WellFormed := hs m (mem_of_model? h)

end State

/-! ### Changes within a model -/

namespace Model
variable {m m' : Model}

/-- A description without a fault is well formed. -/
theorem wellFormed_of_fault? (h : m.fault? = none) : m.WellFormed := by
  simp only [fault?, Option.orElse_eq_orElse, Option.orElse_eq_or, Option.or_eq_none_iff] at h
  obtain ⟨hkey, -, -, hindex⟩ := h
  constructor
  · intro k f hf
    have := List.findSome?_eq_none_iff.1 hkey (k, f) (Keyed.get?_eq_some_iff.1 hf)
    split at this
    · exact Eq.symm ‹_›
    · cases this
  · intro i hi k hk
    have := List.findSome?_eq_none_iff.1 hindex i hi
    rw [indexFault?] at this
    split at this
    · cases this
    · simpa using List.find?_eq_none.1 (Option.map_eq_none_iff.1 this) k hk

theorem mem_relations {key : Field × Relation} :
    key ∈ m.relations ↔ key.1 ∈ m.fields.values ∧ key.1.relation? = some key.2 := by
  rw [relations, List.mem_filterMap]
  constructor
  · rintro ⟨f, hf, hkey⟩
    obtain ⟨r, hr, rfl⟩ := Option.map_eq_some_iff.1 hkey
    exact ⟨hf, hr⟩
  · rintro ⟨hf, hr⟩
    exact ⟨key.1, hf, by rw [hr]; rfl⟩

theorem WellFormed.mem_values_iff {f : Field} (h : m.WellFormed) :
    f ∈ m.fields.values ↔ m.field? f.name = some f := by
  rw [Keyed.mem_values_iff]
  constructor
  · rintro ⟨k, hk⟩
    rw [h.named k f hk]
    exact hk
  · exact fun hf => ⟨f.name, hf⟩

theorem WellFormed.names_eq (h : m.WellFormed) : m.fields.values.map Field.name = m.fields.keys := by
  rw [Keyed.values, Keyed.keys, List.map_map]
  refine List.map_congr_left fun e he => ?_
  exact h.named e.1 e.2 (Keyed.get?_eq_some_iff.2 he)

theorem WellFormed.nodup_names (h : m.WellFormed) : (m.fields.values.map Field.name).Nodup := by
  rw [h.names_eq]
  exact m.fields.distinct

theorem WellFormed.of_fields {fields : Keyed String Field} (h : m.WellFormed)
    (hnamed : ∀ k f, fields.get? k = some f → f.name = k)
    (hkept : ∀ k, m.fields.contains k = true → fields.contains k = true) :
    { m with fields := fields }.WellFormed where
  named := hnamed
  indexed i hi k hk := hkept k (h.indexed i hi k hk)

theorem wellFormed_ofFields (name : String) (fields : List Field) :
    (ofFields name fields).WellFormed where
  named k f hf := by
    have hmem := Keyed.mem_ofList (Keyed.get?_eq_some_iff.1 hf)
    obtain ⟨g, -, he⟩ := List.mem_map.1 hmem
    cases he
    rfl
  indexed i hi := by cases hi

theorem WellFormed.addField {f : Field} (hm : m.WellFormed) (h : m.addField f = .ok m') :
    m'.WellFormed := by
  obtain ⟨-, rfl⟩ := addField_eq_ok_iff.1 h
  refine hm.of_fields (fun k g hg => ?_) fun k hk => ?_
  · rw [Keyed.get?_put] at hg
    split at hg
    · cases hg
      assumption
    · exact hm.named k g hg
  · exact Keyed.contains_put.2 (.inr hk)

theorem WellFormed.removeField {name : String} (hm : m.WellFormed)
    (h : m.removeField name = .ok m') : m'.WellFormed := by
  obtain ⟨-, hfree, rfl⟩ := removeField_eq_ok_iff.1 h
  constructor
  · intro k f hf
    rw [field?, Keyed.get?_erase] at hf
    split at hf
    · cases hf
    · exact hm.named k f hf
  · intro i hi k hk
    have hne : ¬ name = k := by
      rintro rfl
      exact Bool.eq_false_iff.1 (hfree i hi) (List.contains_iff_mem.2 hk)
    exact Keyed.contains_erase.2 ⟨hne, hm.indexed i hi k hk⟩

theorem WellFormed.changeField {name : String} {source target : Field} (hm : m.WellFormed)
    (hname : target.name = name) (h : m.changeField name source target = .ok m') :
    m'.WellFormed := by
  obtain ⟨-, rfl⟩ := changeField_eq_ok_iff.1 h
  refine hm.of_fields (fun k f hf => ?_) fun k hk => ?_
  · rw [Keyed.get?_revise] at hf
    split at hf
    · obtain ⟨g, -, rfl⟩ := Option.map_eq_some_iff.1 hf
      exact hname.trans ‹name = k›
    · exact hm.named k f hf
  · rwa [Keyed.contains_revise]

theorem WellFormed.renameField {source target : String} (hm : m.WellFormed)
    (h : m.renameField source target = .ok m') : m'.WellFormed := by
  obtain ⟨hfree, -, rfl⟩ := renameField_eq_ok_iff.1 h
  have hnone : m.fields.get? target = none := Keyed.contains_eq_false_iff.1 hfree
  constructor
  · intro k f hf
    rw [field?, Keyed.get?_rekey hnone] at hf
    split at hf
    · obtain ⟨g, -, rfl⟩ := Option.map_eq_some_iff.1 hf
      exact ‹k = target›.symm
    · split at hf
      · cases hf
      · exact hm.named k f hf
  · intro i hi k hk
    obtain ⟨j, hj, rfl⟩ := List.mem_map.1 (Ascending.mem_of_mem_ofList hi)
    obtain ⟨x, hx, rfl⟩ := List.mem_map.1 hk
    have hfield := hm.indexed j hj x hx
    rw [Keyed.contains, Keyed.get?_rekey hnone]
    by_cases hs : x = source
    · rw [if_pos hs, if_pos rfl, Option.isSome_map]
      rw [hs] at hfield
      exact hfield
    · have ht : ¬ x = target := by
        rintro rfl
        rw [Keyed.contains, hnone] at hfield
        cases hfield
      rw [if_neg hs, if_neg ht, if_neg hs]
      exact hfield

theorem WellFormed.addIndex {i : Index} (hm : m.WellFormed) (h : m.addIndex i = .ok m') :
    m'.WellFormed := by
  obtain ⟨hknown, -, rfl⟩ := addIndex_eq_ok_iff.1 h
  refine ⟨hm.named, fun j hj k hk => ?_⟩
  rcases Ascending.mem_place hj with rfl | hj
  · exact hknown k hk
  · exact hm.indexed j hj k hk

theorem WellFormed.removeIndex {i : Index} (hm : m.WellFormed) (h : m.removeIndex i = .ok m') :
    m'.WellFormed := by
  obtain ⟨-, rfl⟩ := removeIndex_eq_ok_iff.1 h
  exact ⟨hm.named, fun j hj => hm.indexed j (List.mem_filter.1 hj).1⟩

end Model

/-! ### Models from fields -/

namespace Model

theorem keys_ofFields (fields : List Field) :
    (fields.map fun f => (f.name, f)).map Prod.fst = fields.map Field.name := by
  rw [List.map_map]
  rfl

theorem size_ofFields {name : String} {fields : List Field} (h : (fields.map Field.name).Nodup) :
    (ofFields name fields).fields.size = fields.length := by
  rw [ofFields, Keyed.size, Keyed.entries_ofList (keys_ofFields fields ▸ h), List.length_map]

theorem values_ofFields (name : String) {fields : List Field} (h : (fields.map Field.name).Nodup) :
    (ofFields name fields).fields.values = fields := by
  rw [Keyed.values, ofFields, Keyed.entries_ofList (keys_ofFields fields ▸ h), List.map_map]
  exact List.map_id _

theorem field?_ofFields {name k : String} {fields : List Field} {f : Field}
    (h : (fields.map Field.name).Nodup) :
    (ofFields name fields).field? k = some f ↔ f ∈ fields ∧ f.name = k := by
  rw [field?, Keyed.get?_eq_some_iff, ofFields, Keyed.entries_ofList (keys_ofFields fields ▸ h),
    List.mem_map]
  constructor
  · rintro ⟨g, hg, he⟩
    cases he
    exact ⟨hg, rfl⟩
  · rintro ⟨hf, rfl⟩
    exact ⟨f, hf, rfl⟩

theorem contains_ofFields {name k : String} {fields : List Field}
    (h : (fields.map Field.name).Nodup) :
    (ofFields name fields).fields.contains k = true ↔ k ∈ fields.map Field.name := by
  rw [Keyed.contains_eq_isSome, Option.isSome_iff_exists, List.mem_map]
  exact exists_congr fun f => field?_ofFields h

end Model

/-! ### Changes of a state -/

namespace Change

theorem effect_wellFormed {c : Change} {o o' : Option Model} (h : c.effect o = .ok o')
    (ho : ∀ m, o = some m → m.WellFormed) : ∀ m, o' = some m → m.WellFormed := by
  rintro m' rfl
  cases turns_of_effect h with
  | createModel => exact Model.wellFormed_ofFields _ _
  | addField h => exact (ho _ rfl).addField h
  | removeField h => exact (ho _ rfl).removeField h
  | changeField hname h => exact (ho _ rfl).changeField hname h
  | renameField h => exact (ho _ rfl).renameField h
  | addIndex h => exact (ho _ rfl).addIndex h
  | removeIndex h => exact (ho _ rfl).removeIndex h
  | runData => exact ho m' rfl

/-- A change that applies leaves a well-formed state well formed. -/
theorem apply_wellFormed {c : Change} {s s' : State} (h : c.apply s = .ok s')
    (hs : s.WellFormed) : s'.WellFormed := by
  rw [State.wellFormed_iff] at hs ⊢
  intro n m hm
  by_cases hc : c.model? = some n
  · exact effect_wellFormed (effect_of_apply hc h) (fun m hm => hs n m hm) m hm
  · rw [model?_of_apply hc h] at hm
    exact hs n m hm

theorem applyFrom_wellFormed {position : Nat} {cs : List Change} {s s' : State}
    (h : applyFrom position cs s = .ok s') (hs : s.WellFormed) : s'.WellFormed := by
  induction cs generalizing position s with
  | nil =>
    cases h
    exact hs
  | cons c rest ih =>
    obtain ⟨t, ht, hrest⟩ := applyFrom_cons_eq_ok_iff.1 h
    exact ih hrest (apply_wellFormed ht hs)

end Change

/-- Every state that changes lead to from the empty state is well formed. -/
theorem State.Reachable.wellFormed {s : State} (h : s.Reachable) : s.WellFormed := by
  obtain ⟨history, hs⟩ := h
  exact Change.applyFrom_wellFormed hs fun m hm => by cases hm

end Schemata
