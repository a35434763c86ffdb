import Schemata.Ddl.Render
import Schemata.Proofs.Change.Fields

/-! What a change looks up in the schema when it is rendered.

A change that brings a foreign key in, or takes one out, is rendered with the field that the key points at,
and a change within a model with the model. What is not found is a violation, and there are no others
(`lacks_of_constraint`). -/
namespace Schemata.Ddl

/-- Whether the field that the relation points at is found: in the table that is being created, if it is the
target, and else in the schema. -/
def Finds (r : Relation) (schema : State) (creating : Option Model) : Prop :=
  (((creating.filter (·.name == r.model)).or (schema.model? r.model)).bind (·.field? r.field)).isSome = true

/-- Whether the fault is that of a foreign key whose target is not found. -/
def Dangles (f : Field) (schema : State) (creating : Option Model) (fault : Fault) : Prop :=
  ∃ r, f.relation? = some r ∧ fault = .unknownTarget f.name r.model r.field ∧ ¬ Finds r schema creating

variable {f : Field} {schema : State} {creating : Option Model} {fault : Fault}

theorem finds_of_hasField {r : Relation} (h : schema.HasField r.model r.field)
    (hother : ∀ m, creating = some m → m.name ≠ r.model) : Finds r schema creating := by
  obtain ⟨m, f, hm, hf⟩ := h
  have hnone : creating.filter (·.name == r.model) = none :=
    Option.filter_eq_none_iff.2 fun m hm => by simpa using hother m hm
  simp [Finds, hnone, hm, hf]

theorem finds_of_creating {r : Relation} {m : Model} (hm : m.name = r.model)
    (h : m.fields.contains r.field = true) : Finds r schema (some m) := by
  have hsome : (some m).filter (·.name == r.model) = some m :=
    Option.filter_eq_some_iff.2 ⟨rfl, beq_iff_eq.2 hm⟩
  rw [Finds, hsome]
  exact h

theorem dangles_of_referencedField {r : Relation} (hr : f.relation? = some r)
    (h : referencedField f schema creating = .error fault) : Dangles f schema creating fault := by
  refine ⟨r, hr, ?_⟩
  simp only [referencedField, hr] at h
  split at h
  · cases h
  · rename_i hnone
    cases h
    exact ⟨rfl, by simp [Finds, hnone]⟩

theorem dangles_of_columnType (h : columnType f schema creating = .error fault) :
    Dangles f schema creating fault := by
  rw [columnType] at h
  split at h
  · obtain ⟨r, hr⟩ := Option.isSome_iff_exists.1 ‹_›
    cases ht : referencedField f schema creating with
    | ok target =>
      rw [ht] at h
      cases h
    | error other =>
      rw [ht] at h
      cases h
      exact dangles_of_referencedField hr ht
  · cases h

theorem dangles_of_reference? (h : reference? f schema creating = .error fault) :
    Dangles f schema creating fault := by
  rw [reference?] at h
  split at h
  · cases h
  · rename_i r hr
    cases ht : referencedField f schema creating with
    | ok target =>
      rw [ht] at h
      cases h
    | error other =>
      rw [ht] at h
      cases h
      exact dangles_of_referencedField hr ht

theorem dangles_of_columnOf (h : columnOf f schema creating = .error fault) :
    Dangles f schema creating fault := by
  simp only [columnOf, bind, Except.bind, pure, Except.pure] at h
  split at h
  · rename_i other htype
    cases h
    rw [newColumnType] at htype
    split at htype
    · cases htype
    · cases htype
    · exact dangles_of_columnType htype
  · split at h
    · rename_i other href
      cases h
      exact dangles_of_reference? href
    · cases h

theorem dangles_of_mapM {fields : List Field}
    (h : fields.mapM (columnOf · schema creating) = .error fault) :
    ∃ f ∈ fields, Dangles f schema creating fault := by
  induction fields with
  | nil => cases h
  | cons f rest ih =>
    rw [List.mapM_cons] at h
    cases hf : columnOf f schema creating with
    | error other =>
      rw [hf] at h
      cases h
      exact ⟨f, List.mem_cons_self .., dangles_of_columnOf hf⟩
    | ok column =>
      cases hrest : rest.mapM (columnOf · schema creating) with
      | error other =>
        rw [hf, hrest] at h
        cases h
        obtain ⟨g, hg, hdangles⟩ := ih hrest
        exact ⟨g, List.mem_cons_of_mem _ hg, hdangles⟩
      | ok columns =>
        rw [hf, hrest] at h
        cases h

theorem dangles_of_retype {table : String} {source target : Field}
    (h : retype table source target schema = .error fault) :
    Dangles source schema none fault ∨ Dangles target schema none fault := by
  simp only [retype, bind, Except.bind, pure, Except.pure] at h
  split at h
  · cases h
    exact .inr (dangles_of_columnType ‹_›)
  split at h
  · cases h
    exact .inl (dangles_of_columnType ‹_›)
  split at h
  · cases h
    exact .inr (dangles_of_reference? ‹_›)
  · cases h

/-- What may be wrong with a change that has no statements for what the schema lacks. -/
inductive Lacks (schema : State) (fault : Fault) : Change → Prop
  | created (n : String) (fields : List Field) (f : Field) (mem : f ∈ fields)
      (dangles : Dangles f schema (some (.ofFields n fields)) fault) :
      Lacks schema fault (.createModel n fields)
  | added (n : String) (f : Field) (dangles : Dangles f schema none fault) :
      Lacks schema fault (.addField n f)
  | source (n k : String) (f target : Field) (dangles : Dangles f schema none fault) :
      Lacks schema fault (.changeField n k f target)
  | target (n k : String) (source f : Field) (dangles : Dangles f schema none fault) :
      Lacks schema fault (.changeField n k source f)
  | renamed (n source target : String) (lacks : ¬ schema.HasField n source) :
      Lacks schema fault (.renameField n source target)
  | indexed (n : String) (i : Index) (lacks : schema.model? n = none) :
      Lacks schema fault (.addIndex n i)

theorem existingModel_eq_error {n : String} (h : existingModel schema n = .error fault) :
    schema.model? n = none := by
  rw [existingModel] at h
  split at h
  · cases h
  · assumption

/-- A change is refused as a violation only for what the schema lacks. -/
theorem lacks_of_constraint {c : Change} (h : render c schema = .error fault)
    (hk : fault.kind = .constraint) : Lacks schema fault c := by
  cases c with
  | createModel n fields =>
    simp only [render, createTable, bind, Except.bind, pure, Except.pure] at h
    split at h
    · cases h
      obtain ⟨f, hf, hdangles⟩ := dangles_of_mapM ‹_›
      exact .created n fields f hf hdangles
    · cases h
  | deleteModel | removeField | removeIndex => cases h
  | addField n f =>
    simp only [render, addColumn, bind, Except.bind, pure, Except.pure] at h
    split at h
    · cases h
      cases hk
    split at h
    · cases h
      exact .added n f (dangles_of_columnOf ‹_›)
    · cases h
  | changeField n k source target =>
    simp only [render, alterColumn, bind, Except.bind, pure, Except.pure] at h
    split at h
    · split at h
      · cases h
      · cases hretyped : retype n source target schema with
        | ok retyped =>
          rw [hretyped] at h
          cases h
        | error other =>
          rw [hretyped] at h
          cases h
          rcases dangles_of_retype hretyped with hdangles | hdangles
          · exact .source n k source target hdangles
          · exact .target n k source target hdangles
    · cases h
      cases hk
  | renameField n source target =>
    simp only [render, bind, Except.bind, pure, Except.pure] at h
    refine .renamed n source target ?_
    rintro ⟨m, f, hm, hf⟩
    simp [existingModel, hm, hf] at h
  | addIndex n i =>
    simp only [render, bind, Except.bind, pure, Except.pure] at h
    split at h
    · cases h
      exact .indexed n i (existingModel_eq_error ‹_›)
    · cases h
  | runData name payload =>
    simp only [render] at h
    split at h <;> cases h
    cases hk

end Schemata.Ddl
