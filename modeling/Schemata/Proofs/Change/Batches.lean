import Schemata.Diff.Basic
import Schemata.Proofs.Change.Locality

/-! Changes of one kind in a row.

For each kind of change within a model: what the model is after a list of them, look-up by look-up, and
what the list needs so that each of its changes applies. The needs speak of the model before the list,
never of the models in between. -/
namespace Schemata

namespace Model
variable {m : Model}

/-! ### Indexes -/

def withoutIndexes (m : Model) (is : List Index) : Model :=
  { m with indexes := is.foldl Ascending.erase m.indexes }

def withIndexes (m : Model) (is : List Index) : Model :=
  { m with indexes := is.foldl Ascending.insert m.indexes }

theorem withoutIndexes_cons (m : Model) (i : Index) (rest : List Index) :
    m.withoutIndexes (i :: rest) = { m with indexes := m.indexes.erase i }.withoutIndexes rest := rfl

theorem contains_withoutIndexes {is : List Index} {i : Index} :
    (m.withoutIndexes is).indexes.contains i = true ↔ i ∉ is ∧ m.indexes.contains i = true := by
  induction is generalizing m with
  | nil => simp [withoutIndexes]
  | cons j rest ih =>
    rw [withoutIndexes_cons, ih, Ascending.contains_erase, List.mem_cons, not_or, and_left_comm,
      and_assoc, ne_comm]

theorem contains_withIndexes {is : List Index} {i : Index} :
    (m.withIndexes is).indexes.contains i = true ↔ i ∈ is ∨ m.indexes.contains i = true := by
  rw [withIndexes, Ascending.contains_foldl_insert, List.map_id]

/-! ### Fields -/

def withFields (m : Model) (fs : List Field) : Model :=
  { m with fields := fs.foldl (fun t f => t.put f.name f) m.fields }

def withoutFields (m : Model) (fs : List Field) : Model :=
  { m with fields := fs.foldl (fun t f => t.erase f.name) m.fields }

def revised (m : Model) (rs : List Revision) : Model :=
  { m with fields := rs.foldl (fun t r => t.revise r.field fun _ => r.target) m.fields }

theorem withFields_cons (m : Model) (f : Field) (rest : List Field) :
    m.withFields (f :: rest) = { m with fields := m.fields.put f.name f }.withFields rest := rfl

theorem field?_withFields_of_not_mem {fs : List Field} {k : String} (h : k ∉ fs.map Field.name) :
    (m.withFields fs).field? k = m.field? k := by
  induction fs generalizing m with
  | nil => rfl
  | cons f rest ih =>
    rw [List.map_cons, List.mem_cons, not_or] at h
    rw [withFields_cons, ih h.2, field?, Keyed.get?_put]
    exact if_neg fun he => h.1 he.symm

theorem field?_withFields_of_mem {fs : List Field} {f : Field} (hd : (fs.map Field.name).Nodup)
    (h : f ∈ fs) : (m.withFields fs).field? f.name = some f := by
  induction fs generalizing m with
  | nil => cases h
  | cons g rest ih =>
    rw [List.map_cons, List.nodup_cons] at hd
    rw [withFields_cons]
    rcases List.mem_cons.1 h with rfl | h
    · rw [field?_withFields_of_not_mem hd.1, field?, Keyed.get?_put]
      exact if_pos rfl
    · exact ih hd.2 h

theorem contains_withFields {fs : List Field} {k : String} :
    (m.withFields fs).fields.contains k = true ↔ k ∈ fs.map Field.name ∨ m.fields.contains k = true := by
  induction fs generalizing m with
  | nil => simp [withFields]
  | cons f rest ih =>
    rw [withFields_cons, ih, Keyed.contains_put, List.map_cons, List.mem_cons, or_left_comm, or_assoc,
      @eq_comm _ k]

theorem withoutFields_cons (m : Model) (f : Field) (rest : List Field) :
    m.withoutFields (f :: rest) = { m with fields := m.fields.erase f.name }.withoutFields rest := rfl

theorem field?_withoutFields (fs : List Field) (k : String) :
    (m.withoutFields fs).field? k = if k ∈ fs.map Field.name then none else m.field? k := by
  induction fs generalizing m with
  | nil => simp [withoutFields]
  | cons f rest ih =>
    have hfield : { m with fields := m.fields.erase f.name }.field? k =
        if f.name = k then none else m.field? k := Keyed.get?_erase ..
    rw [withoutFields_cons, ih, hfield]
    by_cases hf : f.name = k
    · simp [hf]
    · simp [hf, Ne.symm hf]

theorem revised_cons (m : Model) (r : Revision) (rest : List Revision) :
    m.revised (r :: rest) =
      { m with fields := m.fields.revise r.field fun _ => r.target }.revised rest := rfl

theorem field?_revised_of_not_mem {rs : List Revision} {k : String}
    (h : k ∉ rs.map Revision.field) : (m.revised rs).field? k = m.field? k := by
  induction rs generalizing m with
  | nil => rfl
  | cons r rest ih =>
    rw [List.map_cons, List.mem_cons, not_or] at h
    rw [revised_cons, ih h.2, field?, Keyed.get?_revise]
    exact if_neg fun he => h.1 he.symm

theorem field?_revised_of_mem {rs : List Revision} {r : Revision}
    (hd : (rs.map Revision.field).Nodup) (h : r ∈ rs) (hf : m.fields.contains r.field = true) :
    (m.revised rs).field? r.field = some r.target := by
  induction rs generalizing m with
  | nil => cases h
  | cons x rest ih =>
    rw [List.map_cons, List.nodup_cons] at hd
    rw [revised_cons]
    rcases List.mem_cons.1 h with rfl | h
    · obtain ⟨f, hf⟩ := Option.isSome_iff_exists.1 hf
      rw [field?_revised_of_not_mem hd.1, field?, Keyed.get?_revise, if_pos rfl, hf]
      rfl
    · refine ih hd.2 h ?_
      rwa [Keyed.contains_revise]

theorem contains_revised {rs : List Revision} {k : String} :
    (m.revised rs).fields.contains k = m.fields.contains k := by
  induction rs generalizing m with
  | nil => rfl
  | cons r rest ih => rw [revised_cons, ih, Keyed.contains_revise]

/-! ### A renamed field -/

/-- The model with a field under another name, and its indexes with it. -/
def renamed (m : Model) (source target : String) : Model :=
  { m with
    fields := m.fields.rekey source target (·.rename target)
    indexes := .ofList (m.indexes.toList.map (·.renameField source target)) }

theorem field?_renamed {source target : String} (h : m.field? target = none) (k : String) :
    (m.renamed source target).field? k =
      if k = target then (m.field? source).map (·.rename target)
      else if k = source then none else m.field? k :=
  Keyed.get?_rekey h source k _

theorem contains_renamed {source target : String} {i : Index} :
    (m.renamed source target).indexes.contains i = true ↔
      ∃ j, m.indexes.contains j = true ∧ j.renameField source target = i := by
  rw [renamed, Ascending.contains_ofList, List.map_id, List.mem_map]
  refine exists_congr fun j => and_congr_left fun _ => ?_
  rw [Ascending.contains_iff_mem]

theorem renameField_eq_ok {source target : String} (hs : m.fields.contains source = true)
    (ht : m.fields.contains target = false) :
    m.renameField source target = .ok (m.renamed source target) :=
  renameField_eq_ok_iff.2 ⟨ht, hs, rfl⟩

end Model

/-! ### When a row of changes applies -/

namespace Change
variable {n : String} {m : Model}

theorem effects_removeIndexes {is : List Index} (hd : is.Nodup)
    (h : ∀ i ∈ is, m.indexes.contains i = true) :
    effects (is.map (.removeIndex n)) (some m) = .ok (some (m.withoutIndexes is)) := by
  induction is generalizing m with
  | nil => rfl
  | cons i rest ih =>
    rw [List.nodup_cons] at hd
    have hstep : (removeIndex n i).effect (some m) =
        .ok (some { m with indexes := m.indexes.erase i }) :=
      effect_eq_ok_iff.2 (.removeIndex (Model.removeIndex_eq_ok_iff.2 ⟨h i (List.mem_cons_self ..), rfl⟩))
    rw [List.map_cons, effects_cons hstep]
    refine ih hd.2 fun j hj => Ascending.contains_erase.2 ⟨?_, h j (List.mem_cons_of_mem i hj)⟩
    rintro rfl
    exact hd.1 hj

theorem effects_addIndexes {is : List Index} (hd : is.Nodup)
    (hnew : ∀ i ∈ is, m.indexes.contains i = false)
    (hfields : ∀ i ∈ is, ∀ k ∈ i.fields, m.fields.contains k = true) :
    effects (is.map (.addIndex n)) (some m) = .ok (some (m.withIndexes is)) := by
  induction is generalizing m with
  | nil => rfl
  | cons i rest ih =>
    rw [List.nodup_cons] at hd
    have hstep : (addIndex n i).effect (some m) =
        .ok (some { m with indexes := m.indexes.insert i }) :=
      effect_eq_ok_iff.2 (.addIndex (Model.addIndex_eq_ok_iff.2
        ⟨hfields i (List.mem_cons_self ..), hnew i (List.mem_cons_self ..), rfl⟩))
    rw [List.map_cons, effects_cons hstep]
    refine ih hd.2 (fun j hj => Bool.eq_false_iff.2 fun hc => ?_)
      fun j hj => hfields j (List.mem_cons_of_mem i hj)
    rcases Ascending.contains_insert.1 hc with he | hc
    · cases he
      exact hd.1 hj
    · exact absurd hc (Bool.eq_false_iff.1 (hnew j (List.mem_cons_of_mem i hj)))

theorem effects_addFields {fs : List Field} (hd : (fs.map Field.name).Nodup)
    (h : ∀ f ∈ fs, m.fields.contains f.name = false) :
    effects (fs.map (.addField n)) (some m) = .ok (some (m.withFields fs)) := by
  induction fs generalizing m with
  | nil => rfl
  | cons f rest ih =>
    rw [List.map_cons, List.nodup_cons] at hd
    have hstep : (addField n f).effect (some m) =
        .ok (some { m with fields := m.fields.put f.name f }) :=
      effect_eq_ok_iff.2 (.addField (Model.addField_eq_ok_iff.2 ⟨h f (List.mem_cons_self ..), rfl⟩))
    rw [List.map_cons, effects_cons hstep]
    refine ih hd.2 fun g hg => Bool.eq_false_iff.2 fun hc => ?_
    rcases Keyed.contains_put.1 hc with he | hc
    · exact hd.1 (he ▸ List.mem_map_of_mem hg)
    · exact absurd hc (Bool.eq_false_iff.1 (h g (List.mem_cons_of_mem f hg)))

theorem effects_removeFields {fs : List Field} (hd : (fs.map Field.name).Nodup)
    (h : ∀ f ∈ fs, m.fields.contains f.name = true)
    (hfree : ∀ i ∈ m.indexes.toList, ∀ f ∈ fs, i.references f.name = false) :
    effects (fs.map (.removeField n)) (some m) = .ok (some (m.withoutFields fs)) := by
  induction fs generalizing m with
  | nil => rfl
  | cons f rest ih =>
    rw [List.map_cons, List.nodup_cons] at hd
    have hstep : (removeField n f).effect (some m) =
        .ok (some { m with fields := m.fields.erase f.name }) :=
      effect_eq_ok_iff.2 (.removeField (Model.removeField_eq_ok_iff.2
        ⟨h f (List.mem_cons_self ..), fun i hi => hfree i hi f (List.mem_cons_self ..), rfl⟩))
    rw [List.map_cons, effects_cons hstep]
    refine ih hd.2 (fun g hg => Keyed.contains_erase.2 ⟨?_, h g (List.mem_cons_of_mem f hg)⟩)
      fun i hi g hg => hfree i hi g (List.mem_cons_of_mem f hg)
    intro he
    exact hd.1 (he ▸ List.mem_map_of_mem hg)

theorem effects_changeFields {rs : List Revision} (hd : (rs.map Revision.field).Nodup)
    (hname : ∀ r ∈ rs, r.target.name = r.field)
    (h : ∀ r ∈ rs, ∃ f, m.field? r.field = some f ∧ f.same r.source = true) :
    effects (rs.map fun r => .changeField n r.field r.source r.target) (some m) =
      .ok (some (m.revised rs)) := by
  induction rs generalizing m with
  | nil => rfl
  | cons r rest ih =>
    rw [List.map_cons, List.nodup_cons] at hd
    have hstep : (changeField n r.field r.source r.target).effect (some m) =
        .ok (some { m with fields := m.fields.revise r.field fun _ => r.target }) :=
      effect_eq_ok_iff.2 (.changeField (hname r (List.mem_cons_self ..))
        (Model.changeField_eq_ok_iff.2 ⟨h r (List.mem_cons_self ..), rfl⟩))
    rw [List.map_cons, effects_cons hstep]
    refine ih hd.2 (fun x hx => hname x (List.mem_cons_of_mem r hx)) fun x hx => ?_
    have hne : ¬ r.field = x.field := fun he => hd.1 (he ▸ List.mem_map_of_mem hx)
    rw [Model.field?, Keyed.get?_revise, if_neg hne]
    exact h x (List.mem_cons_of_mem r hx)

end Change

end Schemata
