import Schemata.Proofs.Change.Batches
import Schemata.Proofs.Change.WellFormed
import Schemata.Proofs.Schema.Alike

/-! The fields of a model, before and after a change that applies to it.

What a change that applied found, and what it left, is said once for each kind of change
(`Model.of_addField` and its like). From this follow the fields after a row of changes of one kind, and that
a field stays where it is under all changes but three: those that take it, or its model, away and those that
rename it (`Change.Drops`). -/
namespace Schemata

/-! ### What a change found and left -/

namespace Model
variable {m m' : Model}

theorem of_addField {f : Field} (h : m.addField f = .ok m') :
    m.field? f.name = none ∧ m' = m.withFields [f] := by
  obtain ⟨hfree, rfl⟩ := addField_eq_ok_iff.1 h
  exact ⟨Keyed.contains_eq_false_iff.1 hfree, rfl⟩

theorem of_removeField {f : Field} (h : m.removeField f.name = .ok m') :
    m.fields.contains f.name = true ∧ m' = m.withoutFields [f] := by
  obtain ⟨hthere, -, rfl⟩ := removeField_eq_ok_iff.1 h
  exact ⟨hthere, rfl⟩

theorem of_changeField {name : String} {source target : Field}
    (h : m.changeField name source target = .ok m') :
    (∃ current, m.field? name = some current ∧ current.same source = true) ∧
      m' = m.revised [⟨name, source, target⟩] := by
  obtain ⟨hcurrent, rfl⟩ := changeField_eq_ok_iff.1 h
  exact ⟨hcurrent, rfl⟩

theorem of_renameField {source target : String} (h : m.renameField source target = .ok m') :
    m.field? target = none ∧ (∃ f, m.field? source = some f) ∧ m' = m.renamed source target := by
  obtain ⟨hfree, hsource, rfl⟩ := renameField_eq_ok_iff.1 h
  exact ⟨Keyed.contains_eq_false_iff.1 hfree, Option.isSome_iff_exists.1 hsource, rfl⟩

theorem of_addIndex {i : Index} (h : m.addIndex i = .ok m') : m' = m.withIndexes [i] :=
  (addIndex_eq_ok_iff.1 h).2.2.symm

theorem of_removeIndex {i : Index} (h : m.removeIndex i = .ok m') : m' = m.withoutIndexes [i] :=
  (removeIndex_eq_ok_iff.1 h).2.symm

end Model

namespace Change
variable {n : String} {m m' : Model} {o : Option Model}

/-- A model is made where there was none, and has the fields that were given. -/
theorem of_effect_createModel {fields : List Field} {o' : Option Model}
    (h : (createModel n fields).effect o = .ok o') :
    o = none ∧ (fields.map Field.name).Nodup ∧ o' = some (.ofFields n fields) := by
  cases turns_of_effect h with
  | createModel hsize =>
    refine ⟨rfl, ?_, rfl⟩
    rw [← Model.keys_ofFields]
    exact Keyed.nodup_of_size_ofList (hsize.trans (List.length_map _).symm)

/-! ### Fields after changes of one kind -/

/-- Changes of one kind in a row leave what `after` says, if each of them leaves what it says of it. -/
theorem of_effects_row {α : Type} {change : α → Change} {after : Model → List α → Model}
    (hnil : ∀ m, after m [] = m) (hcons : ∀ m a rest, after m (a :: rest) = after (after m [a]) rest)
    (hstep : ∀ {m a o}, (change a).Turns (some m) o → o = some (after m [a]))
    {row : List α} (h : effects (row.map change) (some m) = .ok o) : o = some (after m row) := by
  induction row generalizing m with
  | nil =>
    cases h
    rw [hnil]
  | cons a rest ih =>
    obtain ⟨p, hp, hrest⟩ := effects_cons_eq_ok_iff.1 h
    obtain rfl := hstep (turns_of_effect hp)
    rw [hcons]
    exact ih hrest

theorem of_effects_addFields {fs : List Field}
    (h : effects (fs.map (.addField n)) (some m) = .ok o) : o = some (m.withFields fs) := by
  refine of_effects_row (fun _ => rfl) (fun _ _ _ => rfl) (fun ht => ?_) h
  cases ht with
  | addField h => rw [(Model.of_addField h).2]

theorem of_effects_removeFields {fs : List Field}
    (h : effects (fs.map (.removeField n)) (some m) = .ok o) : o = some (m.withoutFields fs) := by
  refine of_effects_row (fun _ => rfl) (fun _ _ _ => rfl) (fun ht => ?_) h
  cases ht with
  | removeField h => rw [(Model.of_removeField h).2]

theorem of_effects_changeFields {rs : List Revision}
    (h : effects (rs.map fun r => .changeField n r.field r.source r.target) (some m) = .ok o) :
    o = some (m.revised rs) := by
  refine of_effects_row (fun _ => rfl) (fun _ _ _ => rfl) (fun ht => ?_) h
  cases ht with
  | changeField _ h => rw [(Model.of_changeField h).2]

theorem of_effects_addIndexes {is : List Index}
    (h : effects (is.map (.addIndex n)) (some m) = .ok o) : o = some (m.withIndexes is) := by
  refine of_effects_row (fun _ => rfl) (fun _ _ _ => rfl) (fun ht => ?_) h
  cases ht with
  | addIndex h => rw [Model.of_addIndex h]

theorem of_effects_removeIndexes {is : List Index}
    (h : effects (is.map (.removeIndex n)) (some m) = .ok o) : o = some (m.withoutIndexes is) := by
  refine of_effects_row (fun _ => rfl) (fun _ _ _ => rfl) (fun ht => ?_) h
  cases ht with
  | removeIndex h => rw [Model.of_removeIndex h]

/-! ### Changed fields -/

/-- A field that a change replaced had a default before that equals itself. -/
theorem comparable_of_apply {name : String} {source target : Field} {s s' : State}
    (h : (changeField n name source target).apply s = .ok s') : source.Comparable := by
  obtain ⟨o, o', -, -, ht⟩ := turns_of_apply rfl h
  cases ht with
  | changeField _ h =>
    obtain ⟨⟨current, -, hsame⟩, -⟩ := Model.of_changeField h
    exact (Field.alike_of_same hsame).comparable (Field.comparable_of_same hsame)

theorem comparable_of_applyFrom {position : Nat} {cs : List Change} {s s' : State}
    (h : applyFrom position cs s = .ok s') {name : String} {source target : Field}
    (hc : changeField n name source target ∈ cs) : source.Comparable := by
  induction cs generalizing position s with
  | nil => cases hc
  | cons c rest ih =>
    obtain ⟨t, ht, hrest⟩ := applyFrom_cons_eq_ok_iff.1 h
    rcases List.mem_cons.1 hc with rfl | hc
    · exact comparable_of_apply ht
    · exact ih hrest hc

/-! ### Fields that stay -/

/-- Whether the change takes the field of that model away, or its name. -/
def Drops : Change → String → String → Prop
  | .deleteModel name, n, _ => name = n
  | .removeField model f, n, k => model = n ∧ f.name = k
  | .renameField model source _, n, k => model = n ∧ source = k
  | _, _, _ => False

end Change

/-- Whether the state has the field of that model. -/
def State.HasField (s : State) (n k : String) : Prop :=
  ∃ m f, s.model? n = some m ∧ m.field? k = some f

namespace Change
variable {n k : String} {m m' : Model}

theorem contains_of_effect_some {c : Change} {o : Option Model} {f : Field}
    (hc : c.model? = some n) (h : c.effect (some m) = .ok o) (hd : ¬ c.Drops n k)
    (hf : m.field? k = some f) : ∃ m' f', o = some m' ∧ m'.field? k = some f' := by
  have ht := turns_of_effect h
  cases o with
  | none =>
    cases ht
    cases hc
    exact absurd rfl hd
  | some m' =>
    suffices (c.fieldAfter m.field? k).isSome = true by
      obtain ⟨f', hf'⟩ := Option.isSome_iff_exists.1 this
      exact ⟨m', f', rfl, (field?_of_turns ht k).trans hf'⟩
    have hthere : (m.field? k).isSome = true := Option.isSome_of_eq_some hf
    cases ht with
    | runData => cases hc
    | addField | changeField =>
      rw [fieldAfter]
      split
      · rfl
      · exact hthere
    | removeField =>
      cases hc
      rw [fieldAfter, if_neg fun he => hd ⟨rfl, he⟩]
      exact hthere
    | @renameField _ source target _ _ hm =>
      cases hc
      have hfree := (Model.of_renameField hm).1
      have hs : ¬ k = source := fun he => hd ⟨rfl, he.symm⟩
      have ht : ¬ k = target := by
        rintro rfl
        cases hfree.symm.trans hf
      rw [fieldAfter, if_neg ht, if_neg hs]
      exact hthere
    | addIndex | removeIndex => exact hthere

/-- A field stays under a change that takes neither it nor its name away. -/
theorem hasField_of_apply {c : Change} {s s' : State} (h : c.apply s = .ok s')
    (hd : ¬ c.Drops n k) (hs : s.HasField n k) : s'.HasField n k := by
  obtain ⟨m, f, hm, hf⟩ := hs
  by_cases hc : c.model? = some n
  · have he := effect_of_apply hc h
    rw [hm] at he
    exact contains_of_effect_some hc he hd hf
  · exact ⟨m, f, (model?_of_apply hc h).trans hm, hf⟩

theorem hasField_of_createModel {fields : List Field} {s s' : State}
    (h : (createModel n fields).apply s = .ok s') (hk : k ∈ fields.map Field.name) :
    s'.HasField n k := by
  obtain ⟨-, hd, hmodel⟩ := of_effect_createModel (effect_of_apply rfl h)
  obtain ⟨f, hf⟩ : ∃ f, (Model.ofFields n fields).field? k = some f :=
    Option.isSome_iff_exists.1 ((Model.contains_ofFields hd).2 hk)
  exact ⟨_, f, hmodel, hf⟩

/-- A field is there in the end that was there, or came with a new model, if no change took it away. -/
theorem hasField_of_applyFrom {position : Nat} {cs : List Change} {s s' : State}
    (h : applyFrom position cs s = .ok s') (hd : ∀ c ∈ cs, ¬ c.Drops n k)
    (hs : s.HasField n k ∨ ∃ fields, createModel n fields ∈ cs ∧ k ∈ fields.map Field.name) :
    s'.HasField n k := by
  induction cs generalizing position s with
  | nil =>
    cases h
    exact hs.resolve_right (by simp)
  | cons c rest ih =>
    obtain ⟨t, ht, hrest⟩ := applyFrom_cons_eq_ok_iff.1 h
    refine ih hrest (fun c hc => hd c (List.mem_cons_of_mem _ hc)) ?_
    rcases hs with hs | ⟨fields, hin, hk⟩
    · exact .inl (hasField_of_apply ht (hd c (List.mem_cons_self ..)) hs)
    · rcases List.mem_cons.1 hin with rfl | hin
      · exact .inl (hasField_of_createModel ht hk)
      · exact .inr ⟨fields, hin, hk⟩

end Change

end Schemata
