import Schemata.Change.Apply
import Schemata.Proofs.Collection

/-! Changes, model by model.

A change of the schema is a change of the model that it concerns (`Change.effect`) and of nothing else
(`apply_eq`). So a list of changes may be taken apart: it applies exactly when, for every name, the
changes that concern this name apply to its model one after the other, and what they leave there is what
the whole list leaves there.

What one change can do to its model is said once, case by case, with what the change asks for
(`Change.Turns`); where each field of the model came from follows (`origin_of_turns`), and what is
preserved by every change is shown over these cases. -/
namespace Schemata

/-! ### One model replaced -/

namespace State

/-- The state with `o` for the model of that name; none stands for no model. -/
def replace (s : State) (name : String) : Option Model → State
  | some m => s.insert m
  | none => s.erase name

theorem name_of_model? {s : State} {name : String} {m : Model} (h : s.model? name = some m) :
    m.name = name := Ascending.key_of_find? h

theorem mem_of_model? {s : State} {name : String} {m : Model} (h : s.model? name = some m) : m ∈ s.toList :=
  (Ascending.find?_eq_some_iff.1 h).1

theorem model?_replace {s : State} {name : String} {o : Option Model}
    (ho : ∀ m, o = some m → m.name = name) (k : String) :
    (s.replace name o).model? k = if name = k then o else s.model? k := by
  cases o with
  | some m =>
    rw [replace, model?, Ascending.find?_insert, ho m rfl]
    rfl
  | none => exact Ascending.find?_erase s name k

end State

/-! ### Changes within a model -/

namespace Model
variable {m m' : Model}

theorem addField_eq_ok_iff {f : Field} : m.addField f = .ok m' ↔
    m.fields.contains f.name = false ∧ { m with fields := m.fields.put f.name f } = m' := by
  rw [addField]
  split <;> simp [*]

theorem removeField_eq_ok_iff {name : String} : m.removeField name = .ok m' ↔
    m.fields.contains name = true ∧ (∀ i ∈ m.indexes.toList, i.references name = false) ∧
      { m with fields := m.fields.erase name } = m' := by
  rw [removeField]
  split
  · simp_all
  split
  · rename_i i hfind
    have hreferences := List.find?_some hfind
    have hin := List.mem_of_find?_eq_some hfind
    simp only [reduceCtorEq, false_iff]
    rintro ⟨-, hfree, -⟩
    simp [hfree i hin] at hreferences
  · simp_all [List.find?_eq_none]

theorem changeField_eq_ok_iff {name : String} {source target : Field} :
    m.changeField name source target = .ok m' ↔
      (∃ current, m.field? name = some current ∧ current.same source = true) ∧
        { m with fields := m.fields.revise name fun _ => target } = m' := by
  rw [changeField]
  split
  · simp [*]
  · split <;> simp [*]

theorem renameField_eq_ok_iff {source target : String} : m.renameField source target = .ok m' ↔
    m.fields.contains target = false ∧ m.fields.contains source = true ∧
      { m with
        fields := m.fields.rekey source target (·.rename target)
        indexes := .ofList (m.indexes.toList.map (·.renameField source target)) } = m' := by
  rw [renameField]
  split
  · simp [*]
  · split <;> simp_all

theorem addIndex_eq_ok_iff {i : Index} : m.addIndex i = .ok m' ↔
    (∀ k ∈ i.fields, m.fields.contains k = true) ∧ m.indexes.contains i = false ∧
      { m with indexes := m.indexes.insert i } = m' := by
  rw [addIndex]
  split
  · rename_i missing hfind
    have hmissing := List.find?_some hfind
    have hin := List.mem_of_find?_eq_some hfind
    simp only [reduceCtorEq, false_iff]
    rintro ⟨hknown, -⟩
    simp [hknown missing hin] at hmissing
  · split <;> simp_all [List.find?_eq_none]

theorem removeIndex_eq_ok_iff {i : Index} : m.removeIndex i = .ok m' ↔
    m.indexes.contains i = true ∧ { m with indexes := m.indexes.erase i } = m' := by
  rw [removeIndex]
  split <;> simp [*]

/-! No change within a model gives it another name. -/

theorem addField_name {f : Field} (h : m.addField f = .ok m') : m'.name = m.name := by
  obtain ⟨-, rfl⟩ := addField_eq_ok_iff.1 h
  rfl

theorem removeField_name {name : String} (h : m.removeField name = .ok m') : m'.name = m.name := by
  obtain ⟨-, -, rfl⟩ := removeField_eq_ok_iff.1 h
  rfl

theorem changeField_name {name : String} {source target : Field}
    (h : m.changeField name source target = .ok m') : m'.name = m.name := by
  obtain ⟨-, rfl⟩ := changeField_eq_ok_iff.1 h
  rfl

theorem renameField_name {source target : String} (h : m.renameField source target = .ok m') :
    m'.name = m.name := by
  obtain ⟨-, -, rfl⟩ := renameField_eq_ok_iff.1 h
  rfl

theorem addIndex_name {i : Index} (h : m.addIndex i = .ok m') : m'.name = m.name := by
  obtain ⟨-, -, rfl⟩ := addIndex_eq_ok_iff.1 h
  rfl

theorem removeIndex_name {i : Index} (h : m.removeIndex i = .ok m') : m'.name = m.name := by
  obtain ⟨-, rfl⟩ := removeIndex_eq_ok_iff.1 h
  rfl

end Model

/-! ### The effect of a change -/

namespace Change

/-- What the change makes of the model that it concerns, none standing for no model. -/
def effect : Change → Option Model → Except Conflict (Option Model)
  | .createModel name fields, none =>
    if (Model.ofFields name fields).fields.size = fields.length then
      .ok (some (Model.ofFields name fields))
    else .error (.duplicateFields name)
  | .createModel name _, some _ => .error (.modelExists name)
  | .deleteModel _, some _ => .ok none
  | .deleteModel name, none => .error (.noModelToDelete name)
  | .addField _ field, some m => (m.addField field).map some
  | .removeField _ field, some m => (m.removeField field.name).map some
  | .changeField model field source target, o =>
    if target.name = field then
      match o with
      | some m => (m.changeField field source target).map some
      | none => .error (.noModel model)
    else .error (.renamedByChange model field target.name)
  | .renameField _ source target, some m => (m.renameField source target).map some
  | .addIndex _ index, some m => (m.addIndex index).map some
  | .removeIndex _ index, some m => (m.removeIndex index).map some
  | .addField model _, none | .removeField model _, none | .renameField model _ _, none
  | .addIndex model _, none | .removeIndex model _, none => .error (.noModel model)
  | .runData _ _, o => .ok o

theorem onModel_eq (s : State) (name : String) (f : Model → Except Conflict Model) :
    s.onModel name f =
      (match s.model? name with
        | some m => (f m).map some
        | none => .error (.noModel name)).map (s.replace name) := by
  rw [State.onModel]
  cases s.model? name with
  | none => rfl
  | some m =>
    show (f m).map s.insert = ((f m).map some).map (s.replace name)
    cases f m <;> rfl

/-- A change of the schema is its effect on one model. -/
theorem apply_eq {c : Change} {name : String} (h : c.model? = some name) (s : State) :
    c.apply s = (c.effect (s.model? name)).map (s.replace name) := by
  cases c with
  | createModel n fields =>
    cases h
    rw [apply, State.createModel, Ascending.contains, State.model?]
    cases s.find? name with
    | some m => rfl
    | none =>
      simp only [Option.isSome_none, Bool.false_eq_true, if_false, effect]
      split <;> rfl
  | deleteModel n =>
    cases h
    rw [apply, State.deleteModel, Ascending.contains, State.model?]
    cases s.find? name <;> rfl
  | changeField model field source target =>
    cases h
    simp only [apply, effect, onModel_eq]
    split
    · cases s.model? name <;> rfl
    · rfl
  | addField | removeField | renameField | addIndex | removeIndex =>
    cases h
    rw [apply, onModel_eq]
    cases s.model? name <;> rfl
  | runData => cases h

theorem apply_of_model?_none {c : Change} (h : c.model? = none) (s : State) : c.apply s = .ok s := by
  cases c with
  | runData => rfl
  | _ => cases h

/-! ### What a change finds and what it leaves -/

/-- What a change finds and what it leaves, where it applies. -/
inductive Turns : Change → Option Model → Option Model → Prop
  | createModel {n : String} {fields : List Field} (hsize : (Model.ofFields n fields).fields.size = fields.length) :
      Turns (.createModel n fields) none (some (.ofFields n fields))
  | deleteModel {n : String} {m : Model} : Turns (.deleteModel n) (some m) none
  | addField {n : String} {f : Field} {m m' : Model} (h : m.addField f = .ok m') :
      Turns (.addField n f) (some m) (some m')
  | removeField {n : String} {f : Field} {m m' : Model} (h : m.removeField f.name = .ok m') :
      Turns (.removeField n f) (some m) (some m')
  | changeField {n k : String} {source target : Field} {m m' : Model} (hname : target.name = k)
      (h : m.changeField k source target = .ok m') : Turns (.changeField n k source target) (some m) (some m')
  | renameField {n source target : String} {m m' : Model} (h : m.renameField source target = .ok m') :
      Turns (.renameField n source target) (some m) (some m')
  | addIndex {n : String} {i : Index} {m m' : Model} (h : m.addIndex i = .ok m') :
      Turns (.addIndex n i) (some m) (some m')
  | removeIndex {n : String} {i : Index} {m m' : Model} (h : m.removeIndex i = .ok m') :
      Turns (.removeIndex n i) (some m) (some m')
  | runData {name payload : String} {o : Option Model} : Turns (.runData name payload) o o

theorem turns_of_effect {c : Change} {o o' : Option Model} (h : c.effect o = .ok o') : c.Turns o o' := by
  cases o with
  | none =>
    cases c with
    | createModel =>
      simp only [effect] at h
      split at h <;> cases h
      exact .createModel (by assumption)
    | changeField =>
      simp only [effect] at h
      split at h <;> cases h
    | runData =>
      cases h
      exact .runData
    | _ => cases h
  | some m =>
    cases c with
    | createModel => cases h
    | deleteModel =>
      cases h
      exact .deleteModel
    | addField =>
      obtain ⟨m', hm', rfl⟩ := map_eq_ok_iff.1 h
      exact .addField hm'
    | removeField =>
      obtain ⟨m', hm', rfl⟩ := map_eq_ok_iff.1 h
      exact .removeField hm'
    | changeField =>
      simp only [effect] at h
      split at h
      · obtain ⟨m', hm', rfl⟩ := map_eq_ok_iff.1 h
        exact .changeField (by assumption) hm'
      · cases h
    | renameField =>
      obtain ⟨m', hm', rfl⟩ := map_eq_ok_iff.1 h
      exact .renameField hm'
    | addIndex =>
      obtain ⟨m', hm', rfl⟩ := map_eq_ok_iff.1 h
      exact .addIndex hm'
    | removeIndex =>
      obtain ⟨m', hm', rfl⟩ := map_eq_ok_iff.1 h
      exact .removeIndex hm'
    | runData =>
      cases h
      exact .runData

/-- What is proved of a change that applies is proved from what it finds and leaves, kind by kind. -/
theorem effect_eq_ok_iff {c : Change} {o o' : Option Model} : c.effect o = .ok o' ↔ c.Turns o o' := by
  refine ⟨turns_of_effect, fun h => ?_⟩
  cases h with
  | createModel hsize => exact if_pos hsize
  | deleteModel | runData => rfl
  | changeField hname h => simp only [effect, if_pos hname, h, Except.map]
  | addField h | removeField h | renameField h | addIndex h | removeIndex h => simp only [effect, h, Except.map]

/-- The field of that name after the change, where the names stood for `before` until then. -/
def fieldAfter : Change → (String → Option Field) → String → Option Field
  | .addField _ f, before, k => if f.name = k then some f else before k
  | .removeField _ f, before, k => if f.name = k then none else before k
  | .changeField _ _ _ target, before, k => if target.name = k then some target else before k
  | .renameField _ source target, before, k =>
    if k = target then (before source).map (·.rename target) else if k = source then none else before k
  | _, before, k => before k

/-- **One step.** The names of a model stand for what the change makes of them. -/
theorem field?_of_turns {c : Change} {m m' : Model} (h : c.Turns (some m) (some m')) (k : String) :
    m'.field? k = c.fieldAfter m.field? k := by
  cases h with
  | addField h =>
    obtain ⟨-, rfl⟩ := Model.addField_eq_ok_iff.1 h
    exact Keyed.get?_put ..
  | removeField h =>
    obtain ⟨-, -, rfl⟩ := Model.removeField_eq_ok_iff.1 h
    exact Keyed.get?_erase ..
  | @changeField _ _ _ target _ _ hname h =>
    obtain ⟨⟨current, hcurrent, -⟩, rfl⟩ := Model.changeField_eq_ok_iff.1 h
    subst hname
    refine (Keyed.get?_revise ..).trans (ite_congr rfl (fun hk => ?_) fun _ => rfl)
    subst hk
    exact congrArg (Option.map fun _ => target) hcurrent
  | renameField h =>
    obtain ⟨hfree, -, rfl⟩ := Model.renameField_eq_ok_iff.1 h
    exact Keyed.get?_rekey (Keyed.contains_eq_false_iff.1 hfree) ..
  | addIndex h =>
    obtain ⟨-, -, rfl⟩ := Model.addIndex_eq_ok_iff.1 h
    rfl
  | removeIndex h =>
    obtain ⟨-, rfl⟩ := Model.removeIndex_eq_ok_iff.1 h
    rfl
  | runData => rfl

/-- The fields that a change puts into the schema as they are given. -/
def brought : Change → List Field
  | .createModel _ fields => fields
  | .addField _ field => [field]
  | .changeField _ _ _ target => [target]
  | _ => []

/-- **Where a field comes from.** The change brought it in, or it was there before, under this name or another one. -/
theorem origin_of_turns {c : Change} {o : Option Model} {m' : Model} (h : c.Turns o (some m')) {k : String} {f : Field}
    (hf : m'.field? k = some f) :
    (f ∈ c.brought ∧ f.name = k) ∨ ∃ m, o = some m ∧ (m.field? k = some f ∨
      ∃ n source g, c = .renameField n source k ∧ m.field? source = some g ∧ f = g.rename k) := by
  cases o with
  | none =>
    cases h with
    | createModel =>
      obtain ⟨g, hg, he⟩ := List.mem_map.1 (Keyed.mem_ofList (Keyed.get?_eq_some_iff.1 hf))
      cases he
      exact .inl ⟨hg, rfl⟩
  | some m =>
    rw [field?_of_turns h] at hf
    cases c with
    | addField | changeField =>
      simp only [fieldAfter] at hf
      split at hf
      · cases hf
        exact .inl ⟨List.mem_singleton_self _, by assumption⟩
      · exact .inr ⟨m, rfl, .inl hf⟩
    | removeField =>
      simp only [fieldAfter] at hf
      split at hf
      · cases hf
      · exact .inr ⟨m, rfl, .inl hf⟩
    | renameField n source target =>
      simp only [fieldAfter] at hf
      split at hf
      · obtain ⟨g, hg, rfl⟩ := Option.map_eq_some_iff.1 hf
        subst k
        exact .inr ⟨m, rfl, .inr ⟨n, source, g, rfl, hg, rfl⟩⟩
      · split at hf
        · cases hf
        · exact .inr ⟨m, rfl, .inl hf⟩
    | _ => exact .inr ⟨m, rfl, .inl hf⟩

theorem effect_name {c : Change} {name : String} {o o' : Option Model} (hc : c.model? = some name)
    (ho : ∀ m, o = some m → m.name = name) (h : c.effect o = .ok o') :
    ∀ m, o' = some m → m.name = name := by
  rintro m' rfl
  cases turns_of_effect h with
  | createModel =>
    cases hc
    rfl
  | addField h => exact (Model.addField_name h).trans (ho _ rfl)
  | removeField h => exact (Model.removeField_name h).trans (ho _ rfl)
  | changeField _ h => exact (Model.changeField_name h).trans (ho _ rfl)
  | renameField h => exact (Model.renameField_name h).trans (ho _ rfl)
  | addIndex h => exact (Model.addIndex_name h).trans (ho _ rfl)
  | removeIndex h => exact (Model.removeIndex_name h).trans (ho _ rfl)
  | runData => cases hc

/-! ### What a change leaves under each name -/

theorem effect_of_apply {c : Change} {name : String} {s s' : State} (hc : c.model? = some name)
    (h : c.apply s = .ok s') : c.effect (s.model? name) = .ok (s'.model? name) := by
  rw [apply_eq hc] at h
  obtain ⟨o, ho, rfl⟩ := map_eq_ok_iff.1 h
  rw [State.model?_replace (effect_name hc (fun m hm => State.name_of_model? hm) ho), if_pos rfl, ho]

theorem turns_of_apply {c : Change} {name : String} {s s' : State} (hc : c.model? = some name)
    (h : c.apply s = .ok s') : ∃ o o', s.model? name = o ∧ s'.model? name = o' ∧ c.Turns o o' :=
  ⟨_, _, rfl, rfl, turns_of_effect (effect_of_apply hc h)⟩

/-- A change that applies is a fix-up of data, and leaves the schema as it is, or it turns the model that it concerns. -/
theorem data_or_turns_of_apply {c : Change} {s s' : State} (h : c.apply s = .ok s') :
    (∃ name payload, c = .runData name payload ∧ s' = s) ∨
      ∃ n o o', c.model? = some n ∧ s.model? n = o ∧ s'.model? n = o' ∧ c.Turns o o' := by
  cases hc : c.model? with
  | none =>
    cases c with
    | runData name payload =>
      cases h
      exact .inl ⟨name, payload, rfl, rfl⟩
    | _ => cases hc
  | some n =>
    obtain ⟨o, o', ht⟩ := turns_of_apply hc h
    exact .inr ⟨n, o, o', rfl, ht⟩

theorem apply_of_effect {c : Change} {name : String} {s : State} {o : Option Model}
    (hc : c.model? = some name) (h : c.effect (s.model? name) = .ok o) :
    c.apply s = .ok (s.replace name o) := by
  rw [apply_eq hc, h]
  rfl

theorem model?_of_apply {c : Change} {name : String} {s s' : State} (hc : c.model? ≠ some name)
    (h : c.apply s = .ok s') : s'.model? name = s.model? name := by
  cases hm : c.model? with
  | none =>
    rw [apply_of_model?_none hm] at h
    cases h
    rfl
  | some n =>
    rw [apply_eq hm] at h
    obtain ⟨o, ho, rfl⟩ := map_eq_ok_iff.1 h
    have hne : ¬ n = name := fun he => hc (he ▸ hm)
    rw [State.model?_replace (effect_name hm (fun m hm => State.name_of_model? hm) ho), if_neg hne]

theorem model?_of_apply_of_ne {c : Change} {n name : String} {s s' : State} (hc : c.model? = some n)
    (h : c.apply s = .ok s') (hne : name ≠ n) : s'.model? name = s.model? name :=
  model?_of_apply (fun he => hne (Option.some.inj (he.symm.trans hc))) h

/-- What every model has is what every model has after a change, if the one that the change concerns has it. -/
theorem forall_model_of_apply {P : Model → Prop} {c : Change} {n : String} {s s' : State} (hc : c.model? = some n)
    (h : c.apply s = .ok s') (hs : ∀ name m, s.model? name = some m → P m)
    (hn : ∀ m, s'.model? n = some m → P m) : ∀ name m, s'.model? name = some m → P m := by
  intro name m hm
  by_cases hname : name = n
  · exact hn m (hname ▸ hm)
  · exact hs name m ((model?_of_apply_of_ne hc h hname).symm.trans hm)

/-! ### Changes in a row -/

theorem applyFrom_cons_eq_ok_iff {position : Nat} {c : Change} {rest : List Change} {s s' : State} :
    applyFrom position (c :: rest) s = .ok s' ↔
      ∃ t, c.apply s = .ok t ∧ applyFrom (position + 1) rest t = .ok s' := by
  rw [applyFrom]
  cases c.apply s with
  | error conflict => simp
  | ok t => simp

theorem applyFrom_append_eq_ok_iff {position : Nat} {a b : List Change} {s s' : State} :
    applyFrom position (a ++ b) s = .ok s' ↔
      ∃ t, applyFrom position a s = .ok t ∧ applyFrom (position + a.length) b t = .ok s' := by
  rw [applyFrom_append]
  exact bind_eq_ok_iff

/-- The position is told in a conflict only. -/
theorem applyFrom_position {position : Nat} (position' : Nat) {cs : List Change} {s s' : State}
    (h : applyFrom position cs s = .ok s') : applyFrom position' cs s = .ok s' := by
  induction cs generalizing position position' s with
  | nil => exact h
  | cons c rest ih =>
    obtain ⟨t, ht, hrest⟩ := applyFrom_cons_eq_ok_iff.1 h
    exact applyFrom_cons_eq_ok_iff.2 ⟨t, ht, ih _ hrest⟩

theorem applyAll_cons_eq_ok_iff {c : Change} {rest : List Change} {s s' : State} :
    applyAll (c :: rest) s = .ok s' ↔ ∃ t, c.apply s = .ok t ∧ applyAll rest t = .ok s' :=
  applyFrom_cons_eq_ok_iff.trans <| exists_congr fun _ => and_congr_right fun _ =>
    ⟨applyFrom_position 0, applyFrom_position 1⟩

theorem applyAll_append_eq_ok_iff {a b : List Change} {s s' : State} :
    applyAll (a ++ b) s = .ok s' ↔ ∃ t, applyAll a s = .ok t ∧ applyAll b t = .ok s' :=
  applyFrom_append_eq_ok_iff.trans <| exists_congr fun _ => and_congr_right fun _ =>
    ⟨applyFrom_position 0, applyFrom_position _⟩

/-- The changes one after the other on the model that they concern. -/
def effects (cs : List Change) (o : Option Model) : Except Conflict (Option Model) :=
  cs.foldlM (fun o c => c.effect o) o

theorem effects_cons_eq_ok_iff {c : Change} {rest : List Change} {o o' : Option Model} :
    effects (c :: rest) o = .ok o' ↔ ∃ p, c.effect o = .ok p ∧ effects rest p = .ok o' := by
  rw [effects, List.foldlM_cons, bind_eq_ok_iff]
  rfl

theorem effects_append_eq_ok_iff {a b : List Change} {o o' : Option Model} :
    effects (a ++ b) o = .ok o' ↔ ∃ p, effects a o = .ok p ∧ effects b p = .ok o' := by
  rw [effects, List.foldlM_append, bind_eq_ok_iff]
  rfl

theorem effects_append {a b : List Change} {o o' : Option Model} (h : effects a o = .ok o') :
    effects (a ++ b) o = effects b o' := by
  rw [effects, List.foldlM_append]
  rw [effects] at h
  rw [h]
  rfl

theorem effects_cons {c : Change} {rest : List Change} {o o' : Option Model}
    (h : c.effect o = .ok o') : effects (c :: rest) o = effects rest o' :=
  effects_append (a := [c]) (by rw [effects, List.foldlM_cons, h]; rfl)

/-- The changes that concern the model of that name. -/
def concerning (name : String) (cs : List Change) : List Change :=
  cs.filter (·.model? == some name)

theorem concerning_append (name : String) (a b : List Change) :
    concerning name (a ++ b) = concerning name a ++ concerning name b :=
  List.filter_append ..

theorem concerning_front {front cs : List Change} (name : String) (h : front <+: cs) :
    concerning name front <+: concerning name cs := h.filter _

theorem effects_concerning {position : Nat} {cs : List Change} {s s' : State}
    (h : applyFrom position cs s = .ok s') (name : String) :
    effects (concerning name cs) (s.model? name) = .ok (s'.model? name) := by
  induction cs generalizing position s with
  | nil =>
    cases h
    rfl
  | cons c rest ih =>
    obtain ⟨t, ht, hrest⟩ := applyFrom_cons_eq_ok_iff.1 h
    by_cases hc : c.model? = some name
    · rw [concerning, List.filter_cons_of_pos (by simpa using hc),
        effects_cons (effect_of_apply hc ht)]
      exact ih hrest
    · rw [concerning, List.filter_cons_of_neg (by simpa using hc), ← model?_of_apply hc ht]
      exact ih hrest

/-- Changes apply to a schema when, name by name, they apply to its models. -/
theorem exists_applyFrom {position : Nat} {cs : List Change} {s : State}
    (h : ∀ name, ∃ o, effects (concerning name cs) (s.model? name) = .ok o) :
    ∃ s', applyFrom position cs s = .ok s' := by
  induction cs generalizing position s with
  | nil => exact ⟨s, rfl⟩
  | cons c rest ih =>
    suffices ∃ t, c.apply s = .ok t ∧
        ∀ name, ∃ o, effects (concerning name rest) (t.model? name) = .ok o by
      obtain ⟨t, ht, hrest⟩ := this
      obtain ⟨s', hs'⟩ := ih hrest
      exact ⟨s', applyFrom_cons_eq_ok_iff.2 ⟨t, ht, hs'⟩⟩
    have hother : ∀ t, c.apply s = .ok t → ∀ name, c.model? ≠ some name →
        ∃ o, effects (concerning name rest) (t.model? name) = .ok o := by
      intro t ht name hc
      obtain ⟨o, ho⟩ := h name
      rw [concerning, List.filter_cons_of_neg (by simpa using hc)] at ho
      exact ⟨o, by rw [model?_of_apply hc ht]; exact ho⟩
    cases hm : c.model? with
    | none =>
      have ht := apply_of_model?_none hm s
      exact ⟨s, ht, fun name => hother s ht name (by simp [hm])⟩
    | some n =>
      obtain ⟨o, ho⟩ := h n
      rw [concerning, List.filter_cons_of_pos (by simp [hm])] at ho
      obtain ⟨o', he, ho⟩ := effects_cons_eq_ok_iff.1 ho
      have ht := apply_of_effect hm he
      refine ⟨_, ht, fun name => ?_⟩
      by_cases hc : c.model? = some name
      · obtain rfl : n = name := Option.some.inj (hm.symm.trans hc)
        have hleft := effect_of_apply hm ht
        rw [he, Except.ok.injEq] at hleft
        exact ⟨o, hleft ▸ ho⟩
      · exact hother _ ht name hc

end Change

end Schemata
