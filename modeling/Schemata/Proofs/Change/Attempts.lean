import Schemata.Proofs.Change.WellFormed

/-! Changes tried in place, one after the other.

`Change.apply` gives a new state or a conflict, and so cannot leave anything half done. Here the same
changes are programs that write to a table as they go (`Change.perform`). Most of them look before they
write; deleting a model, adding an index and removing one write first and ask afterwards whether that
made a difference. In a table a model stands under a key that need not be the model's name. So it is to be
proved that a program that fails leaves its table as it was (`table_of_perform_error`), that the
programs and the functions agree (`perform_table`), and that a model stands under its own name. -/
namespace Schemata

/-- What a program leaves, whether it ends or fails. -/
def left {ε σ α : Type} : EStateM.Result ε σ α → σ
  | .ok _ s => s
  | .error _ s => s

/-! ### Programs on a model -/

namespace Model

/-- A program on one model. When it fails it may have changed the model all the same. -/
abbrev Edit := EStateM Conflict Model Unit

namespace Edit

/-- `name` is what a conflict calls the model. -/
def addField (name : String) (f : Field) : Edit := do
  let m ← get
  if m.fields.contains f.name then throw (.fieldExists name f.name)
  set { m with fields := m.fields.put f.name f }

def removeField (name field : String) : Edit := do
  let m ← get
  if !m.fields.contains field then throw (.noFieldToRemove name field)
  if let some i := m.indexes.toList.find? (·.references field) then
    throw (.fieldIndexed name field i)
  set { m with fields := m.fields.erase field }

def changeField (name field : String) (source target : Field) : Edit := do
  let m ← get
  let some current := m.field? field | throw (.noFieldToChange name field)
  if !current.same source then throw (.otherBaseline name field)
  set { m with fields := m.fields.revise field fun _ => target }

def renameField (name source target : String) : Edit := do
  let m ← get
  if m.fields.contains target then throw (.targetExists name source target)
  if !m.fields.contains source then throw (.noFieldToRename name source)
  modify fun m => { m with fields := m.fields.rekey source target (·.rename target) }
  modify fun m =>
    { m with indexes := .ofList (m.indexes.toList.map (·.renameField source target)) }

/-- The index is put in, and whether it was there before is seen from the set as it was. -/
def addIndex (name : String) (i : Index) : Edit := do
  let m ← get
  if let some missing := i.fields.find? (!m.fields.contains ·) then
    throw (.unknownIndexField name missing)
  set { m with indexes := m.indexes.insert i }
  if m.indexes.contains i then throw (.indexExists name i)

def removeIndex (name : String) (i : Index) : Edit := do
  let m ← get
  set { m with indexes := m.indexes.erase i }
  if !m.indexes.contains i then throw (.noIndexToRemove name i)

end Edit

/-- The run of a program on `m`, a model that conflicts call `name`, comes to what `r` says: it ends
with the model of `r`, or it fails on an unchanged `m`, and with the conflict of `r` if that is the
model's name. -/
def ComesTo (name : String) (m : Model) :
    EStateM.Result Conflict Model Unit → Except Conflict Model → Prop
  | .ok _ m', r => r = .ok m'
  | .error conflict m', r => m' = m ∧ ∃ conflict', r = .error conflict' ∧
      (m.name = name → conflict = conflict')

variable {m : Model} {name : String}

theorem comesTo_ok {m' : Model} : ComesTo name m (.ok () m') (.ok m') := rfl

theorem comesTo_error (conflict : String → Conflict) :
    ComesTo name m (.error (conflict name) m) (.error (conflict m.name)) :=
  ⟨rfl, _, rfl, fun h => by rw [h]⟩

theorem insert_of_contains {i : Index} {indexes : Indexes} (h : indexes.contains i = true) :
    indexes.insert i = indexes :=
  Ascending.ext_contains fun k => by
    rw [Ascending.contains_insert]
    exact ⟨fun hk => hk.elim (fun he => he ▸ h) id, .inr⟩

theorem erase_of_not_contains {i : Index} {indexes : Indexes} (h : indexes.contains i = false) :
    indexes.erase i = indexes :=
  Ascending.ext_contains fun k => by
    rw [Ascending.contains_erase]
    refine ⟨And.right, fun hk => ⟨?_, hk⟩⟩
    rintro rfl
    rw [h] at hk
    cases hk

namespace Edit

theorem addField_comesTo (f : Field) :
    ComesTo name m ((addField name f).run m) (m.addField f) := by
  cases h : m.fields.contains f.name with
  | true => simpa [addField, Model.addField, h] using comesTo_error (.fieldExists · f.name)
  | false => simpa [addField, Model.addField, h] using comesTo_ok

theorem removeField_comesTo (field : String) :
    ComesTo name m ((removeField name field).run m) (m.removeField field) := by
  cases h : m.fields.contains field with
  | false => simpa [removeField, Model.removeField, h] using comesTo_error (.noFieldToRemove · field)
  | true =>
    cases hi : m.indexes.toList.find? (·.references field) with
    | some i =>
      simpa [removeField, Model.removeField, h, hi] using comesTo_error (.fieldIndexed · field i)
    | none => simpa [removeField, Model.removeField, h, hi] using comesTo_ok

theorem changeField_comesTo (field : String) (source target : Field) :
    ComesTo name m ((changeField name field source target).run m)
      (m.changeField field source target) := by
  cases h : m.field? field with
  | none => simpa [changeField, Model.changeField, h] using comesTo_error (.noFieldToChange · field)
  | some current =>
    cases hs : current.same source with
    | false =>
      simpa [changeField, Model.changeField, h, hs] using comesTo_error (.otherBaseline · field)
    | true => simpa [changeField, Model.changeField, h, hs] using comesTo_ok

theorem renameField_comesTo (source target : String) :
    ComesTo name m ((renameField name source target).run m) (m.renameField source target) := by
  cases ht : m.fields.contains target with
  | true =>
    simpa [renameField, Model.renameField, ht] using comesTo_error (.targetExists · source target)
  | false =>
    cases hs : m.fields.contains source with
    | false =>
      simpa [renameField, Model.renameField, ht, hs] using
        comesTo_error (.noFieldToRename · source)
    | true => simpa [renameField, Model.renameField, ht, hs] using comesTo_ok

theorem addIndex_comesTo (i : Index) :
    ComesTo name m ((addIndex name i).run m) (m.addIndex i) := by
  cases hf : i.fields.find? (!m.fields.contains ·) with
  | some missing =>
    simpa [addIndex, Model.addIndex, hf] using comesTo_error (.unknownIndexField · missing)
  | none =>
    cases h : m.indexes.contains i with
    | true =>
      simpa [addIndex, Model.addIndex, hf, h, insert_of_contains h] using
        comesTo_error (.indexExists · i)
    | false => simpa [addIndex, Model.addIndex, hf, h] using comesTo_ok

theorem removeIndex_comesTo (i : Index) :
    ComesTo name m ((removeIndex name i).run m) (m.removeIndex i) := by
  cases h : m.indexes.contains i with
  | true => simpa [removeIndex, Model.removeIndex, h] using comesTo_ok
  | false =>
    simpa [removeIndex, Model.removeIndex, h, erase_of_not_contains h] using
      comesTo_error (.noIndexToRemove · i)

end Edit
end Model

/-! ### Programs on a table -/

/-- Models under keys, in the order of the keys. -/
abbrev ModelTable := Ascending (Prod.fst : String × Model → String)

namespace ModelTable

/-- The program on the model under that key. What is left of the model is in the table afterwards, also
when the program fails. -/
def within (key : String) (edit : Model.Edit) : EStateM Conflict ModelTable Unit := do
  let t ← get
  let some entry := t.find? key | throw (.noModel key)
  match edit.run entry.2 with
  | .ok _ m => set (t.insert (key, m))
  | .error conflict m =>
    set (t.insert (key, m))
    throw conflict

end ModelTable

namespace Change

/-- The change as a program. -/
def perform : Change → EStateM Conflict ModelTable Unit
  | .createModel name fields => do
    let t ← get
    if t.contains name then throw (.modelExists name)
    let m := Model.ofFields name fields
    if m.fields.size ≠ fields.length then throw (.duplicateFields name)
    set (t.insert (m.name, m))
  | .deleteModel name => do
    let t ← get
    set (t.erase name)
    if !t.contains name then throw (.noModelToDelete name)
  | .addField model field => ModelTable.within model (.addField model field)
  | .removeField model field => ModelTable.within model (.removeField model field.name)
  | .changeField model field source target => do
    if target.name ≠ field then throw (.renamedByChange model field target.name)
    ModelTable.within model (.changeField model field source target)
  | .renameField model source target => ModelTable.within model (.renameField model source target)
  | .addIndex model index => ModelTable.within model (.addIndex model index)
  | .removeIndex model index => ModelTable.within model (.removeIndex model index)
  | .runData _ _ => pure ()

end Change

/-! ### A program that fails -/

namespace ModelTable
variable {t t' : ModelTable} {key : String} {edit : Model.Edit} {conflict : Conflict} {m m' : Model}

theorem within_of_none (h : t.find? key = none) :
    (within key edit).run t = .error (.noModel key) t := by
  simp [within, h]

theorem within_of_ok (h : t.find? key = some (key, m)) (hrun : edit.run m = .ok () m') :
    (within key edit).run t = .ok () (t.insert (key, m')) := by
  simp [within, h, hrun]

theorem within_of_error (h : t.find? key = some (key, m))
    (hrun : edit.run m = .error conflict m') :
    (within key edit).run t = .error conflict (t.insert (key, m')) := by
  simp [within, h, hrun]

theorem insert_of_find? (h : t.find? key = some (key, m)) : t.insert (key, m) = t :=
  Ascending.ext_find? fun k => by
    rw [Ascending.find?_insert]
    split
    · rename_i hk
      rw [← hk, h]
    · rfl

theorem erase_of_not_contains (h : t.contains key = false) : t.erase key = t :=
  Ascending.ext_find? fun k => by
    rw [Ascending.find?_erase]
    split
    · rename_i hk
      rw [Ascending.contains, Option.isSome_eq_false_iff, Option.isNone_iff_eq_none, hk] at h
      exact h.symm
    · rfl

/-- A program on a model that leaves the model as it was when it fails leaves the table as it was. -/
theorem of_within_error {f : Model → Except Conflict Model}
    (hedit : ∀ m : Model, m.ComesTo key (edit.run m) (f m))
    (h : (within key edit).run t = .error conflict t') : t' = t := by
  cases hfind : t.find? key with
  | none =>
    rw [within_of_none hfind] at h
    cases h
    rfl
  | some entry =>
    obtain ⟨k, m⟩ := entry
    obtain rfl : k = key := Ascending.key_of_find? hfind
    have hm := hedit m
    cases hrun : edit.run m with
    | ok u m' =>
      rw [within_of_ok hfind hrun] at h
      cases h
    | error e m' =>
      rw [hrun] at hm
      obtain ⟨rfl, -⟩ := hm
      rw [within_of_error hfind hrun, insert_of_find? hfind] at h
      cases h
      rfl

end ModelTable

/-- A change that fails leaves the whole table as it was, also where it writes before it asks. -/
theorem Change.table_of_perform_error {c : Change} {t t' : ModelTable} {conflict : Conflict}
    (h : c.perform.run t = .error conflict t') : t' = t := by
  cases c with
  | createModel name fields =>
    cases ht : t.contains name with
    | true => exact (by simpa [perform, ht] using h : _ ∧ t = t').2.symm
    | false =>
      by_cases hd : (Model.ofFields name fields).fields.size = fields.length
      · simp [perform, ht, hd] at h
      · exact (by simpa [perform, ht, hd] using h : _ ∧ t = t').2.symm
  | deleteModel name =>
    cases ht : t.contains name with
    | true => simp [perform, ht] at h
    | false =>
      exact (by simpa [perform, ht, ModelTable.erase_of_not_contains ht] using h : _ ∧ t = t').2.symm
  | addField model field => exact ModelTable.of_within_error (fun _ => Model.Edit.addField_comesTo _) h
  | removeField model field =>
    exact ModelTable.of_within_error (fun _ => Model.Edit.removeField_comesTo _) h
  | changeField model field source target =>
    by_cases hname : target.name = field
    · rw [perform, if_neg (not_not_intro hname)] at h
      exact ModelTable.of_within_error (fun _ => Model.Edit.changeField_comesTo _ _ _) h
    · exact (by simpa [perform, hname] using h : _ ∧ t = t').2.symm
  | renameField model source target =>
    exact ModelTable.of_within_error (fun _ => Model.Edit.renameField_comesTo _ _) h
  | addIndex model index => exact ModelTable.of_within_error (fun _ => Model.Edit.addIndex_comesTo _) h
  | removeIndex model index =>
    exact ModelTable.of_within_error (fun _ => Model.Edit.removeIndex_comesTo _) h
  | runData => cases h

/-! ### The programs and the functions -/

namespace State

/-- The models of a state, each under its name. -/
def table (s : State) : ModelTable :=
  ⟨s.toList.map fun m => (m.name, m), List.pairwise_map.2 s.ascending⟩

theorem mem_table {s : State} {name : String} {m : Model} :
    (name, m) ∈ s.table.toList ↔ s.model? name = some m := by
  rw [model?, Ascending.find?_eq_some_iff, table, List.mem_map]
  constructor
  · rintro ⟨m, hm, he⟩
    cases he
    exact ⟨hm, rfl⟩
  · rintro ⟨hm, rfl⟩
    exact ⟨m, hm, rfl⟩

theorem find?_table (s : State) (name : String) :
    s.table.find? name = (s.model? name).map (name, ·) :=
  Option.ext fun entry => by
    rw [Ascending.find?_eq_some_iff, Option.map_eq_some_iff]
    constructor
    · rintro ⟨h, rfl⟩
      exact ⟨entry.2, mem_table.1 h, rfl⟩
    · rintro ⟨m, hm, rfl⟩
      exact ⟨mem_table.2 hm, rfl⟩

theorem contains_table (s : State) (name : String) : s.table.contains name = s.contains name := by
  rw [Ascending.contains, find?_table, Option.isSome_map]
  rfl

theorem table_insert (s : State) (m : Model) : table (s.insert m) = s.table.insert (m.name, m) :=
  Ascending.ext_find? fun k => by
    rw [Ascending.find?_insert, find?_table, find?_table, model?, Ascending.find?_insert]
    split
    · rename_i hk
      rw [← hk]
      rfl
    · rfl

theorem table_erase (s : State) (name : String) : table (s.erase name) = s.table.erase name :=
  Ascending.ext_find? fun k => by
    rw [Ascending.find?_erase, find?_table, find?_table, model?, Ascending.find?_erase]
    split <;> rfl

/-- How a program ends on the table of `s` if the function comes to that result. -/
def ended (s : State) : Except Conflict State → EStateM.Result Conflict ModelTable Unit
  | .ok s' => .ok () s'.table
  | .error conflict => .error conflict s.table

theorem within_table {name : String} {edit : Model.Edit} {f : Model → Except Conflict Model}
    (hedit : ∀ m : Model, m.ComesTo name (edit.run m) (f m))
    (hname : ∀ m m', f m = .ok m' → m'.name = m.name) (s : State) :
    (ModelTable.within name edit).run s.table = s.ended (s.onModel name f) := by
  cases hs : s.model? name with
  | none =>
    rw [onModel, hs, ModelTable.within_of_none (by rw [find?_table, hs]; rfl)]
    rfl
  | some m =>
    obtain rfl := name_of_model? hs
    have hfind : s.table.find? m.name = some (m.name, m) := by rw [find?_table, hs]; rfl
    have hm := hedit m
    rw [onModel, hs]
    cases hrun : edit.run m with
    | ok u m' =>
      rw [hrun] at hm
      have hf : f m = .ok m' := hm
      rw [ModelTable.within_of_ok hfind hrun, ← hname m m' hf, ← table_insert]
      simp only [hf]
      rfl
    | error conflict m' =>
      rw [hrun] at hm
      obtain ⟨rfl, conflict', hf, he⟩ := hm
      rw [ModelTable.within_of_error hfind hrun, ModelTable.insert_of_find? hfind, he rfl]
      simp only [hf]
      rfl

end State

/-- On the table of a state a change as a program does what the change as a function says. -/
theorem Change.perform_table (c : Change) (s : State) :
    c.perform.run s.table = s.ended (c.apply s) := by
  cases c with
  | createModel name fields =>
    rw [apply, State.createModel]
    cases hs : s.contains name with
    | true => simp [perform, State.contains_table, hs, State.ended]
    | false =>
      by_cases hd : (Model.ofFields name fields).fields.size = fields.length
      · simp [perform, State.contains_table, hs, hd, State.ended, State.table_insert]
      · simp [perform, State.contains_table, hs, hd, State.ended]
  | deleteModel name =>
    rw [apply, State.deleteModel]
    cases hs : s.contains name with
    | true => simp [perform, State.contains_table, hs, State.ended, State.table_erase]
    | false =>
      have ht : s.table.contains name = false := (s.contains_table name).trans hs
      simp [perform, ht, State.ended, ModelTable.erase_of_not_contains ht]
  | addField model field =>
    exact s.within_table (fun _ => Model.Edit.addField_comesTo _) fun _ _ => Model.addField_name
  | removeField model field =>
    exact s.within_table (fun _ => Model.Edit.removeField_comesTo _) fun _ _ =>
      Model.removeField_name
  | changeField model field source target =>
    by_cases hname : target.name = field
    · rw [perform, if_neg (not_not_intro hname), apply, if_pos hname]
      exact s.within_table (fun _ => Model.Edit.changeField_comesTo _ _ _) fun _ _ =>
        Model.changeField_name
    · rw [apply, if_neg hname]
      simp [perform, hname, State.ended]
  | renameField model source target =>
    exact s.within_table (fun _ => Model.Edit.renameField_comesTo _ _) fun _ _ =>
      Model.renameField_name
  | addIndex model index =>
    exact s.within_table (fun _ => Model.Edit.addIndex_comesTo _) fun _ _ => Model.addIndex_name
  | removeIndex model index =>
    exact s.within_table (fun _ => Model.Edit.removeIndex_comesTo _) fun _ _ =>
      Model.removeIndex_name
  | runData => rfl

/-! ### Changes tried in a row -/

/-- The state after the changes were tried one after the other, those that conflict left out. -/
def State.afterTrying (changes : List Change) (s : State) : State :=
  changes.foldl (fun s c => (c.apply s).toOption.getD s) s

/-- What the table has become when the changes were performed one after the other, each on what the one
before left, whether that ended or failed. -/
def ModelTable.afterTrying (changes : List Change) (t : ModelTable) : ModelTable :=
  changes.foldl (fun t c => left (c.perform.run t)) t

theorem ModelTable.afterTrying_table (changes : List Change) (s : State) :
    ModelTable.afterTrying changes s.table = (s.afterTrying changes).table := by
  induction changes generalizing s with
  | nil => rfl
  | cons c rest ih =>
    have hc : left (c.perform.run s.table) = ((c.apply s).toOption.getD s).table := by
      rw [Change.perform_table]
      cases c.apply s <;> rfl
    rw [ModelTable.afterTrying, List.foldl_cons, hc]
    exact ih _

/-- What trying changes leads to, a history of some of them leads to without a conflict. -/
theorem State.exists_applyAll_of_afterTrying (changes : List Change) (s : State) :
    ∃ applied, applied.Sublist changes ∧
      Change.applyAll applied s = .ok (s.afterTrying changes) := by
  induction changes generalizing s with
  | nil => exact ⟨[], .slnil, rfl⟩
  | cons c rest ih =>
    cases hc : c.apply s with
    | error conflict =>
      obtain ⟨applied, hsub, h⟩ := ih s
      refine ⟨applied, hsub.cons c, ?_⟩
      rw [State.afterTrying, List.foldl_cons, hc]
      exact h
    | ok t =>
      obtain ⟨applied, hsub, h⟩ := ih t
      refine ⟨c :: applied, hsub.cons_cons c, ?_⟩
      rw [State.afterTrying, List.foldl_cons, hc]
      exact Change.applyAll_cons_eq_ok_iff.2 ⟨t, hc, h⟩

theorem State.reachable_afterTrying (changes : List Change) :
    State.Reachable (State.afterTrying changes Ascending.empty) := by
  obtain ⟨applied, -, h⟩ := State.exists_applyAll_of_afterTrying changes Ascending.empty
  exact ⟨applied, h⟩

/-- **What holds of every table that changes made in place.** Whatever changes are tried one after the
other from the empty table, the table is that of the state which the functions lead to, every model
stands under its own name, every field of it under its own name and once, and it has the fields of all
its indexes. And a change that fails, on this or any other table, leaves the table as it was. -/
theorem ModelTable.afterTrying_sound (changes : List Change) :
    ModelTable.afterTrying changes Ascending.empty =
        State.table (State.afterTrying changes Ascending.empty) ∧
      (∀ key m, (key, m) ∈ (ModelTable.afterTrying changes Ascending.empty).toList →
        m.name = key ∧
        (∀ k f, (k, f) ∈ m.fields.entries → f.name = k) ∧
        (m.fields.values.map Field.name).Nodup ∧
        ∀ i ∈ m.indexes.toList, ∀ k ∈ i.fields, ∃ f ∈ m.fields.values, f.name = k) ∧
      ∀ (c : Change) (t t' : ModelTable) (conflict : Conflict),
        c.perform.run t = .error conflict t' → t' = t := by
  have htable : ModelTable.afterTrying changes Ascending.empty =
      State.table (State.afterTrying changes Ascending.empty) :=
    ModelTable.afterTrying_table changes Ascending.empty
  refine ⟨htable, fun key m hm => ?_, fun c t t' conflict => Change.table_of_perform_error⟩
  rw [htable, State.mem_table] at hm
  have hwell : m.WellFormed :=
    State.wellFormed_iff.1 (State.reachable_afterTrying changes).wellFormed key m hm
  refine ⟨State.name_of_model? hm, fun k f hf => hwell.named k f (Keyed.get?_eq_some_iff.2 hf),
    hwell.nodup_names, fun i hi k hk => ?_⟩
  obtain ⟨f, hf⟩ := Option.isSome_iff_exists.1 (hwell.indexed i hi k hk)
  exact ⟨f, Keyed.mem_values_iff.2 ⟨k, hf⟩, hwell.named k f hf⟩

end Schemata
