import Schemata.Proofs.Change.WellFormed
import Schemata.Proofs.Schema.Same

/-! Foreign keys and the models that they point at.

A schema is closed when every foreign key points at one of its models (`State.Closed`). A change brings
foreign keys in only with the fields that it writes (`introduced`), so a closed schema stays closed when
these point at models that are there afterwards and no model goes that another one points at
(`Keeps`). -/
namespace Schemata

/-- Whether a foreign key of the model points at the model of that name. -/
def Model.PointsAt (m : Model) (name : String) : Prop := ∃ key ∈ m.relations, key.2.model = name

/-- Every foreign key points at a model of the state. -/
def State.Closed (s : State) : Prop := ∀ m ∈ s.toList, ∀ name, m.PointsAt name → s.contains name = true

instance (s : State) : Decidable s.Closed :=
  decidable_of_iff (∀ m ∈ s.toList, ∀ key ∈ m.relations, s.contains key.2.model = true)
    ⟨fun h m hm _ ⟨key, hkey, he⟩ => he ▸ h m hm key hkey, fun h m hm key hkey =>
      h m hm key.2.model ⟨key, hkey, rfl⟩⟩

namespace Model
variable {m m' : Model} {target : String}

theorem pointsAt_iff :
    m.PointsAt target ↔
      ∃ k f r, m.field? k = some f ∧ f.relation? = some r ∧ r.model = target := by
  constructor
  · rintro ⟨key, hkey, rfl⟩
    obtain ⟨hf, hr⟩ := mem_relations.1 hkey
    obtain ⟨k, hk⟩ := Keyed.mem_values_iff.1 hf
    exact ⟨k, key.1, key.2, hk, hr, rfl⟩
  · rintro ⟨k, f, r, hk, hr, rfl⟩
    exact ⟨(f, r), mem_relations.2 ⟨Keyed.mem_values_iff.2 ⟨k, hk⟩, hr⟩, rfl⟩

/-- A model points where another one does whose fields have its relations. -/
theorem PointsAt.of_fields (h : m'.PointsAt target)
    (hfields : ∀ k f, m'.field? k = some f → ∃ k' f', m.field? k' = some f' ∧ f'.relation? = f.relation?) :
    m.PointsAt target := by
  obtain ⟨k, f, r, hk, hr, htarget⟩ := pointsAt_iff.1 h
  obtain ⟨k', f', hk', hsame⟩ := hfields k f hk
  exact pointsAt_iff.2 ⟨k', f', r, hk', hsame.trans hr, htarget⟩

theorem pointsAt_of_same (hsame : m.same m' = true) : m.PointsAt target ↔ m'.PointsAt target := by
  have hfield := (same_iff.1 hsame).2.1
  constructor
  · intro h
    refine h.of_fields fun k f hf => ?_
    have hk := hfield k
    rw [hf] at hk
    obtain ⟨f', hf', hrel⟩ := sameOption_some.1 hk
    exact ⟨k, f', hf', (Field.relation?_of_same hrel).symm⟩
  · intro h
    refine h.of_fields fun k f hf => ?_
    have hk := hfield k
    rw [hf] at hk
    cases hm : m.field? k with
    | none =>
      rw [hm] at hk
      cases hk
    | some f' =>
      rw [hm] at hk
      exact ⟨k, f', hm, Field.relation?_of_same hk⟩

end Model

namespace Change

/-- The foreign keys that the change brings in. -/
def introduced : Change → List Relation
  | .createModel _ fields => fields.filterMap Field.relation?
  | .addField _ field => field.relation?.toList
  | .changeField _ _ _ target => target.relation?.toList
  | _ => []

theorem mem_introduced_createModel {name : String} {fields : List Field} {r : Relation} :
    r ∈ (createModel name fields).introduced ↔ ∃ f ∈ fields, f.relation? = some r :=
  List.mem_filterMap

theorem mem_introduced_addField {name : String} {f : Field} {r : Relation} :
    r ∈ (addField name f).introduced ↔ f.relation? = some r :=
  Option.mem_toList

theorem mem_introduced_changeField {name field : String} {source f : Field} {r : Relation} :
    r ∈ (changeField name field source f).introduced ↔ f.relation? = some r :=
  Option.mem_toList

/-! ### Foreign keys after a change -/

theorem mem_introduced {c : Change} {f : Field} {r : Relation} (hf : f ∈ c.brought) (hr : f.relation? = some r) :
    r ∈ c.introduced := by
  cases c with
  | createModel => exact mem_introduced_createModel.2 ⟨f, hf, hr⟩
  | addField | changeField =>
    obtain rfl := List.mem_singleton.1 hf
    exact Option.mem_toList.2 hr
  | _ => cases hf

/-- A model that a change leaves points where it did or where the change makes it. -/
theorem pointsAt_of_effect {c : Change} {o : Option Model} {m' : Model} {target : String}
    (h : c.effect o = .ok (some m')) (hp : m'.PointsAt target) :
    (∃ m, o = some m ∧ m.PointsAt target) ∨ ∃ r ∈ c.introduced, r.model = target := by
  obtain ⟨k, f, r, hk, hr, htarget⟩ := Model.pointsAt_iff.1 hp
  rcases origin_of_turns (turns_of_effect h) hk with
    ⟨hin, -⟩ | ⟨m, rfl, hsame | ⟨-, source, g, -, hsource, rfl⟩⟩
  · exact .inr ⟨r, mem_introduced hin hr, htarget⟩
  · exact .inl ⟨m, rfl, Model.pointsAt_iff.2 ⟨k, f, r, hsame, hr, htarget⟩⟩
  · exact .inl ⟨m, rfl, Model.pointsAt_iff.2 ⟨source, g, r, hsource, hr, htarget⟩⟩

/-! ### Names that are there -/

theorem contains_of_effect {c : Change} {o o' : Option Model} (h : c.effect o = .ok o')
    (hdelete : ∀ name, c ≠ .deleteModel name) (ho : o.isSome = true) : o'.isSome = true := by
  cases turns_of_effect h with
  | deleteModel => exact absurd rfl (hdelete _)
  | runData => exact ho
  | _ => rfl

/-- A change that deletes no model leaves every name where it is. -/
theorem contains_of_apply {c : Change} {s s' : State} (h : c.apply s = .ok s')
    (hdelete : ∀ name, c ≠ .deleteModel name) {name : String} (hs : s.contains name = true) :
    s'.contains name = true := by
  by_cases hc : c.model? = some name
  · exact contains_of_effect (effect_of_apply hc h) hdelete hs
  · have hkept := model?_of_apply hc h
    rw [State.model?, State.model?] at hkept
    rw [Ascending.contains, hkept]
    exact hs

theorem contains_of_createModel {name : String} {fields : List Field} {s s' : State}
    (h : (createModel name fields).apply s = .ok s') : s'.contains name = true := by
  obtain ⟨o, o', -, hafter, ht⟩ := turns_of_apply rfl h
  cases ht
  exact Option.isSome_of_eq_some hafter

theorem contains_of_applyFrom {position : Nat} {cs : List Change} {s s' : State}
    (h : applyFrom position cs s = .ok s') (hdelete : ∀ name, deleteModel name ∉ cs) {name : String}
    (hname : s.contains name = true ∨ ∃ fields, createModel name fields ∈ cs) :
    s'.contains name = true := by
  induction cs generalizing position s with
  | nil =>
    cases h
    exact hname.resolve_right (by simp)
  | cons c rest ih =>
    obtain ⟨t, ht, hrest⟩ := applyFrom_cons_eq_ok_iff.1 h
    refine ih hrest (fun n hn => hdelete n (List.mem_cons_of_mem c hn)) ?_
    rcases hname with hs | ⟨fields, hin⟩
    · exact .inl (contains_of_apply ht (fun n hn => hdelete n (hn ▸ List.mem_cons_self ..)) hs)
    · rcases List.mem_cons.1 hin with rfl | hin
      · exact .inl (contains_of_createModel ht)
      · exact .inr ⟨fields, hin⟩

/-! ### Closed states -/

/-- What keeps a schema closed over a change from `s` to `s'`. -/
structure Keeps (c : Change) (s s' : State) : Prop where
  present : ∀ r ∈ c.introduced, s'.contains r.model = true
  free : ∀ name, c = .deleteModel name → ∀ m ∈ s.toList, m.name ≠ name → ¬ m.PointsAt name

theorem closed_of_apply {c : Change} {s s' : State} (h : c.apply s = .ok s') (hk : c.Keeps s s')
    (hs : s.Closed) : s'.Closed := by
  intro m' hm' target hp
  have hm'n := Ascending.find?_of_mem hm'
  -- where the foreign key was before, if the change did not bring it in
  have hback : (∃ m ∈ s.toList, m.name = m'.name ∧ m.PointsAt target) ∨
      ∃ r ∈ c.introduced, r.model = target := by
    by_cases hc : c.model? = some m'.name
    · have he := effect_of_apply hc h
      rw [show s'.model? m'.name = _ from hm'n] at he
      rcases pointsAt_of_effect he hp with ⟨m, hm, hp⟩ | hnew
      · obtain ⟨hmem, hname⟩ := Ascending.find?_eq_some_iff.1 hm
        exact .inl ⟨m, hmem, hname, hp⟩
      · exact .inr hnew
    · have hm : s.model? m'.name = some m' := (model?_of_apply hc h).symm.trans hm'n
      exact .inl ⟨m', State.mem_of_model? hm, rfl, hp⟩
  rcases hback with ⟨m, hm, hname, hp⟩ | ⟨r, hr, rfl⟩
  · by_cases hdelete : ∃ name, c = .deleteModel name
    · obtain ⟨name, rfl⟩ := hdelete
      rw [apply, State.deleteModel] at h
      split at h
      · cases h
        have hmodel : Ascending.find? (s.erase name) m'.name = some m' := hm'n
        rw [Ascending.find?_erase] at hmodel
        split at hmodel
        · cases hmodel
        · rename_i hne
          have hfree := hk.free name rfl m hm fun he => hne (he.symm.trans hname)
          refine Ascending.contains_erase.2 ⟨?_, hs m hm target hp⟩
          rintro rfl
          exact hfree hp
      · cases h
    · exact contains_of_apply h (fun name he => hdelete ⟨name, he⟩) (hs m hm target hp)
  · exact hk.present r hr

/-- A closed schema stays closed through changes that each keep it so. -/
theorem closed_of_applyFrom {position : Nat} {cs : List Change} {s s' : State}
    (h : applyFrom position cs s = .ok s')
    (hk : ∀ done c rest t t', cs = done ++ c :: rest → applyFrom position done s = .ok t →
      c.apply t = .ok t' → c.Keeps t t') (hs : s.Closed) : s'.Closed := by
  induction cs generalizing position s with
  | nil =>
    cases h
    exact hs
  | cons c rest ih =>
    obtain ⟨t, ht, hrest⟩ := applyFrom_cons_eq_ok_iff.1 h
    refine ih hrest (fun done c' rest' u u' hsplit hu => ?_)
      (closed_of_apply ht (hk [] c rest s t rfl rfl ht) hs)
    refine hk (c :: done) c' rest' u u' (by rw [hsplit]; rfl) ?_
    exact applyFrom_cons_eq_ok_iff.2 ⟨t, ht, hu⟩

end Change

end Schemata
