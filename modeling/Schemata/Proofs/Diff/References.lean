import Schemata.Proofs.Change.References
import Schemata.Proofs.Diff.RoundTrip

/-! Foreign keys while a difference is carried out.

The changes come in three rows: models are created, models are changed, models are deleted. In the first
row a foreign key waits for its target (`Creation.Waits`), in the second all models of both sides are
there, and in the third the models that are left have lost their foreign keys to those that go
(`Deletion.Settled`). So no state on the way has a foreign key to a missing model. -/
namespace Schemata

namespace Diff
open Change

/-! ### Three rows of changes -/

/-- The changes that create models. -/
def creations (d : Diff) : List Change := d.createdModels.map fun c => .createModel c.model c.item

/-- The changes within models. -/
def alterations (d : Diff) : List Change :=
  d.removedIndexes.map (fun c => .removeIndex c.model c.item) ++
  d.renamedFields.map (fun c => .renameField c.model c.item.source c.item.target) ++
  d.changedFields.map (fun c => .changeField c.model c.item.field c.item.source c.item.target) ++
  d.addedFields.map (fun c => .addField c.model c.item) ++
  d.addedIndexes.map (fun c => .addIndex c.model c.item) ++
  d.removedFields.map (fun c => .removeField c.model c.item)

/-- The changes that delete models. -/
def deletions (d : Diff) : List Change := d.deletedModels.map .deleteModel

theorem changes_eq (d : Diff) : d.changes = d.creations ++ (d.alterations ++ d.deletions) := by
  simp [changes, creations, alterations, deletions]

theorem deleteModel_not_mem_creations (d : Diff) (name : String) : deleteModel name ∉ d.creations := by
  simp [creations]

theorem deleteModel_not_mem_alterations (d : Diff) (name : String) :
    deleteModel name ∉ d.alterations := by
  simp [alterations]

theorem introduced_of_mem_deletions {d : Diff} {c : Change} (h : c ∈ d.deletions) :
    c.introduced = [] := by
  obtain ⟨name, -, rfl⟩ := List.mem_map.1 h
  rfl

section Joined
variable {α β : Type} {part : α → Diff} {get : Diff → List β}

theorem get_foldl (happend : ∀ a b, get (a ++ b) = get a ++ get b) (l : List α) (d : Diff) :
    get (l.foldl (fun d a => d ++ part a) d) = get d ++ l.flatMap fun a => get (part a) := by
  induction l generalizing d with
  | nil => simp
  | cons a rest ih => rw [List.foldl_cons, ih, happend, List.append_assoc, List.flatMap_cons]

end Joined

section States
variable {baseline live : State}

theorem creations_ofStates :
    (ofStates baseline live).creations = (Creation.order (createdModelsOf baseline live)).map
      fun step => .createModel step.1.name (Creation.early step.1 step.2) := by
  have hcreate : (Creation.diff (createdModelsOf baseline live)).createdModels =
      (Creation.order (createdModelsOf baseline live)).map
        fun step => ⟨step.1.name, Creation.early step.1 step.2⟩ := by
    refine (get_foldl (fun _ _ => rfl) _ empty).trans ?_
    rw [List.map_eq_flatMap]
    rfl
  have hkept : ((keptModelsOf baseline live).foldl (fun d p => d ++ Revision.diff p.1 p.2)
      empty).createdModels = [] := by
    refine (get_foldl (fun _ _ => rfl) _ empty).trans ?_
    simp [Revision.diff, empty]
  have hall : (ofStates baseline live).createdModels =
      (Creation.diff (createdModelsOf baseline live)).createdModels ++
        ((keptModelsOf baseline live).foldl (fun d p => d ++ Revision.diff p.1 p.2)
          empty).createdModels ++ [] := rfl
  rw [creations, hall, hcreate, hkept, List.append_nil, List.append_nil, List.map_map]
  rfl

theorem deletions_ofStates :
    (ofStates baseline live).deletions =
      (Deletion.names (deletedModelsOf baseline live)).map .deleteModel := by
  have hcreate : (Creation.diff (createdModelsOf baseline live)).deletedModels = [] := by
    refine (get_foldl (fun _ _ => rfl) _ empty).trans ?_
    simp [Creation.create, empty]
  have hkept : ((keptModelsOf baseline live).foldl (fun d p => d ++ Revision.diff p.1 p.2)
      empty).deletedModels = [] := by
    refine (get_foldl (fun _ _ => rfl) _ empty).trans ?_
    simp [Revision.diff, empty]
  have hall : (ofStates baseline live).deletedModels =
      (Creation.diff (createdModelsOf baseline live)).deletedModels ++
        ((keptModelsOf baseline live).foldl (fun d p => d ++ Revision.diff p.1 p.2)
          empty).deletedModels ++ Deletion.names (deletedModelsOf baseline live) := rfl
  rw [deletions, hall, hcreate, hkept]
  rfl

/-! ### The foreign keys of a difference -/

/-- The creation of a model brings in foreign keys of the model only. -/
theorem pointsAt_of_create {m : Model} {waiting : List String} {c : Change}
    (hc : c ∈ (Creation.create m waiting).changes) {r : Relation} (hr : r ∈ c.introduced) :
    m.PointsAt r.model := by
  have hfield : ∃ f ∈ m.fields.values, f.relation? = some r := by
    rw [Creation.changes_create, List.mem_cons, List.mem_append] at hc
    rcases hc with rfl | hc | hc
    · obtain ⟨f, hf, hrel⟩ := mem_introduced_createModel.1 hr
      exact ⟨f, (List.mem_filter.1 hf).1, hrel⟩
    · obtain ⟨f, hf, rfl⟩ := List.mem_map.1 hc
      exact ⟨f, (List.mem_filter.1 hf).1, mem_introduced_addField.1 hr⟩
    · obtain ⟨i, -, rfl⟩ := List.mem_map.1 hc
      cases hr
  obtain ⟨f, hf, hrel⟩ := hfield
  exact ⟨(f, r), Model.mem_relations.2 ⟨hf, hrel⟩, rfl⟩

/-- The revision of a model brings in foreign keys of the new model only. -/
theorem pointsAt_of_revision {old new : Model} {c : Change}
    (hc : c ∈ (Revision.diff old new).changes) {r : Relation} (hr : r ∈ c.introduced) :
    new.PointsAt r.model := by
  have hfield : ∃ f ∈ new.fields.values, f.relation? = some r := by
    rw [Revision.changes_diff] at hc
    simp only [List.mem_append, List.mem_map] at hc
    rcases hc with ((((⟨i, -, rfl⟩ | ⟨x, -, rfl⟩) | ⟨x, hx, rfl⟩) | ⟨f, hf, rfl⟩) | ⟨i, -, rfl⟩) |
      ⟨f, -, rfl⟩
    · cases hr
    · cases hr
    · have htarget := (Revision.mem_changedFields.1 hx).2.1
      exact ⟨x.target, Keyed.mem_values_iff.2 ⟨_, htarget⟩, mem_introduced_changeField.1 hr⟩
    · rw [Revision.lostFields] at hf
      split at hf
      · cases hf
      · exact ⟨f, (List.mem_filter.1 hf).1, mem_introduced_addField.1 hr⟩
    · cases hr
    · cases hr
  obtain ⟨f, hf, hrel⟩ := hfield
  exact ⟨(f, r), Model.mem_relations.2 ⟨hf, hrel⟩, rfl⟩

/-- The foreign keys that a difference brings in are those of live models. -/
theorem pointsAt_of_introduced {c : Change} (hc : c ∈ (ofStates baseline live).changes)
    {r : Relation} (hr : r ∈ c.introduced) : ∃ m ∈ live.toList, m.PointsAt r.model := by
  cases hm : c.model? with
  | none =>
    cases c with
    | runData => cases hr
    | _ => cases hm
  | some n =>
    cases origin_of_mem hm hc with
    | created m waiting _ new _ mem =>
      exact ⟨m, State.mem_of_model? new, pointsAt_of_create mem hr⟩
    | kept _ new _ hnew mem =>
      exact ⟨new, State.mem_of_model? hnew, pointsAt_of_revision mem hr⟩
    | deleted m old new mem => rcases mem with ⟨i, rfl⟩ | ⟨f, -, rfl⟩ | rfl <;> cases hr

/-! ### Where a change stands -/

theorem split_append {a b done rest : List Change} {c : Change} (h : a ++ b = done ++ c :: rest) :
    (∃ later, a = done ++ c :: later) ∨ ∃ front, done = a ++ front ∧ b = front ++ c :: rest := by
  rcases List.append_eq_append_iff.1 h with ⟨front, hdone, hb⟩ | ⟨back, ha, hrest⟩
  · exact .inr ⟨front, hdone, hb⟩
  · cases back with
    | nil => exact .inr ⟨[], by simpa using ha.symm, hrest.symm⟩
    | cons x back =>
      obtain ⟨rfl, -⟩ := List.cons.inj hrest
      exact .inl ⟨back, ha⟩

/-- A change stands in the first row, in the second, or in the third. -/
theorem rows_of_split {d : Diff} {done rest : List Change} {c : Change}
    (h : d.changes = done ++ c :: rest) :
    (∃ later, d.creations = done ++ c :: later) ∨
    (∃ front later, done = d.creations ++ front ∧ d.alterations = front ++ c :: later) ∨
    (∃ gone, done = d.creations ++ (d.alterations ++ gone) ∧ d.deletions = gone ++ c :: rest) := by
  rw [changes_eq] at h
  rcases split_append h with hcreate | ⟨front, hdone, hback⟩
  · exact .inl hcreate
  · rcases split_append hback with ⟨later, halter⟩ | ⟨gone, hfront, hdelete⟩
    · exact .inr (.inl ⟨front, later, hdone, halter⟩)
    · exact .inr (.inr ⟨gone, by rw [hdone, hfront], hdelete⟩)

/-- Before a model is created, the models before it in the order of creation were created and nothing else
was done. -/
theorem order_of_split {done rest : List Change} {n : String} {fields : List Field}
    (hsplit : (ofStates baseline live).changes = done ++ .createModel n fields :: rest) :
    ∃ before m waiting behind,
      Creation.order (createdModelsOf baseline live) = before ++ (m, waiting) :: behind ∧
      done = before.map (fun step => .createModel step.1.name (Creation.early step.1 step.2)) ∧
      n = m.name ∧ fields = Creation.early m waiting := by
  rcases rows_of_split hsplit with ⟨later, hcreate⟩ | ⟨front, later, -, halter⟩ | ⟨gone, -, hdelete⟩
  · rw [creations_ofStates] at hcreate
    obtain ⟨before, after, horder, rfl, hafter⟩ := List.map_eq_append_iff.1 hcreate
    obtain ⟨⟨m, waiting⟩, behind, rfl, he, -⟩ := List.map_eq_cons_iff.1 hafter
    obtain ⟨rfl, rfl⟩ := Change.createModel.inj he
    exact ⟨before, m, waiting, behind, horder, rfl, rfl, rfl⟩
  · have hin : Change.createModel n fields ∈ (ofStates baseline live).alterations := by
      rw [halter]
      exact List.mem_append_cons_self
    simp [alterations] at hin
  · have hin : Change.createModel n fields ∈ (ofStates baseline live).deletions := by
      rw [hdelete]
      exact List.mem_append_cons_self
    simp [deletions] at hin

/-! ### Foreign keys that are brought in -/

theorem mem_order_of_live {target : String} (hl : live.contains target = true)
    (hb : baseline.contains target = false) :
    ∃ step ∈ Creation.order (createdModelsOf baseline live), step.1.name = target := by
  have hold : baseline.model? target = none :=
    Option.isNone_iff_eq_none.1 (Option.isSome_eq_false_iff.1 hb)
  obtain ⟨m, hm, rfl⟩ := List.mem_map.1 (mem_createdNames.2 ⟨hl, hold⟩)
  obtain ⟨step, hstep, rfl⟩ := List.mem_map.1 ((Creation.order_perm nodup_created).symm.subset hm)
  exact ⟨step, hstep, rfl⟩

theorem present_of_creation {done later : List Change} {c : Change} {s s' : State}
    (hsplit : (ofStates baseline live).creations = done ++ c :: later)
    (hs : applyAll done baseline = .ok s) (hc : c.apply s = .ok s') {r : Relation}
    (hr : r ∈ c.introduced) (hlive : live.contains r.model = true) :
    s'.contains r.model = true := by
  have hdelete : ∀ name, deleteModel name ∉ done := fun name hin =>
    deleteModel_not_mem_creations (ofStates baseline live) name
      (hsplit ▸ List.mem_append_left _ hin)
  rw [creations_ofStates] at hsplit
  obtain ⟨before, after, horder, rfl, hafter⟩ := List.map_eq_append_iff.1 hsplit
  obtain ⟨⟨m, waiting⟩, behind, rfl, rfl, rfl⟩ := List.map_eq_cons_iff.1 hafter
  have hkeep : s.contains r.model = true → s'.contains r.model = true :=
    contains_of_apply hc fun name hname => by cases hname
  cases hb : baseline.contains r.model with
  | true => exact hkeep (contains_of_applyFrom hs hdelete (.inl hb))
  | false =>
    obtain ⟨step, hstep, hname⟩ := mem_order_of_live hlive hb
    rw [horder, List.mem_append, List.mem_cons] at hstep
    rcases hstep with hstep | rfl | hstep
    · refine hkeep (contains_of_applyFrom hs hdelete (.inr ⟨Creation.early step.1 step.2, ?_⟩))
      rw [← hname]
      exact List.mem_map_of_mem hstep
    · exact hname ▸ contains_of_createModel hc
    · -- the target comes later, so the foreign key would have had to wait
      have hpair := Creation.order_pairwise (createdModelsOf baseline live)
      rw [horder, List.pairwise_append, List.pairwise_cons] at hpair
      obtain ⟨f, hf, hrel⟩ := mem_introduced_createModel.1 hr
      obtain ⟨hvalue, hearly⟩ := List.mem_filter.1 hf
      have hwait := hpair.2.1.1 step hstep (f, r) (Model.mem_relations.2 ⟨hvalue, hrel⟩) hname.symm
      rw [List.contains_iff_mem.2 hwait] at hearly
      cases hearly

theorem present_of_alteration {front : List Change} {c : Change} {s s' : State}
    (hfront : ∀ name, deleteModel name ∉ front) (hnot : ∀ name, c ≠ .deleteModel name)
    (hs : applyAll ((ofStates baseline live).creations ++ front) baseline = .ok s)
    (hc : c.apply s = .ok s') {target : String} (hlive : live.contains target = true) :
    s'.contains target = true := by
  have hdelete : ∀ name, deleteModel name ∉ (ofStates baseline live).creations ++ front := by
    intro name hin
    rcases List.mem_append.1 hin with hin | hin
    · exact deleteModel_not_mem_creations _ name hin
    · exact hfront name hin
  refine contains_of_apply hc hnot (contains_of_applyFrom hs hdelete ?_)
  cases hb : baseline.contains target with
  | true => exact .inl rfl
  | false =>
    obtain ⟨step, hstep, rfl⟩ := mem_order_of_live hlive hb
    refine .inr ⟨Creation.early step.1 step.2, List.mem_append_left _ ?_⟩
    rw [creations_ofStates]
    exact List.mem_map_of_mem hstep

theorem present_of_split (hclosed : live.Closed) {done rest : List Change} {c : Change} {s s' : State}
    (hsplit : (ofStates baseline live).changes = done ++ c :: rest)
    (hs : applyAll done baseline = .ok s) (hc : c.apply s = .ok s') :
    ∀ r ∈ c.introduced, s'.contains r.model = true := by
  intro r hr
  have hin : c ∈ (ofStates baseline live).changes := by
    rw [hsplit]
    exact List.mem_append_cons_self
  obtain ⟨m, hm, hp⟩ := pointsAt_of_introduced hin hr
  have hlive := hclosed m hm r.model hp
  rcases rows_of_split hsplit with ⟨later, hcreate⟩ | ⟨front, later, rfl, halter⟩ | ⟨gone, -, hdelete⟩
  · exact present_of_creation hcreate hs hc hr hlive
  · have hnot : ∀ name, deleteModel name ∉ front ++ c :: later := fun name =>
      halter ▸ deleteModel_not_mem_alterations _ name
    refine present_of_alteration (fun name h => hnot name (List.mem_append_left _ h)) ?_ hs hc hlive
    rintro name rfl
    exact hnot name (List.mem_append_cons_self)
  · rw [introduced_of_mem_deletions (hdelete ▸ List.mem_append_cons_self)] at hr
    cases hr

/-! ### Models that go -/

theorem concerning_deletions {names : List String} {n : String} :
    concerning n (names.map .deleteModel) = List.replicate (names.count n) (.deleteModel n) := by
  induction names with
  | nil => rfl
  | cons x rest ih =>
    rw [List.map_cons, concerning, List.filter_cons, List.count_cons]
    by_cases hx : x = n
    · subst hx
      simp only [model?, beq_self_eq_true, if_true, List.replicate_succ]
      exact congrArg _ ih
    · simp only [model?, beq_iff_eq, Option.some.injEq, hx, if_false, Nat.add_zero]
      exact ih

/-- Right before a model is deleted, a model that is not live either points at it no more. -/
theorem free_of_deleted (hb : baseline.WellFormed) {done : List Change} {front back : List String}
    {name : String} {s : State}
    (hsplit : (ofStates baseline live).changes = done ++ (name :: back).map .deleteModel)
    (hnames : Deletion.names (deletedModelsOf baseline live) = front ++ name :: back)
    (hs : applyAll done baseline = .ok s) {m old : Model} (hm : s.model? old.name = some m)
    (hne : old.name ≠ name) (hold : baseline.model? old.name = some old)
    (hlive : live.model? old.name = none) : ¬ m.PointsAt name := by
  have hwf := hb.of_model? hold
  have hdeleted := mem_deleted.2 ⟨hold, hlive⟩
  have hd : ((deletedModelsOf baseline live).map Model.name).Nodup := nodup_deleted
  have hnodup : (name :: back).Nodup := by
    have := (Deletion.planned hd).perm.nodup_iff.2 hd
    rw [hnames] at this
    exact (List.nodup_append.1 this).2.1
  have heffects := effects_concerning hs old.name
  rw [hold, hm] at heffects
  have hwhole : concerning old.name (ofStates baseline live).changes =
      (about old.name (Deletion.diff (deletedModelsOf baseline live))).changes := by
    rw [concerning_changes, about_of_deleted hold hlive]
  rw [hsplit, concerning_append, concerning_deletions, hnodup.count] at hwhole
  by_cases hback : old.name ∈ back
  · rw [if_pos (List.mem_cons_of_mem name hback), Deletion.changes_about_diff hd hdeleted] at hwhole
    rw [(List.append_inj' hwhole rfl).1, Deletion.effects_strip hd hdeleted hwf] at heffects
    cases heffects
    exact Deletion.not_pointsAt_of_stripped hd hdeleted hwf hnames hback hne
  · have hgone : old.name ∉ name :: back := by
      intro hin
      rcases List.mem_cons.1 hin with he | hin
      · exact hne he
      · exact hback hin
    rw [if_neg hgone, List.replicate_zero, List.append_nil] at hwhole
    rw [hwhole, Deletion.effects_delete hd hdeleted hwf] at heffects
    cases heffects

/-- Right before a model is deleted, a live model does not point at it. -/
theorem free_of_live (hclosed : live.Closed) {done : List Change} {name : String} {back : List String}
    {s final : State} (hfinal : applyAll (done ++ .deleteModel name :: back.map .deleteModel) baseline =
      .ok final)
    (hsame : final.same live = true) (hs : applyAll done baseline = .ok s)
    {m new : Model} (hm : s.model? new.name = some m) (hlive : live.model? new.name = some new)
    (hstays : new.name ∉ name :: back) (hname : live.contains name = false) : ¬ m.PointsAt name := by
  intro hp
  obtain ⟨t, ht, hrest⟩ := applyFrom_append_eq_ok_iff.1 hfinal
  obtain rfl := Except.ok.inj (hs.symm.trans ht)
  have hkept := effects_concerning hrest new.name
  have hnothing : concerning new.name ((name :: back).map .deleteModel) = [] := by
    rw [concerning_deletions, List.count_eq_zero.2 hstays]
    rfl
  rw [show concerning new.name (deleteModel name :: back.map .deleteModel) = [] from hnothing, hm] at hkept
  have hmodel := State.same_iff.1 hsame new.name
  rw [← Except.ok.inj hkept, hlive] at hmodel
  have hpoint := (Model.pointsAt_of_same hmodel).1 hp
  have := hclosed new (State.mem_of_model? hlive) name hpoint
  rw [hname] at this
  cases this

/-- A model that is on neither side is in no state on the way. -/
theorem model?_of_absent {done rest : List Change} {s : State} {n : String}
    (hsplit : (ofStates baseline live).changes = done ++ rest) (hs : applyAll done baseline = .ok s)
    (hold : baseline.model? n = none) (hlive : live.model? n = none) : s.model? n = none := by
  have hnothing : concerning n (ofStates baseline live).changes = [] := by
    rw [concerning_changes, about_of_absent hold hlive]
    rfl
  rw [hsplit, concerning_append, List.append_eq_nil_iff] at hnothing
  have heffects := effects_concerning hs n
  rw [hnothing.1, hold] at heffects
  exact (Except.ok.inj heffects).symm

/-- From the deletion of a model on, models are deleted in the order of deletion. -/
theorem names_of_split {done rest : List Change} {name : String}
    (hsplit : (ofStates baseline live).changes = done ++ .deleteModel name :: rest) :
    ∃ front back, Deletion.names (deletedModelsOf baseline live) = front ++ name :: back ∧
      rest = back.map .deleteModel := by
  rcases rows_of_split hsplit with ⟨later, hcreate⟩ | ⟨front, later, -, halter⟩ | ⟨gone, -, hdelete⟩
  · refine absurd ?_ (deleteModel_not_mem_creations (ofStates baseline live) name)
    rw [hcreate]
    exact List.mem_append_cons_self
  · refine absurd ?_ (deleteModel_not_mem_alterations (ofStates baseline live) name)
    rw [halter]
    exact List.mem_append_cons_self
  · rw [deletions_ofStates] at hdelete
    obtain ⟨front, after, hnames, -, hafter⟩ := List.map_eq_append_iff.1 hdelete
    obtain ⟨n, back, rfl, hn, rfl⟩ := List.map_eq_cons_iff.1 hafter
    cases hn
    exact ⟨front, back, hnames, rfl⟩

theorem not_live_of_names {front back : List String}
    (hnames : Deletion.names (deletedModelsOf baseline live) = front ++ back) {x : String}
    (hx : x ∈ back) : live.model? x = none := by
  have hd : ((deletedModelsOf baseline live).map Model.name).Nodup := nodup_deleted
  have hin := (Deletion.planned hd).perm.subset (hnames ▸ List.mem_append_right front hx)
  exact (mem_deletedNames.1 hin).2

theorem free_of_split (hb : baseline.WellFormed) (hclosed : live.Closed) {final : State}
    (hfinal : applyAll (ofStates baseline live).changes baseline = .ok final)
    (hsame : final.same live = true) {done rest : List Change} {name : String} {s : State}
    (hsplit : (ofStates baseline live).changes = done ++ .deleteModel name :: rest)
    (hs : applyAll done baseline = .ok s) :
    ∀ m ∈ s.toList, m.name ≠ name → ¬ m.PointsAt name := by
  obtain ⟨front, back, hnames, rfl⟩ := names_of_split hsplit
  rw [hsplit] at hfinal
  intro m hm hne
  have hmodel : s.model? m.name = some m := Ascending.find?_of_mem hm
  cases hlive : live.model? m.name with
  | some new =>
    have hname := State.name_of_model? hlive
    rw [← hname] at hmodel hlive
    have hstays : new.name ∉ name :: back := fun hin => by
      cases hlive.symm.trans (not_live_of_names hnames hin)
    have hlost : live.model? name = none := not_live_of_names hnames (List.mem_cons_self ..)
    refine free_of_live hclosed hfinal hsame hs hmodel hlive hstays ?_
    exact Option.isSome_eq_false_iff.2 (Option.isNone_iff_eq_none.2 hlost)
  | none =>
    cases hold : baseline.model? m.name with
    | some old =>
      have hname := State.name_of_model? hold
      rw [← hname] at hmodel hlive hold hne
      exact free_of_deleted hb hsplit hnames hs hmodel hne hold hlive
    | none => cases hmodel.symm.trans (model?_of_absent hsplit hs hold hlive)

/-! ### Every state on the way -/

theorem keeps_of_split (hb : baseline.WellFormed) (hclosed : live.Closed) {final : State}
    (hfinal : applyAll (ofStates baseline live).changes baseline = .ok final)
    (hsame : final.same live = true) {done rest : List Change} {c : Change} {s s' : State}
    (hsplit : (ofStates baseline live).changes = done ++ c :: rest)
    (hs : applyAll done baseline = .ok s) (hc : c.apply s = .ok s') : c.Keeps s s' where
  present := present_of_split hclosed hsplit hs hc
  free name h := by
    subst h
    exact free_of_split hb hclosed hfinal hsame hsplit hs

end States

theorem closed_of_firstRelationFault? {s : State} (h : s.firstRelationFault? = none) : s.Closed := by
  rintro m hm name ⟨key, hkey, rfl⟩
  have hnone := List.findSome?_eq_none_iff.1 (List.findSome?_eq_none_iff.1 h m hm) key hkey
  rw [State.relationFault?] at hnone
  split at hnone
  · cases hnone
  · rename_i target htarget
    exact Option.isSome_of_eq_some htarget

/-- What is known of a state on the way and of the change that comes next. -/
structure OnTheWay (rest : List Change) (s : State) : Prop where
  closed : s.Closed
  /-- A model is created after the targets of the foreign keys that its table has. -/
  created : ∀ name fields later, rest = .createModel name fields :: later → ∀ f ∈ fields, ∀ r,
    f.relation? = some r → r.model = name ∨ s.contains r.model = true
  /-- A model is deleted when no other one points at it. -/
  deleted : ∀ name later, rest = .deleteModel name :: later → ∀ m ∈ s.toList, m.name ≠ name →
    ¬ m.PointsAt name

theorem onTheWay_of_between {baseline : State} {live : List Model} {d : Diff}
    (hb : baseline.WellFormed) (hcb : baseline.Comparable) (hcl : ∀ m ∈ live, m.Comparable)
    (hclosed : baseline.Closed) (h : between baseline live = .ok d) {done rest : List Change}
    (hsplit : d.changes = done ++ rest) : ∃ s, applyAll done baseline = .ok s ∧ OnTheWay rest s := by
  obtain ⟨state, hlive, hnone, rfl⟩ := eq_ofStates_of_between h
  have hlclosed := closed_of_firstRelationFault? hnone
  obtain ⟨final, hfinal, hsame⟩ :=
    applyAll_ofStates hb hlive.wellFormed hcb (hlive.comparable hcl)
  have hkeeps : ∀ {done rest : List Change} {c : Change} {s s' : State},
      (ofStates baseline state).changes = done ++ c :: rest → applyAll done baseline = .ok s →
      c.apply s = .ok s' → c.Keeps s s' := keeps_of_split hb hlclosed hfinal hsame
  have hparts := hfinal
  rw [hsplit] at hparts
  obtain ⟨s, hs, hrest⟩ := applyFrom_append_eq_ok_iff.1 hparts
  refine ⟨s, hs, ?_, ?_, ?_⟩
  · refine closed_of_applyFrom hs (fun before c after t t' hdone ht hc => ?_) hclosed
    exact hkeeps (by rw [hsplit, hdone, List.append_assoc, List.cons_append]) ht hc
  · rintro name fields later rfl f hf r hr
    obtain ⟨s', hc, -⟩ := applyFrom_cons_eq_ok_iff.1 hrest
    have hin := (hkeeps hsplit hs hc).present r (mem_introduced_createModel.2 ⟨f, hf, hr⟩)
    by_cases hname : name = r.model
    · exact .inl hname.symm
    · have hkept := model?_of_apply_of_ne rfl hc (Ne.symm hname)
      rw [Ascending.contains, show Ascending.find? s' r.model = _ from hkept] at hin
      exact .inr hin
  · rintro name later rfl
    obtain ⟨s', hc, -⟩ := applyFrom_cons_eq_ok_iff.1 hrest
    exact (hkeeps hsplit hs hc).free name rfl

theorem Evolved.closed {history : List Migration} {lives : List (List Model)}
    (h : Evolved history lives) (hcomp : ∀ live ∈ lives, ∀ m ∈ live, m.Comparable) :
    ∃ s, Replay.run history = .ok s ∧ s.Closed := by
  induction h with
  | start => exact ⟨Ascending.empty, rfl, fun m hm => by cases hm⟩
  | @grow history lives baseline live d m before replayed compared written ih =>
    have hearlier := fun l hl => hcomp l (List.mem_append_left _ hl)
    obtain ⟨s, hs, hclosed⟩ := ih hearlier
    obtain ⟨t, ht, hsame⟩ := before.replay hearlier
    obtain rfl := Except.ok.inj (replayed.symm.trans hs)
    obtain rfl := Except.ok.inj (replayed.symm.trans ht)
    have hlive := hcomp live (List.mem_append_right _ (List.mem_singleton.2 rfl))
    obtain ⟨final, hfinal, hway⟩ := onTheWay_of_between (Replay.reachable_of_run replayed).wellFormed
      (State.comparable_of_same hsame) hlive hclosed compared (List.append_nil d.changes).symm
    exact ⟨final, Replay.run_concat.2 ⟨_, replayed, written ▸ hfinal⟩, hway.closed⟩
  | @rest history lives baseline live d before replayed compared unchanged ih =>
    exact ih fun l hl => hcomp l (List.mem_append_left _ hl)

/-- **No state on the way has a foreign key to a missing model.** From a baseline without such keys,
whatever changes led to it, every beginning of the difference with live models applies and leaves a
schema without such keys; a model is created after the targets of its table's foreign keys and deleted
when no other model points at it. Histories that are made of differences lead to such baselines. -/
theorem closed_throughout :
    (∀ (history : List Change) (baseline : State) (live : List Model) (d : Diff),
      Change.applyAll history Ascending.empty = .ok baseline → baseline.Comparable →
      (∀ m ∈ live, m.Comparable) → baseline.Closed → between baseline live = .ok d →
      ∀ done rest, d.changes = done ++ rest →
        ∃ s, Change.applyAll done baseline = .ok s ∧ OnTheWay rest s) ∧
    (∀ (history : List Migration) (lives : List (List Model)), Evolved history lives →
      (∀ live ∈ lives, ∀ m ∈ live, m.Comparable) →
      ∃ s, Replay.run history = .ok s ∧ s.Closed) := by
  refine ⟨fun history baseline live d hbaseline hcb hcl hclosed h done rest hsplit => ?_,
    fun history lives h hcomp => h.closed hcomp⟩
  have hreachable : baseline.Reachable := ⟨history, hbaseline⟩
  exact onTheWay_of_between hreachable.wellFormed hcb hcl hclosed h hsplit

/-- Two models that point at each other are deleted and one that points at a third is created: with one of
the two deleted, no foreign key leads to a missing model. -/
theorem closed_throughout_sample :
    let first := (ofStates Ascending.empty (.ofModels sampleLive)).changes
    let d := ofStates (.ofModels sampleLive) (.ofModels sampleOld)
    d.changes.length = 5 ∧ d.deletedModels = ["post", "tag"] ∧
      (∃ s, Change.applyAll (d.changes.take 4) (.ofModels sampleLive) = .ok s ∧
        OnTheWay (d.changes.drop 4) s) ∧
      ∃ s, Replay.run [⟨"a", "main", none, first⟩] = .ok s ∧ s.Closed := by
  have hfirst : between Ascending.empty sampleLive =
      .ok (ofStates Ascending.empty (.ofModels sampleLive)) := rfl
  have hbaseline : Change.applyAll (ofStates Ascending.empty (.ofModels sampleLive)).changes
      Ascending.empty = .ok (.ofModels sampleLive) := rfl
  have hsecond : between (.ofModels sampleLive) sampleOld =
      .ok (ofStates (.ofModels sampleLive) (.ofModels sampleOld)) := rfl
  have hevolved : Evolved
      [⟨"a", "main", none, (ofStates Ascending.empty (.ofModels sampleLive)).changes⟩] [sampleLive] :=
    .grow _ .start rfl hfirst rfl
  refine ⟨rfl, rfl, ?_, closed_throughout.2 _ _ hevolved (by decide)⟩
  exact closed_throughout.1 _ _ _ _ hbaseline (by decide) (by decide) (by decide) hsecond _ _
    (List.take_append_drop 4 _).symm

end Diff

end Schemata
