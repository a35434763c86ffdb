import Schemata.Diff.Between
import Schemata.Proofs.Diff.Deletion
import Schemata.Proofs.Diff.Revision

/-! What the difference with live models has to say of each model.

Live models that are accepted are the models of a state (`State.IsLive`). Under each name the difference
of two states is the creation of a model, its revision, its part of the deletion, or nothing
(`Diff.Part`). -/
namespace Schemata

/-! ### Live models -/

namespace State

/-- Live models that are accepted are the models of their state, and each is without a fault. -/
structure IsLive (live : List Model) (s : State) : Prop where
  eq_ofModels : s = ofModels live
  perm : s.toList.Perm live
  faultless : ∀ m ∈ live, m.fault? = none

/-- The state with one live model more, if it is valid and its name is new. -/
def takeIn (s : State) (m : Model) : Except LiveFault State :=
  match m.fault? with
  | some fault => .error (.invalid fault)
  | none =>
    if s.contains m.name then .error (.invalid (.declaredTwice m.name)) else .ok (s.insert m)

theorem takeIn_eq_ok {s t : State} {m : Model} (h : s.takeIn m = .ok t) :
    m.fault? = none ∧ s.contains m.name = false ∧ t = s.insert m := by
  unfold takeIn at h
  split at h
  · cases h
  · split at h
    · cases h
    · rename_i hnone hnew
      cases h
      exact ⟨hnone, Bool.eq_false_iff.2 hnew, rfl⟩

theorem isLive_of_ofLive {live : List Model} {s : State} (h : ofLive live = .ok s) :
    IsLive live s := by
  obtain ⟨heq, hperm⟩ := Ascending.foldlM_perm (fun h => (takeIn_eq_ok h).2) h
  refine ⟨heq, by simpa using hperm, fun m hm => ?_⟩
  obtain ⟨s, t, hst⟩ := Ascending.exists_of_foldlM h hm
  exact (takeIn_eq_ok hst).1

theorem IsLive.wellFormed {live : List Model} {s : State} (h : IsLive live s) : s.WellFormed :=
  fun m hm => Model.wellFormed_of_fault? (h.faultless m (h.perm.subset hm))

theorem IsLive.comparable {live : List Model} {s : State} (h : IsLive live s)
    (hlive : ∀ m ∈ live, m.Comparable) : s.Comparable :=
  fun m hm => hlive m (h.perm.subset hm)

end State

namespace Diff

theorem eq_ofStates_of_between {baseline : State} {live : List Model} {d : Diff}
    (h : between baseline live = .ok d) :
    ∃ s, State.IsLive live s ∧ s.firstRelationFault? = none ∧ d = ofStates baseline s := by
  obtain ⟨s, hs, h⟩ := bind_eq_ok_iff.1 h
  split at h
  · cases h
  · rename_i hnone
    cases h
    exact ⟨s, State.isLive_of_ofLive hs, hnone, rfl⟩

/-! ### The models of a difference -/

/-- The live models that the baseline does not have. -/
def createdModelsOf (baseline live : State) : List Model :=
  live.toList.filter fun m => !baseline.contains m.name

/-- The models of the baseline that are not live. -/
def deletedModelsOf (baseline live : State) : List Model :=
  baseline.toList.filter fun m => !live.contains m.name

/-- The models on both sides, each before and after. -/
def keptModelsOf (baseline live : State) : List (Model × Model) :=
  live.toList.filterMap fun m => (baseline.model? m.name).map fun old => (old, m)

theorem ofStates_eq (baseline live : State) :
    ofStates baseline live =
      Creation.diff (createdModelsOf baseline live) ++
        (keptModelsOf baseline live).foldl (fun d p => d ++ Revision.diff p.1 p.2) empty ++
        Deletion.diff (deletedModelsOf baseline live) := rfl

section Parts
variable {baseline live : State}

theorem mem_created {m : Model} : m ∈ createdModelsOf baseline live ↔
    live.model? m.name = some m ∧ baseline.model? m.name = none := by
  rw [createdModelsOf, List.mem_filter, State.model?, Ascending.find?_eq_some_iff, and_iff_left rfl,
    Bool.not_eq_eq_eq_not, Bool.not_true, Ascending.contains, Option.isSome_eq_false_iff,
    Option.isNone_iff_eq_none, State.model?]

theorem mem_deleted {m : Model} : m ∈ deletedModelsOf baseline live ↔
    baseline.model? m.name = some m ∧ live.model? m.name = none := mem_created

theorem mem_kept {old new : Model} : (old, new) ∈ keptModelsOf baseline live ↔
    live.model? new.name = some new ∧ baseline.model? new.name = some old := by
  rw [keptModelsOf, List.mem_filterMap, State.model?, Ascending.find?_eq_some_iff, and_iff_left rfl]
  constructor
  · rintro ⟨m, hm, h⟩
    obtain ⟨old', hold, he⟩ := Option.map_eq_some_iff.1 h
    cases he
    exact ⟨hm, hold⟩
  · rintro ⟨hm, hold⟩
    exact ⟨new, hm, by rw [hold]; rfl⟩

theorem nodup_created : ((createdModelsOf baseline live).map Model.name).Nodup :=
  (List.filter_sublist.map Model.name).nodup live.nodup_keys

theorem nodup_deleted : ((deletedModelsOf baseline live).map Model.name).Nodup :=
  (List.filter_sublist.map Model.name).nodup baseline.nodup_keys

theorem nodup_kept : ((keptModelsOf baseline live).map (·.2.name)).Nodup := by
  refine List.pairwise_map.2 (List.pairwise_filterMap.2 ?_)
  refine (List.pairwise_map.1 live.nodup_keys).imp fun {m m'} hne p hp q hq => ?_
  obtain ⟨_, _, rfl⟩ := Option.map_eq_some_iff.1 hp
  obtain ⟨_, _, rfl⟩ := Option.map_eq_some_iff.1 hq
  exact hne

theorem mem_createdNames {n : String} : n ∈ (createdModelsOf baseline live).map Model.name ↔
    live.contains n = true ∧ baseline.model? n = none := by
  constructor
  · intro hin
    obtain ⟨m, hm, rfl⟩ := List.mem_map.1 hin
    obtain ⟨hnew, hold⟩ := mem_created.1 hm
    exact ⟨Option.isSome_of_eq_some hnew, hold⟩
  · rintro ⟨hnew, hold⟩
    obtain ⟨m, hm⟩ := Option.isSome_iff_exists.1 hnew
    obtain rfl := State.name_of_model? hm
    exact List.mem_map_of_mem (mem_created.2 ⟨hm, hold⟩)

theorem mem_deletedNames {n : String} : n ∈ (deletedModelsOf baseline live).map Model.name ↔
    baseline.contains n = true ∧ live.model? n = none := mem_createdNames

theorem not_mem_keptNames {n : String} (h : baseline.model? n = none ∨ live.model? n = none) :
    n ∉ (keptModelsOf baseline live).map (·.2.name) := by
  intro hin
  obtain ⟨⟨old, new⟩, hp, rfl⟩ := List.mem_map.1 hin
  obtain ⟨hnew, hold⟩ := mem_kept.1 hp
  rcases h with h | h
  · cases hold.symm.trans h
  · cases hnew.symm.trans h

theorem nodup_order : ((Creation.order (createdModelsOf baseline live)).map (·.1.name)).Nodup := by
  have hd : ((createdModelsOf baseline live).map Model.name).Nodup := nodup_created
  have hperm := (Creation.order_perm hd).map Model.name
  rw [List.map_map] at hperm
  exact hperm.nodup_iff.2 hd

theorem mem_order {m : Model} {waiting : List String}
    (h : (m, waiting) ∈ Creation.order (createdModelsOf baseline live)) :
    m ∈ createdModelsOf baseline live :=
  (Creation.order_perm nodup_created).subset (List.mem_map_of_mem h)

theorem not_mem_order {n : String} (h : n ∉ (createdModelsOf baseline live).map Model.name) :
    n ∉ (Creation.order (createdModelsOf baseline live)).map (·.1.name) := by
  intro hin
  obtain ⟨⟨m, waiting⟩, hm, rfl⟩ := List.mem_map.1 hin
  exact h (List.mem_map_of_mem (mem_order hm))

/-! ### The part of each model -/

theorem isOf_create (step : Model × List String) :
    (Creation.create step.1 step.2).IsOf step.1.name := by
  constructor <;> intro c hc <;> simp [Creation.create] at hc
  · rw [hc]
  · obtain ⟨f, -, rfl⟩ := hc
    rfl
  · obtain ⟨i, -, rfl⟩ := hc
    rfl

theorem isOf_revision (pair : Model × Model) :
    (Revision.diff pair.1 pair.2).IsOf pair.2.name := by
  have hmap : ∀ {α : Type} {l : List α} {c : Located α},
      c ∈ l.map (fun x => ⟨pair.2.name, x⟩) → c.model = pair.2.name := by
    intro α l c hc
    obtain ⟨x, -, rfl⟩ := List.mem_map.1 hc
    rfl
  constructor
  · intro c hc
    cases hc
  · exact fun c => hmap
  · exact fun c => hmap
  · exact fun c => hmap
  · intro c hc
    simp only [Revision.diff] at hc
    split at hc
    · cases hc
    · exact hmap hc
  · exact fun c => hmap
  · intro c hc
    simp only [Revision.diff] at hc
    split at hc
    · cases hc
    · exact hmap hc
  · intro c hc
    cases hc

theorem about_creation_of_not_mem {n : String}
    (h : n ∉ (createdModelsOf baseline live).map Model.name) :
    about n (Creation.diff (createdModelsOf baseline live)) = empty :=
  about_foldl_of_not_mem isOf_create empty (not_mem_order h)

theorem about_kept_of_not_mem {n : String}
    (h : n ∉ (keptModelsOf baseline live).map (·.2.name)) :
    about n ((keptModelsOf baseline live).foldl (fun d p => d ++ Revision.diff p.1 p.2) empty) =
      empty :=
  about_foldl_of_not_mem isOf_revision empty h

/-- What the difference has to say of the model of that name: nothing, its creation, its revision or its
part of the deletion. -/
inductive Part (baseline live : State) (n : String) : Diff → Prop
  | absent (old : baseline.model? n = none) (new : live.model? n = none) : Part baseline live n empty
  | created (m : Model) (waiting : List String) (old : baseline.model? n = none)
      (new : live.model? n = some m)
      (ordered : (m, waiting) ∈ Creation.order (createdModelsOf baseline live)) :
      Part baseline live n (Creation.create m waiting)
  | kept (m m' : Model) (old : baseline.model? n = some m) (new : live.model? n = some m') :
      Part baseline live n (Revision.diff m m')
  | deleted (m : Model) (old : baseline.model? n = some m) (new : live.model? n = none) :
      Part baseline live n (about m.name (Deletion.diff (deletedModelsOf baseline live)))

theorem part_about (baseline live : State) (n : String) :
    Part baseline live n ((ofStates baseline live).about n) := by
  rw [ofStates_eq, about_append, about_append]
  cases hbn : baseline.model? n with
  | none =>
    have hdeleted : n ∉ (deletedModelsOf baseline live).map Model.name := by
      intro hin
      have hold := (mem_deletedNames.1 hin).1
      rw [Ascending.contains, show Ascending.find? baseline n = _ from hbn] at hold
      cases hold
    rw [about_kept_of_not_mem (not_mem_keptNames (.inl hbn)),
      Deletion.about_diff_of_not_mem nodup_deleted hdeleted, append_empty, append_empty]
    cases hln : live.model? n with
    | none =>
      have hcreated : n ∉ (createdModelsOf baseline live).map Model.name := by
        intro hin
        have hnew := (mem_createdNames.1 hin).1
        rw [Ascending.contains, show Ascending.find? live n = _ from hln] at hnew
        cases hnew
      rw [about_creation_of_not_mem hcreated]
      exact .absent hbn hln
    | some new =>
      obtain rfl := State.name_of_model? hln
      obtain ⟨⟨m, waiting⟩, hstep, rfl⟩ :=
        List.mem_map.1 ((Creation.order_perm nodup_created).symm.subset (mem_created.2 ⟨hln, hbn⟩))
      rw [Creation.diff, about_foldl_of_mem isOf_create empty nodup_order hstep]
      exact (empty_append (Creation.create m waiting)).symm ▸ .created m waiting hbn hln hstep
  | some old =>
    have hcreated : n ∉ (createdModelsOf baseline live).map Model.name := by
      intro hin
      cases hbn.symm.trans (mem_createdNames.1 hin).2
    rw [about_creation_of_not_mem hcreated, empty_append]
    cases hln : live.model? n with
    | some new =>
      obtain rfl := State.name_of_model? hln
      have hdeleted : new.name ∉ (deletedModelsOf baseline live).map Model.name := by
        intro hin
        cases hln.symm.trans (mem_deletedNames.1 hin).2
      rw [Deletion.about_diff_of_not_mem nodup_deleted hdeleted, append_empty,
        about_foldl_of_mem isOf_revision empty nodup_kept (mem_kept.2 ⟨hln, hbn⟩)]
      exact (empty_append (Revision.diff old new)).symm ▸ .kept old new hbn hln
    | none =>
      obtain rfl := State.name_of_model? hbn
      rw [about_kept_of_not_mem (not_mem_keptNames (.inr hln)), empty_append]
      exact .deleted old hbn hln

/-- Where a change of a difference comes from: a new model, one that stays, or one that goes. -/
inductive Origin (baseline live : State) (n : String) (c : Change) : Prop
  | created (m : Model) (waiting : List String) (old : baseline.model? n = none) (new : live.model? n = some m)
      (ordered : (m, waiting) ∈ Creation.order (createdModelsOf baseline live))
      (mem : c ∈ (Creation.create m waiting).changes) : Origin baseline live n c
  | kept (old new : Model) (hold : baseline.model? n = some old) (hnew : live.model? n = some new)
      (mem : c ∈ (Revision.diff old new).changes) : Origin baseline live n c
  | deleted (m : Model) (old : baseline.model? n = some m) (new : live.model? n = none)
      (mem : (∃ i, c = .removeIndex n i) ∨
        (∃ f ∈ Deletion.fieldsOf (deletedModelsOf baseline live) n, c = .removeField n f) ∨ c = .deleteModel n) :
      Origin baseline live n c

theorem origin_of_mem {n : String} {c : Change} (hc : c.model? = some n) (h : c ∈ (ofStates baseline live).changes) :
    Origin baseline live n c := by
  rw [← mem_about_iff hc] at h
  have hpart := part_about baseline live n
  generalize (ofStates baseline live).about n = d at hpart h
  cases hpart with
  | absent => cases h
  | created m waiting old new ordered => exact .created m waiting old new ordered h
  | kept old new hold hnew => exact .kept old new hold hnew h
  | deleted m old new =>
    obtain rfl := State.name_of_model? old
    rw [Deletion.changes_about_diff nodup_deleted (mem_deleted.2 ⟨old, new⟩)] at h
    simp only [List.mem_append, List.mem_map, List.mem_singleton] at h
    refine .deleted m old new ?_
    rcases h with (⟨i, -, rfl⟩ | ⟨f, hf, rfl⟩) | rfl
    · exact .inl ⟨i, rfl⟩
    · exact .inr (.inl ⟨f, hf, rfl⟩)
    · exact .inr (.inr rfl)

theorem about_of_absent {n : String} (hold : baseline.model? n = none) (hnew : live.model? n = none) :
    (ofStates baseline live).about n = empty := by
  have hpart := part_about baseline live n
  generalize (ofStates baseline live).about n = d at hpart ⊢
  cases hpart with
  | absent => rfl
  | created _ _ _ new => cases hnew.symm.trans new
  | kept _ _ old => cases hold.symm.trans old
  | deleted _ old => cases hold.symm.trans old

theorem about_of_deleted {m : Model} (hold : baseline.model? m.name = some m)
    (hnew : live.model? m.name = none) :
    (ofStates baseline live).about m.name =
      about m.name (Deletion.diff (deletedModelsOf baseline live)) := by
  have hpart := part_about baseline live m.name
  generalize (ofStates baseline live).about m.name = d at hpart ⊢
  cases hpart with
  | absent old => cases hold.symm.trans old
  | created _ _ old => cases hold.symm.trans old
  | kept _ _ _ new => cases hnew.symm.trans new
  | deleted m' old =>
    cases hold.symm.trans old
    rfl

theorem about_of_kept {n : String} {old new : Model} (hold : baseline.model? n = some old)
    (hnew : live.model? n = some new) : (ofStates baseline live).about n = Revision.diff old new := by
  have hpart := part_about baseline live n
  generalize (ofStates baseline live).about n = d at hpart ⊢
  cases hpart with
  | absent old' => cases hold.symm.trans old'
  | created _ _ old' => cases hold.symm.trans old'
  | kept m m' old' new' =>
    cases hold.symm.trans old'
    cases hnew.symm.trans new'
    rfl
  | deleted _ _ new' => cases hnew.symm.trans new'

theorem concerning_of_kept {n : String} {old new : Model} (hold : baseline.model? n = some old)
    (hnew : live.model? n = some new) :
    Change.concerning n (ofStates baseline live).changes = (Revision.diff old new).changes := by
  rw [concerning_changes, about_of_kept hold hnew]

end Parts

end Diff

end Schemata
