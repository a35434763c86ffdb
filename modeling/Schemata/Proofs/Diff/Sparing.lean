import Schemata.Proofs.Ddl.Collision
import Schemata.Proofs.Diff.Emptiness
import Schemata.Proofs.Diff.Order

/-! What a difference leaves alone.

A difference takes away what the live models do not have and brings what the baseline does not have, and it touches
each field of the baseline at most once (`Diff.Sparing`). It drops stored data exactly when a model is gone, or when a
model that stays loses a field otherwise than by having its one lost field under another name. -/
namespace Schemata

/-- The field of the schema, by model and name, that the change removes, renames or changes. -/
def Change.subject? : Change → Option (String × String)
  | .removeField n f => some (n, f.name)
  | .renameField n source _ => some (n, source)
  | .changeField n k _ _ => some (n, k)
  | _ => none

theorem Change.model?_of_subject? {c : Change} {x : String × String} (h : c.subject? = some x) :
    c.model? = some x.1 := by
  cases c <;> cases h <;> rfl

namespace State.IsLive
variable {live : List Model} {s : State} {n : String}

theorem model?_eq_some_iff (h : IsLive live s) {m : Model} : s.model? n = some m ↔ m ∈ live ∧ m.name = n := by
  rw [State.model?, Ascending.find?_eq_some_iff, h.perm.mem_iff]

theorem model?_eq_none_iff (h : IsLive live s) : s.model? n = none ↔ ∀ m ∈ live, m.name ≠ n := by
  rw [Option.eq_none_iff_forall_ne_some]
  simp [h.model?_eq_some_iff]

end State.IsLive

/-! ### One model on both sides -/

namespace Revision
variable {old new : Model} {f : Field} {k : String}

/-- Whether the field is one of the old model, and the new one has none of its name. -/
def Loses (old new : Model) (f : Field) : Prop := old.field? f.name = some f ∧ new.field? f.name = none

/-- Whether the model lost one field and gained one, and both are the same but for their names. -/
def IsSoleRenaming (old new : Model) : Prop :=
  ∃ source target, (∀ f, Loses old new f ↔ f = source) ∧ (∀ f, Loses new old f ↔ f = target) ∧
    source.sameShape target = true

theorem loses_iff (hold : old.WellFormed) : f ∈ removedFields old new ↔ Loses old new f := by
  rw [mem_removedFields hold, Loses]
  exact and_congr_right fun _ => Keyed.contains_eq_false_iff

theorem removedFields_eq_singleton_iff (hold : old.WellFormed) :
    removedFields old new = [f] ↔ ∀ g, Loses old new g ↔ g = f := by
  simp only [← loses_iff hold]
  constructor
  · rintro h g
    rw [h, List.mem_singleton]
  · intro h
    refine List.perm_singleton.1 ((List.perm_ext_iff_of_nodup ?_ (List.nodup_singleton f)).2 fun g => ?_)
    · exact (nodup_removedFields hold).of_map
    · rw [h, List.mem_singleton]

theorem isSome_renamed?_iff (hold : old.WellFormed) (hnew : new.WellFormed) :
    (renamed? old new).isSome = true ↔ IsSoleRenaming old new := by
  simp only [Option.isSome_iff_exists, renamed?, renaming?_eq_some_iff, IsSoleRenaming,
    ← removedFields_eq_singleton_iff hold, ← removedFields_eq_singleton_iff hnew]
  constructor
  · rintro ⟨r, source, target, hremoved, hadded, hshape, -⟩
    exact ⟨source, target, hremoved, hadded, hshape⟩
  · rintro ⟨source, target, hremoved, hadded, hshape⟩
    exact ⟨_, source, target, hremoved, hadded, hshape, rfl⟩

theorem mem_lostFields (hold : old.WellFormed) (hnew : new.WellFormed) :
    f ∈ lostFields old new (renamed? old new) ↔ Loses old new f ∧ ¬ IsSoleRenaming old new := by
  rw [lostFields, ← isSome_renamed?_iff hold hnew, ← loses_iff hold]
  split <;> simp_all

/-- The fields of the old model that a revision removes, renames or changes are distinct. -/
theorem nodup_subjects (hold : old.WellFormed) (hnew : new.WellFormed) :
    ((diff old new).changes.filterMap Change.subject?).Nodup := by
  have hsubjects : (diff old new).changes.filterMap Change.subject? =
      ((renamed? old new).toList.map Renaming.source ++ (changedFields old new).map Revision.field ++
        (lostFields old new (renamed? old new)).map Field.name).map (new.name, ·) := by
    rw [changes_diff]
    simp [List.filterMap_append, List.filterMap_map, Function.comp_def, Change.subject?]
  have hgone : ∀ r, renamed? old new = some r → new.field? r.source = none := fun r hr => by
    obtain ⟨_, _, h⟩ := exists_isRenamed hold hnew hr
    exact h.gone
  have hunchanged : ∀ k, new.field? k = none → k ∉ (changedFields old new).map Revision.field := fun k hk =>
    Carried.not_mem_changed (.inr (Keyed.contains_eq_false_iff.2 hk))
  rw [hsubjects]
  refine List.Nodup.map (fun _ _ h => congrArg Prod.snd h) ?_
  cases hr : renamed? old new with
  | some r =>
    -- a renamed field is the only one that is lost
    simpa [lostFields] using ⟨by simpa using hunchanged _ (hgone r hr), nodup_changedFields⟩
  | none =>
    simp only [Option.toList_none, List.map_nil, List.nil_append]
    refine List.nodup_append.2 ⟨nodup_changedFields, nodup_removedFields hold, ?_⟩
    rintro k hk l hl rfl
    obtain ⟨f, hf, rfl⟩ := List.mem_map.1 hl
    exact hunchanged _ ((loses_iff hold).1 hf).2 hk

end Revision

/-! ### The whole difference -/

namespace Diff
open Change

section States
variable {baseline live : State} {n : String} {c : Change}

theorem of_mem_createModel {fields : List Field} (h : .createModel n fields ∈ (ofStates baseline live).changes) :
    baseline.model? n = none ∧ (live.model? n).isSome = true := by
  cases origin_of_mem rfl h with
  | created m waiting old new => exact ⟨old, Option.isSome_of_eq_some new⟩
  | kept old new hold hnew mem => simp [Revision.changes_diff] at mem
  | deleted m old new mem => simp at mem

theorem deleteModel_mem_iff : .deleteModel n ∈ (ofStates baseline live).changes ↔
    (baseline.model? n).isSome = true ∧ live.model? n = none := by
  rw [← mem_about_iff (n := n) rfl]
  have hpart := part_about baseline live n
  generalize (ofStates baseline live).about n = d at hpart
  cases hpart with
  | absent old => simp [old, Diff.changes, empty]
  | created m waiting old =>
    rw [Creation.changes_create]
    simp [old]
  | kept old new _ hnew =>
    rw [Revision.changes_diff]
    simp [hnew]
  | deleted m old new =>
    obtain rfl := State.name_of_model? old
    rw [Deletion.changes_about_diff nodup_deleted (mem_deleted.2 ⟨old, new⟩)]
    simp [old, new]

/-- Live models say of a model that stays what its revision says. -/
theorem mem_changes_of_kept {old new : Model} (hold : baseline.model? n = some old) (hnew : live.model? n = some new)
    (hc : c.model? = some n) : c ∈ (ofStates baseline live).changes ↔ c ∈ (Revision.diff old new).changes := by
  rw [← mem_about_iff hc, about_of_kept hold hnew]

section WellFormed
variable (hb : baseline.WellFormed) (hl : live.WellFormed)
include hb hl

/-- A model that stays loses a field for good unless that is the one that it has under another name. -/
theorem removeField_mem_iff {old new : Model} {f : Field} (hold : baseline.model? n = some old)
    (hnew : live.model? n = some new) : .removeField n f ∈ (ofStates baseline live).changes ↔
      Revision.Loses old new f ∧ ¬ Revision.IsSoleRenaming old new := by
  rw [mem_changes_of_kept hold hnew rfl, ← Revision.mem_lostFields (hb.of_model? hold)
    (hl.of_model? hnew), Revision.changes_diff, State.name_of_model? hnew]
  simp

/-- A field is renamed in a model that stays and has no other field lost or gained. -/
theorem of_mem_renameField {source target : String}
    (h : .renameField n source target ∈ (ofStates baseline live).changes) :
    ∃ old new, baseline.model? n = some old ∧ live.model? n = some new ∧ Revision.IsSoleRenaming old new := by
  obtain ⟨old, new, hold, hnew, hr⟩ := renamed?_of_mem_renameField h
  exact ⟨old, new, hold, hnew,
    (Revision.isSome_renamed?_iff (hb.of_model? hold) (hl.of_model? hnew)).1 (Option.isSome_of_eq_some hr)⟩

omit hb in
theorem not_hasField_of_mem_addField {f : Field} (h : .addField n f ∈ (ofStates baseline live).changes) :
    ¬ baseline.HasField n f.name := by
  rintro ⟨old, g, hold, hg⟩
  obtain ⟨new, hnew, -⟩ := of_mem_addField hl h
  rw [mem_changes_of_kept hold hnew rfl, Revision.changes_diff] at h
  simp only [List.mem_append, List.mem_map, reduceCtorEq, and_false, exists_false, or_false, false_or,
    addField.injEq] at h
  obtain ⟨x, hx, -, rfl⟩ := h
  obtain ⟨-, -, hfree⟩ := Revision.of_mem_gainedFields (hl.of_model? hnew) hx
  cases hfree.symm.trans hg

/-- The fields of one model that a difference removes, renames or changes are distinct. -/
theorem nodup_subjects_about (n : String) :
    (((ofStates baseline live).about n).changes.filterMap Change.subject?).Nodup := by
  have hpart := part_about baseline live n
  generalize (ofStates baseline live).about n = d at hpart
  cases hpart with
  | absent => exact .nil
  | created m waiting =>
    have hnone : (Creation.create m waiting).changes.filterMap Change.subject? = [] := by
      rw [Creation.changes_create]
      simp [List.filterMap_eq_nil_iff, or_imp, forall_and, Change.subject?]
    rw [hnone]
    exact .nil
  | kept old new hold hnew =>
    exact Revision.nodup_subjects (hb.of_model? hold) (hl.of_model? hnew)
  | deleted m old new =>
    obtain rfl := State.name_of_model? old
    have hfields : (about m.name (Deletion.diff (deletedModelsOf baseline live))).changes.filterMap Change.subject? =
        ((Deletion.fieldsOf (deletedModelsOf baseline live) m.name).map Field.name).map (m.name, ·) := by
      rw [Deletion.changes_about_diff nodup_deleted (mem_deleted.2 ⟨old, new⟩)]
      simp [List.filterMap_map, Function.comp_def, Change.subject?]
    rw [hfields]
    exact (Deletion.nodup_fieldsOf nodup_deleted m.name).map fun _ _ h => congrArg Prod.snd h

/-- Each field of the baseline is removed, renamed or changed once at most. -/
theorem nodup_subjects : ((ofStates baseline live).changes.filterMap Change.subject?).Nodup := by
  refine List.pairwise_filterMap.2 (List.pairwise_iff_forall_sublist.2 fun {a b} hab x hx y hy => ?_)
  rintro rfl
  -- two changes of one field concern one model, and its part of the difference holds both
  have hpart : [a, b].Sublist ((ofStates baseline live).about x.1).changes := by
    rw [← concerning_changes, concerning]
    have hboth : [a, b].filter (·.model? == some x.1) = [a, b] := by
      simp [model?_of_subject? hx, model?_of_subject? hy]
    exact hboth ▸ hab.filter _
  have honce := hpart.filterMap Change.subject?
  simp only [List.filterMap_cons, hx, hy, List.filterMap_nil] at honce
  simpa using (nodup_subjects_about hb hl x.1).sublist honce

/-- What is removed, renamed or changed are fields of the baseline. -/
theorem hasField_of_mem_subjects {x : String × String} (h : x ∈ (ofStates baseline live).changes.filterMap subject?) :
    baseline.HasField x.1 x.2 := by
  obtain ⟨c, hc, hx⟩ := List.mem_filterMap.1 h
  cases c with
  | removeField n f =>
    cases hx
    obtain ⟨⟨old, hold, hf⟩, -⟩ := of_mem_removeField hb hc
    exact ⟨old, f, hold, hf⟩
  | changeField n k source target =>
    cases hx
    obtain ⟨⟨old, hold, hf⟩, -⟩ := of_mem_changeField hc
    exact ⟨old, source, hold, hf⟩
  | renameField n source target =>
    cases hx
    obtain ⟨old, new, hold, hnew, hr⟩ := renamed?_of_mem_renameField hc
    obtain ⟨f, g, hrenamed⟩ := Revision.exists_isRenamed (hb.of_model? hold) (hl.of_model? hnew) hr
    exact ⟨old, f, hold, hrenamed.found⟩
  | createModel | deleteModel | addField | addIndex | removeIndex | runData => cases hx

/-- A difference drops data when a model goes, or one that stays loses a field for good. -/
theorem isDestructive_ofStates_iff : (ofStates baseline live).isDestructive = true ↔
    (∃ n, (baseline.model? n).isSome = true ∧ live.model? n = none) ∨
      ∃ n old new f, baseline.model? n = some old ∧ live.model? n = some new ∧ Revision.Loses old new f ∧
        ¬ Revision.IsSoleRenaming old new := by
  rw [isDestructive, List.any_eq_true]
  constructor
  · rintro ⟨c, hc, hdrops⟩
    cases c with
    | deleteModel n => exact .inl ⟨n, deleteModel_mem_iff.1 hc⟩
    | removeField n f =>
      obtain ⟨⟨old, hold, -⟩, -⟩ := of_mem_removeField hb hc
      cases hnew : live.model? n with
      | none => exact .inl ⟨n, Option.isSome_of_eq_some hold, hnew⟩
      | some new => exact .inr ⟨n, old, new, f, hold, hnew, (removeField_mem_iff hb hl hold hnew).1 hc⟩
    | createModel | addField | changeField | renameField | addIndex | removeIndex | runData => cases hdrops
  · rintro (⟨n, hn⟩ | ⟨n, old, new, f, hold, hnew, hf⟩)
    · exact ⟨_, deleteModel_mem_iff.2 hn, rfl⟩
    · exact ⟨_, (removeField_mem_iff hb hl hold hnew).2 hf, rfl⟩

end WellFormed

end States

/-! ### Live models -/

/-- A difference takes from a schema nothing that live models have, brings it nothing that it has itself, and takes up
each field of it once at most. -/
structure Sparing (baseline : State) (live : List Model) (d : Diff) : Prop where
  deletes : ∀ n, .deleteModel n ∈ d.changes → ∀ m ∈ live, m.name ≠ n
  removes : ∀ n f, .removeField n f ∈ d.changes → (∀ m ∈ live, m.name ≠ n) ∨
    (∃ m ∈ live, m.name = n ∧ m.field? f.name = none) ∧ ∀ target, .renameField n f.name target ∉ d.changes
  creates : ∀ n fields, .createModel n fields ∈ d.changes → baseline.model? n = none
  adds : ∀ n f, .addField n f ∈ d.changes → ¬ baseline.HasField n f.name
  subjects : ∀ x ∈ d.changes.filterMap Change.subject?, baseline.HasField x.1 x.2
  once : (d.changes.filterMap Change.subject?).Nodup
  apart : ∀ n, (∀ f g, .removeField n f ∈ d.changes → .addField n g ∈ d.changes → f.name ≠ g.name) ∧
    ∀ fields, .deleteModel n ∈ d.changes → .createModel n fields ∉ d.changes

section Live
variable {baseline s : State} {live : List Model} {d : Diff}

theorem sparing_ofStates (hb : baseline.WellFormed) (hlive : State.IsLive live s) :
    Sparing baseline live (ofStates baseline s) where
  deletes n h := (hlive.model?_eq_none_iff).1 (deleteModel_mem_iff.1 h).2
  removes n f h := by
    obtain ⟨⟨old, hold, -⟩, -⟩ := of_mem_removeField hb h
    cases hnew : s.model? n with
    | none => exact .inl ((hlive.model?_eq_none_iff).1 hnew)
    | some new =>
      obtain ⟨hlost, hrenamed⟩ := (removeField_mem_iff hb hlive.wellFormed hold hnew).1 h
      obtain ⟨hin, hname⟩ := (hlive.model?_eq_some_iff).1 hnew
      refine .inr ⟨⟨new, hin, hname, hlost.2⟩, fun target ht => hrenamed ?_⟩
      obtain ⟨old', new', hold', hnew', hsole⟩ := of_mem_renameField hb hlive.wellFormed ht
      cases hold.symm.trans hold'
      cases hnew.symm.trans hnew'
      exact hsole
  creates n fields h := (of_mem_createModel h).1
  adds n f h := not_hasField_of_mem_addField hlive.wellFormed h
  subjects x h := hasField_of_mem_subjects hb hlive.wellFormed h
  once := nodup_subjects hb hlive.wellFormed
  apart n := by
    constructor
    · intro f g hremove hadd hname
      have hfield : baseline.HasField n f.name := hasField_of_mem_subjects (x := (n, f.name)) hb hlive.wellFormed
        (List.mem_filterMap.2 ⟨_, hremove, rfl⟩)
      exact not_hasField_of_mem_addField hlive.wellFormed hadd (hname ▸ hfield)
    · intro fields hdelete hcreate
      obtain ⟨hsome, -⟩ := deleteModel_mem_iff.1 hdelete
      rw [(of_mem_createModel hcreate).1] at hsome
      cases hsome

/-- **What stays is left alone.** A difference with live models takes from the schema only what they do not have, and
each field once at most. It drops data exactly when they lack a model, or one of them lacks a field of its past that
is not its one lost field under another name. -/
theorem sparing_of_between (hb : baseline.Reachable) (h : between baseline live = .ok d) :
    Sparing baseline live d ∧
      (d.isDestructive = true ↔
        (∃ n, (baseline.model? n).isSome = true ∧ ∀ m ∈ live, m.name ≠ n) ∨
          ∃ new ∈ live, ∃ old, baseline.model? new.name = some old ∧
            (∃ f, Revision.Loses old new f) ∧ ¬ Revision.IsSoleRenaming old new) := by
  obtain ⟨s, hlive, -, rfl⟩ := eq_ofStates_of_between h
  refine ⟨sparing_ofStates hb.wellFormed hlive, ?_⟩
  rw [isDestructive_ofStates_iff hb.wellFormed hlive.wellFormed]
  simp only [hlive.model?_eq_none_iff, hlive.model?_eq_some_iff]
  refine or_congr_right ⟨?_, ?_⟩
  · rintro ⟨n, old, new, f, hold, ⟨hnew, rfl⟩, hlost, hrenamed⟩
    exact ⟨new, hnew, old, hold, ⟨f, hlost⟩, hrenamed⟩
  · rintro ⟨new, hnew, old, hold, ⟨f, hlost⟩, hrenamed⟩
    exact ⟨_, old, new, f, hold, ⟨hnew, rfl⟩, hlost, hrenamed⟩

end Live

/-- A model and a field that are gone are lost data, and a field under another name is none. -/
theorem sparing_of_between_sample :
    let baseline := State.ofModels (sampleUsers sampleTexts)
    let fewer := [Model.ofFields "user" [{ name := "name", type := .text }, .autoKey "id"]]
    let renamed := sampleUsers (sampleTexts.map fun f => if f.name = "note" then { f with name := "remark" } else f)
    baseline.Reachable ∧ (∃ d, between baseline fewer = .ok d ∧ Sparing baseline fewer d ∧ d.isDestructive = true) ∧
      ∃ d, between baseline renamed = .ok d ∧ Sparing baseline renamed d ∧ d.isDestructive = false := by
  intro baseline fewer renamed
  have hreached : baseline.Reachable :=
    ⟨[.createModel "user" (sampleTexts ++ [.autoKey "id"]), .createModel "tag" [.autoKey "id"]], rfl⟩
  obtain ⟨d, hd⟩ : ∃ d, between baseline fewer = .ok d := ⟨_, rfl⟩
  obtain ⟨e, he⟩ : ∃ e, between baseline renamed = .ok e := ⟨_, rfl⟩
  obtain ⟨hsparing, hdrops⟩ := sparing_of_between hreached hd
  obtain ⟨hsparing', -⟩ := sparing_of_between hreached he
  refine ⟨hreached, ⟨d, hd, hsparing, hdrops.2 (.inl ⟨"tag", by decide, by decide⟩)⟩, e, he, hsparing', ?_⟩
  cases he
  decide

end Diff

end Schemata
