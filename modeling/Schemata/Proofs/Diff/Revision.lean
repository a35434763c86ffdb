import Schemata.Diff.Revision
import Schemata.Proofs.Change.Batches
import Schemata.Proofs.Change.WellFormed
import Schemata.Proofs.Schema.Alike

/-! The changes of a model that is on both sides.

Between the first changes, which drop indexes and rename a field, and the others, the model is in a state
that does not show whether a field was renamed (`Carried`). From there on one argument serves for both:
the rest of the changes applies, and what it leaves is alike to the new model. -/
namespace Schemata.Revision
open Change

variable {old new : Model}

/-! ### The lists of the difference -/

theorem mem_removedFields {f : Field} (hold : old.WellFormed) :
    f ∈ removedFields old new ↔ old.field? f.name = some f ∧ new.fields.contains f.name = false := by
  simp only [removedFields, List.mem_filter, hold.mem_values_iff, Bool.not_eq_eq_eq_not, Bool.not_true]

theorem nodup_removedFields (hold : old.WellFormed) :
    ((removedFields old new).map Field.name).Nodup :=
  (List.filter_sublist.map Field.name).nodup hold.nodup_names

/-- The revision of a field that is on both sides and differs. -/
def revision? (new : Model) (e : String × Field) : Option Revision :=
  match new.field? e.1 with
  | some after => if e.2.same after then none else some ⟨e.1, e.2, after⟩
  | none => none

theorem changedFields_eq (old new : Model) :
    changedFields old new = old.fields.entries.filterMap (revision? new) := rfl

theorem revision?_eq_some_iff {e : String × Field} {r : Revision} :
    revision? new e = some r ↔ e = (r.field, r.source) ∧ new.field? r.field = some r.target ∧
      r.source.same r.target = false := by
  unfold revision?
  constructor
  · intro h
    split at h
    · rename_i after hafter
      split at h
      · cases h
      · rename_i hdiffer
        cases h
        exact ⟨rfl, hafter, Bool.eq_false_iff.2 hdiffer⟩
    · cases h
  · rintro ⟨rfl, htarget, hdiffer⟩
    simp [htarget, hdiffer]

theorem mem_changedFields {r : Revision} :
    r ∈ changedFields old new ↔ old.field? r.field = some r.source ∧
      new.field? r.field = some r.target ∧ r.source.same r.target = false := by
  simp only [changedFields_eq, List.mem_filterMap, revision?_eq_some_iff]
  constructor
  · rintro ⟨e, he, rfl, hrest⟩
    exact ⟨Keyed.get?_eq_some_iff.2 he, hrest⟩
  · rintro ⟨hsource, hrest⟩
    exact ⟨_, Keyed.get?_eq_some_iff.1 hsource, rfl, hrest⟩

theorem nodup_changedFields : ((changedFields old new).map Revision.field).Nodup := by
  rw [changedFields_eq]
  refine List.pairwise_map.2 (List.pairwise_filterMap.2 ?_)
  refine (List.pairwise_map.1 old.fields.distinct).imp fun {e e'} hne r hr x hx => ?_
  rw [(revision?_eq_some_iff.1 hr).1, (revision?_eq_some_iff.1 hx).1] at hne
  exact hne

theorem renaming?_eq_some_iff {removed added : List Field} {r : Renaming} :
    renaming? removed added = some r ↔ ∃ source target, removed = [source] ∧ added = [target] ∧
      source.sameShape target = true ∧ r = ⟨source.name, target.name⟩ := by
  constructor
  · intro h
    unfold renaming? at h
    split at h
    · split at h <;> cases h
      exact ⟨_, _, rfl, rfl, by assumption, rfl⟩
    · cases h
  · rintro ⟨source, target, rfl, rfl, hshape, rfl⟩
    simp [renaming?, hshape]

/-- The indexes of the old model that the new one does not have. -/
def outdated (old new : Model) (renamed : Option Renaming) : List Index :=
  old.indexes.toList.filter fun i => !new.indexes.contains (carry renamed i)

/-- The indexes of the new model that the old one does not have. -/
def missing (old new : Model) (renamed : Option Renaming) : List Index :=
  new.indexes.toList.filter fun i =>
    !(Ascending.ofList (old.indexes.toList.map (carry renamed)) : Indexes).contains i

theorem mem_outdated {renamed : Option Renaming} {i : Index} :
    i ∈ outdated old new renamed ↔
      old.indexes.contains i = true ∧ new.indexes.contains (carry renamed i) = false := by
  rw [outdated, List.mem_filter, Ascending.contains_iff_mem, Bool.not_eq_eq_eq_not, Bool.not_true]

theorem mem_missing {renamed : Option Renaming} {i : Index} :
    i ∈ missing old new renamed ↔
      new.indexes.contains i = true ∧
        ¬ ∃ j, old.indexes.contains j = true ∧ carry renamed j = i := by
  rw [missing, List.mem_filter, Ascending.contains_iff_mem, Bool.not_eq_eq_eq_not, Bool.not_true,
    ← Bool.not_eq_true, Ascending.contains_ofList, List.map_id, List.mem_map]
  simp only [Ascending.contains_iff_mem]

theorem contains_withoutOutdated {renamed : Option Renaming} {i : Index} :
    (old.withoutIndexes (outdated old new renamed)).indexes.contains i = true ↔
      old.indexes.contains i = true ∧ new.indexes.contains (carry renamed i) = true := by
  rw [Model.contains_withoutIndexes, mem_outdated, not_and, Bool.not_eq_false]
  exact ⟨fun ⟨h, hi⟩ => ⟨hi, h hi⟩, fun ⟨hi, h⟩ => ⟨fun _ => h, hi⟩⟩

/-! ### The model once its fields have their new names -/

/-- The model `m` when indexes were dropped and a field was renamed: `added` and `removed` are the fields
that the rest of the changes adds and removes. -/
structure Carried (old new : Model) (renamed : Option Renaming) (added removed : List Field)
    (m : Model) : Prop where
  name : m.name = new.name
  indexes : ∀ i, m.indexes.contains i = true ↔
    (∃ j, old.indexes.contains j = true ∧ carry renamed j = i) ∧ new.indexes.contains i = true
  kept : ∀ k, new.fields.contains k = true → old.fields.contains k = true → m.field? k = old.field? k
  gained : ∀ g, new.field? g.name = some g → old.fields.contains g.name = false →
    g ∈ added ∨ ∃ f, m.field? g.name = some f ∧ f.same g = true
  lost : ∀ k, new.fields.contains k = false → m.fields.contains k = true → k ∈ removed.map Field.name
  added_nodup : (added.map Field.name).Nodup
  removed_nodup : (removed.map Field.name).Nodup
  of_added : ∀ f ∈ added, new.field? f.name = some f ∧ old.fields.contains f.name = false ∧
    m.fields.contains f.name = false
  of_removed : ∀ f ∈ removed, m.fields.contains f.name = true ∧ new.fields.contains f.name = false

theorem carried_of_none (hold : old.WellFormed) (hnew : new.WellFormed) (hname : old.name = new.name) :
    Carried old new none (removedFields new old) (removedFields old new)
      (old.withoutIndexes (outdated old new none)) where
  name := hname
  indexes i := by
    rw [contains_withoutOutdated]
    simp only [carry, exists_eq_right]
  kept k _ _ := rfl
  gained g hg hlack := .inl ((mem_removedFields hnew).2 ⟨hg, hlack⟩)
  lost k hlack hc := by
    obtain ⟨f, hf⟩ := Option.isSome_iff_exists.1 hc
    obtain rfl := hold.named k f hf
    exact List.mem_map_of_mem ((mem_removedFields hold).2 ⟨hf, hlack⟩)
  added_nodup := nodup_removedFields hnew
  removed_nodup := nodup_removedFields hold
  of_added f hf := by
    obtain ⟨hfield, hlack⟩ := (mem_removedFields hnew).1 hf
    exact ⟨hfield, hlack, hlack⟩
  of_removed f hf := by
    obtain ⟨hfield, hlack⟩ := (mem_removedFields hold).1 hf
    exact ⟨Option.isSome_of_eq_some hfield, hlack⟩

theorem contains_renamed {r : Renaming} {i : Index} :
    ((old.withoutIndexes (outdated old new (some r))).renamed r.source r.target).indexes.contains i
        = true ↔
      (∃ j, old.indexes.contains j = true ∧ carry (some r) j = i) ∧ new.indexes.contains i = true := by
  rw [Model.contains_renamed]
  simp only [contains_withoutOutdated, carry]
  constructor
  · rintro ⟨j, ⟨hj, hc⟩, rfl⟩
    exact ⟨⟨j, hj, rfl⟩, hc⟩
  · rintro ⟨⟨j, hj, rfl⟩, hc⟩
    exact ⟨j, ⟨hj, hc⟩, rfl⟩

theorem carried_of_some {source target : Field} (hold : old.WellFormed) (hnew : new.WellFormed)
    (hname : old.name = new.name) (hremoved : removedFields old new = [source])
    (hadded : removedFields new old = [target]) (hshape : source.sameShape target = true) :
    Carried old new (some ⟨source.name, target.name⟩) [] []
      ((old.withoutIndexes (outdated old new (some ⟨source.name, target.name⟩))).renamed
        source.name target.name) := by
  obtain ⟨hsource, hgone⟩ := (mem_removedFields hold).1 (hremoved ▸ List.mem_singleton.2 rfl)
  obtain ⟨htarget, hfresh⟩ := (mem_removedFields hnew).1 (hadded ▸ List.mem_singleton.2 rfl)
  have hfield : ∀ k, ((old.withoutIndexes (outdated old new (some ⟨source.name, target.name⟩))).renamed
      source.name target.name).field? k = if k = target.name then
        (old.field? source.name).map (·.rename target.name)
      else if k = source.name then none else old.field? k :=
    Model.field?_renamed (Keyed.contains_eq_false_iff.1 hfresh)
  constructor
  case name => exact hname
  case indexes => exact fun i => contains_renamed
  case kept =>
    intro k hk hk'
    have ht : ¬ k = target.name := by
      rintro rfl
      rw [hfresh] at hk'
      cases hk'
    have hs : ¬ k = source.name := by
      rintro rfl
      rw [hgone] at hk
      cases hk
    rw [hfield, if_neg ht, if_neg hs]
  case gained =>
    intro g hg hlack
    have hmem := (mem_removedFields hnew).2 ⟨hg, hlack⟩
    rw [hadded, List.mem_singleton] at hmem
    rw [hmem, hfield, if_pos rfl, hsource]
    exact .inr ⟨_, rfl, hshape⟩
  case lost =>
    intro k hlack hc
    obtain ⟨f, hf⟩ := Option.isSome_iff_exists.1 hc
    rw [show Keyed.get? _ k = _ from hfield k] at hf
    split at hf
    · rename_i hk
      rw [hk, Keyed.contains_eq_isSome, show new.fields.get? target.name = _ from htarget] at hlack
      cases hlack
    · split at hf
      · cases hf
      · rename_i hs
        obtain rfl := hold.named k f hf
        have hmem := (mem_removedFields hold).2 ⟨hf, hlack⟩
        rw [hremoved, List.mem_singleton] at hmem
        exact absurd (congrArg Field.name hmem) hs
  case added_nodup => exact List.nodup_nil
  case removed_nodup => exact List.nodup_nil
  case of_added =>
    intro f hf
    cases hf
  case of_removed =>
    intro f hf
    cases hf

/-! ### The rest of the changes -/

namespace Carried
variable {renamed : Option Renaming} {added removed : List Field} {m : Model}

/-- What the rest of the changes makes of the model. -/
def finish (m : Model) (old new : Model) (renamed : Option Renaming) (added removed : List Field) :
    Model :=
  (((m.revised (changedFields old new)).withFields added).withIndexes
    (missing old new renamed)).withoutFields removed

theorem not_mem_changed {k : String} (h : old.fields.contains k = false ∨ new.fields.contains k = false) :
    k ∉ (changedFields old new).map Revision.field := by
  intro hk
  obtain ⟨r, hr, rfl⟩ := List.mem_map.1 hk
  obtain ⟨hsource, htarget, -⟩ := mem_changedFields.1 hr
  rcases h with h | h
  · rw [Keyed.contains_eq_isSome, show old.fields.get? _ = _ from hsource] at h
    cases h
  · rw [Keyed.contains_eq_isSome, show new.fields.get? _ = _ from htarget] at h
    cases h

theorem not_mem_added (h : Carried old new renamed added removed m) {k : String}
    (hk : m.fields.contains k = true) : k ∉ added.map Field.name := by
  intro hin
  obtain ⟨f, hf, rfl⟩ := List.mem_map.1 hin
  rw [(h.of_added f hf).2.2] at hk
  cases hk

theorem not_mem_removed (h : Carried old new renamed added removed m) {k : String}
    (hk : new.fields.contains k = true) : k ∉ removed.map Field.name := by
  intro hin
  obtain ⟨f, hf, rfl⟩ := List.mem_map.1 hin
  rw [(h.of_removed f hf).2] at hk
  cases hk

theorem contains_of_new (h : Carried old new renamed added removed m) (hnew : new.WellFormed)
    {k : String} (hk : new.fields.contains k = true) :
    k ∈ added.map Field.name ∨ m.fields.contains k = true := by
  cases hold : old.fields.contains k with
  | true =>
    refine .inr ?_
    rw [Keyed.contains_eq_isSome, show m.fields.get? k = _ from h.kept k hk hold]
    exact hold
  | false =>
    obtain ⟨g, hg⟩ := Option.isSome_iff_exists.1 hk
    obtain rfl := hnew.named k g hg
    rcases h.gained g hg hold with hin | ⟨f, hf, -⟩
    · exact .inl (List.mem_map_of_mem hin)
    · exact .inr (Option.isSome_of_eq_some hf)

theorem not_mem_changed_of_same {k : String} {f g : Field} (hf : old.field? k = some f)
    (hg : new.field? k = some g) (hsame : f.same g = true) :
    k ∉ (changedFields old new).map Revision.field := by
  intro hin
  obtain ⟨r, hr, rfl⟩ := List.mem_map.1 hin
  obtain ⟨hsource, htarget, hdiffer⟩ := mem_changedFields.1 hr
  cases hf.symm.trans hsource
  cases hg.symm.trans htarget
  rw [hsame] at hdiffer
  cases hdiffer

theorem contains_grown {k : String} :
    ((m.revised (changedFields old new)).withFields added).fields.contains k = true ↔
      k ∈ added.map Field.name ∨ m.fields.contains k = true := by
  rw [Model.contains_withFields, Model.contains_revised]

/-- With the missing indexes, the model has the indexes of the new one. -/
theorem contains_withMissing (h : Carried old new renamed added removed m) {g : Model}
    (hg : g.indexes = m.indexes) {i : Index} :
    (g.withIndexes (missing old new renamed)).indexes.contains i = true ↔
      new.indexes.contains i = true := by
  rw [Model.contains_withIndexes, mem_missing, hg, h.indexes]
  constructor
  · rintro (⟨hi, -⟩ | ⟨-, hi⟩)
    · exact hi
    · exact hi
  · intro hi
    by_cases hj : ∃ j, old.indexes.contains j = true ∧ carry renamed j = i
    · exact .inr ⟨hj, hi⟩
    · exact .inl ⟨hi, hj⟩

theorem effects_changed (h : Carried old new renamed added removed m) (hnew : new.WellFormed)
    (hcomp : ∀ r ∈ changedFields old new, r.source.Comparable) (n : String) :
    effects ((changedFields old new).map fun r => .changeField n r.field r.source r.target) (some m) =
      .ok (some (m.revised (changedFields old new))) := by
  refine effects_changeFields nodup_changedFields (fun r hr => ?_) fun r hr => ?_
  · exact hnew.named _ _ (mem_changedFields.1 hr).2.1
  · obtain ⟨hsource, htarget, -⟩ := mem_changedFields.1 hr
    refine ⟨r.source, ?_, Field.same_self (hcomp r hr)⟩
    rw [h.kept _ (Option.isSome_of_eq_some htarget) (Option.isSome_of_eq_some hsource)]
    exact hsource

theorem effects_added (h : Carried old new renamed added removed m) (n : String) :
    effects (added.map (.addField n)) (some (m.revised (changedFields old new))) =
      .ok (some ((m.revised (changedFields old new)).withFields added)) := by
  refine effects_addFields h.added_nodup fun f hf => ?_
  rw [Model.contains_revised]
  exact (h.of_added f hf).2.2

theorem effects_missing (h : Carried old new renamed added removed m) (hnew : new.WellFormed)
    (n : String) :
    effects ((missing old new renamed).map (.addIndex n))
        (some ((m.revised (changedFields old new)).withFields added)) =
      .ok (some (((m.revised (changedFields old new)).withFields added).withIndexes
        (missing old new renamed))) := by
  refine effects_addIndexes (List.filter_sublist.nodup new.indexes.nodup) (fun i hi => ?_)
    fun i hi k hk => ?_
  · refine Bool.eq_false_iff.2 fun hc => (mem_missing.1 hi).2 ?_
    exact ((h.indexes i).1 hc).1
  · have hin := Ascending.contains_iff_mem.1 (mem_missing.1 hi).1
    exact contains_grown.2 (h.contains_of_new hnew (hnew.indexed i hin k hk))

theorem effects_removed (h : Carried old new renamed added removed m) (hnew : new.WellFormed)
    (n : String) :
    effects (removed.map (.removeField n)) (some
        (((m.revised (changedFields old new)).withFields added).withIndexes (missing old new renamed))) =
      .ok (some (finish m old new renamed added removed)) := by
  refine effects_removeFields h.removed_nodup (fun f hf => ?_) fun i hi f hf => ?_
  · exact contains_grown.2 (.inr (h.of_removed f hf).1)
  · -- the indexes are those of the new model by now, which does not have the field
    have hin : new.indexes.contains i = true :=
      (h.contains_withMissing rfl).1 (Ascending.contains_iff_mem.2 hi)
    refine Bool.eq_false_iff.2 fun href => ?_
    have := hnew.indexed i (Ascending.contains_iff_mem.1 hin) f.name (List.contains_iff_mem.1 href)
    rw [(h.of_removed f hf).2] at this
    cases this

/-- The rest of the changes applies. -/
theorem effects_finish (h : Carried old new renamed added removed m) (hnew : new.WellFormed)
    (hcomp : ∀ r ∈ changedFields old new, r.source.Comparable) (n : String) :
    effects
      ((changedFields old new).map (fun r => .changeField n r.field r.source r.target) ++
        added.map (.addField n) ++ (missing old new renamed).map (.addIndex n) ++
        removed.map (.removeField n)) (some m) =
      .ok (some (finish m old new renamed added removed)) := by
  have hadded := (effects_append (h.effects_changed hnew hcomp n)).trans (h.effects_added n)
  have hindexed := (effects_append hadded).trans (h.effects_missing hnew n)
  exact (effects_append hindexed).trans (h.effects_removed hnew n)

theorem field?_finish {k : String} : (finish m old new renamed added removed).field? k =
    if k ∈ removed.map Field.name then none
    else ((m.revised (changedFields old new)).withFields added).field? k :=
  Model.field?_withoutFields removed k

/-- A field that the new model lacks is not left. -/
theorem finish_lost (h : Carried old new renamed added removed m) {k : String}
    (hk : new.field? k = none) : (finish m old new renamed added removed).field? k = none := by
  have hlack : new.fields.contains k = false := Keyed.contains_eq_false_iff.2 hk
  have hadd : k ∉ added.map Field.name := by
    intro hin
    obtain ⟨f, hf, rfl⟩ := List.mem_map.1 hin
    rw [(h.of_added f hf).1] at hk
    cases hk
  rw [field?_finish, Model.field?_withFields_of_not_mem hadd,
    Model.field?_revised_of_not_mem (not_mem_changed (.inr hlack))]
  by_cases hin : k ∈ removed.map Field.name
  · exact if_pos hin
  · rw [if_neg hin]
    refine Keyed.contains_eq_false_iff.1 (Bool.eq_false_iff.2 fun hc => ?_)
    exact hin (h.lost k hlack hc)

/-- A field of both models is left as the new model has it. -/
theorem finish_kept (h : Carried old new renamed added removed m)
    {k : String} {f g : Field} (hf : old.field? k = some f) (hg : new.field? k = some g) :
    ∃ f', (finish m old new renamed added removed).field? k = some f' ∧ f'.Alike g := by
  have hhas : new.fields.contains k = true := Option.isSome_of_eq_some hg
  have hm : m.field? k = some f := (h.kept k hhas (Option.isSome_of_eq_some hf)).trans hf
  have hmc : m.fields.contains k = true := Option.isSome_of_eq_some hm
  rw [field?_finish, if_neg (h.not_mem_removed hhas),
    Model.field?_withFields_of_not_mem (h.not_mem_added hmc)]
  cases hsame : f.same g with
  | true =>
    rw [Model.field?_revised_of_not_mem (not_mem_changed_of_same hf hg hsame), hm]
    exact ⟨f, rfl, Field.alike_of_same hsame⟩
  | false =>
    have hin : ⟨k, f, g⟩ ∈ changedFields old new := mem_changedFields.2 ⟨hf, hg, hsame⟩
    have hnow := Model.field?_revised_of_mem nodup_changedFields hin hmc
    exact ⟨g, hnow, .refl g⟩

/-- A field that the old model lacks is left as the new model has it. -/
theorem finish_gained (h : Carried old new renamed added removed m)
    {g : Field} (hlack : old.fields.contains g.name = false) (hg : new.field? g.name = some g) :
    ∃ f', (finish m old new renamed added removed).field? g.name = some f' ∧ f'.Alike g := by
  rw [field?_finish, if_neg (h.not_mem_removed (Option.isSome_of_eq_some hg))]
  rcases h.gained g hg hlack with hin | ⟨f, hf, hsame⟩
  · rw [Model.field?_withFields_of_mem h.added_nodup hin]
    exact ⟨g, rfl, .refl g⟩
  · rw [Model.field?_withFields_of_not_mem (h.not_mem_added (Option.isSome_of_eq_some hf)),
      Model.field?_revised_of_not_mem (not_mem_changed (.inl hlack)), hf]
    exact ⟨f, rfl, Field.alike_of_same hsame⟩

/-- What the rest of the changes leaves is alike to the new model. -/
theorem finish_alike (h : Carried old new renamed added removed m) (hnew : new.WellFormed) :
    (finish m old new renamed added removed).Alike new := by
  refine ⟨h.name, fun k => ?_, Ascending.ext_contains fun i => h.contains_withMissing rfl⟩
  cases hk : new.field? k with
  | none =>
    rw [h.finish_lost hk]
    exact .none
  | some g =>
    have hleft : ∃ f', (finish m old new renamed added removed).field? k = some f' ∧ f'.Alike g := by
      cases hold : old.field? k with
      | some f => exact h.finish_kept hold hk
      | none =>
        obtain rfl := hnew.named k g hk
        exact h.finish_gained (Keyed.contains_eq_false_iff.2 hold) hk
    obtain ⟨f', hf', halike⟩ := hleft
    rw [hf']
    exact .some halike

end Carried

/-! ### The whole revision -/

/-- The field of the old model that the new one has under another name. -/
def renamed? (old new : Model) : Option Renaming :=
  renaming? (removedFields old new) (removedFields new old)

/-- The fields of `old` that `new` has under no name. -/
def lostFields (old new : Model) (renamed : Option Renaming) : List Field :=
  if renamed.isSome then [] else removedFields old new

theorem changes_diff (old new : Model) :
    (diff old new).changes =
      (outdated old new (renamed? old new)).map (.removeIndex new.name) ++
      (renamed? old new).toList.map (fun r => .renameField new.name r.source r.target) ++
      (changedFields old new).map (fun r => .changeField new.name r.field r.source r.target) ++
      (lostFields new old (renamed? old new)).map (.addField new.name) ++
      (missing old new (renamed? old new)).map (.addIndex new.name) ++
      (lostFields old new (renamed? old new)).map (.removeField new.name) := by
  rw [renamed?]
  simp only [Diff.changes, diff, lostFields, outdated, missing]
  generalize renaming? (removedFields old new) (removedFields new old) = renamed
  cases renamed <;> simp [Function.comp_def]

theorem exists_carried (hold : old.WellFormed) (hnew : new.WellFormed) (hname : old.name = new.name) :
    ∃ m, effects
        ((outdated old new (renamed? old new)).map (.removeIndex new.name) ++
          (renamed? old new).toList.map fun r => .renameField new.name r.source r.target)
        (some old) = .ok (some m) ∧
      Carried old new (renamed? old new) (lostFields new old (renamed? old new))
        (lostFields old new (renamed? old new)) m := by
  have hdrop : effects ((outdated old new (renamed? old new)).map (.removeIndex new.name)) (some old) =
      .ok (some (old.withoutIndexes (outdated old new (renamed? old new)))) :=
    effects_removeIndexes (List.filter_sublist.nodup old.indexes.nodup) fun i hi =>
      (mem_outdated.1 hi).1
  rw [effects_append hdrop]
  cases hr : renamed? old new with
  | none => exact ⟨_, rfl, carried_of_none hold hnew hname⟩
  | some r =>
    obtain ⟨source, target, hremoved, hadded, hshape, rfl⟩ := renaming?_eq_some_iff.1 hr
    refine ⟨_, ?_, carried_of_some hold hnew hname hremoved hadded hshape⟩
    obtain ⟨hsource, -⟩ := (mem_removedFields hold).1 (hremoved ▸ List.mem_singleton.2 rfl)
    obtain ⟨-, hfresh⟩ := (mem_removedFields hnew).1 (hadded ▸ List.mem_singleton.2 rfl)
    have hrename := Model.renameField_eq_ok
      (m := old.withoutIndexes (outdated old new (some ⟨source.name, target.name⟩)))
      (Option.isSome_of_eq_some hsource) hfresh
    exact effects_cons (congrArg (Except.map some) hrename)

/-- The revision of a model applies to the old model and leaves what is alike to the new one, unless it
changes a field whose default differs from itself. -/
theorem effects_diff (hold : old.WellFormed) (hnew : new.WellFormed) (hname : old.name = new.name)
    (hcomp : ∀ r ∈ changedFields old new, r.source.Comparable) :
    ∃ m, effects (diff old new).changes (some old) = .ok (some m) ∧ m.Alike new := by
  obtain ⟨m, hm, h⟩ := exists_carried hold hnew hname
  refine ⟨_, ?_, h.finish_alike hnew⟩
  have hall := (effects_append hm).trans (h.effects_finish hnew hcomp new.name)
  rw [changes_diff]
  simpa only [List.append_assoc] using hall

end Schemata.Revision
