import Schemata.Proofs.Change.Indexes
import Schemata.Proofs.Change.Paired
import Schemata.Proofs.Ddl.Collision

/-! Indexes while a difference is carried out.

A revision drops indexes first and declares them last, with its fields changed in between. So when the old and the
new model have every index once, all models on the way have. The same is true of models that are created or
deleted, and so of the whole schema. -/
namespace Schemata

/-! ### Models that are created or deleted -/

namespace Change
variable {whole m : Model} {c : Change} {cs : List Change} {o : Option Model} {i : Index}

/-- A declared index was declared before, or the change declares it. -/
theorem declared_of_effect (hc : c.Draws whole) (h : c.effect o = .ok (some m))
    (hi : m.indexes.contains i = true) :
    (∃ m₀, o = some m₀ ∧ m₀.indexes.contains i = true) ∨ ∃ n, c = .addIndex n i := by
  cases turns_of_effect h with
  | createModel => cases hi
  | changeField | renameField | runData => exact hc.elim
  | addField hm =>
    obtain ⟨-, rfl⟩ := Model.of_addField hm
    exact .inl ⟨_, rfl, hi⟩
  | removeField hm =>
    obtain ⟨-, rfl⟩ := Model.of_removeField hm
    exact .inl ⟨_, rfl, hi⟩
  | @addIndex n _ _ _ hm =>
    obtain rfl := Model.of_addIndex hm
    rcases Model.contains_withIndexes.1 hi with hi | hi
    · exact .inr ⟨n, by rw [List.mem_singleton.1 hi]⟩
    · exact .inl ⟨_, rfl, hi⟩
  | removeIndex hm =>
    obtain rfl := Model.of_removeIndex hm
    exact .inl ⟨_, rfl, (Model.contains_withoutIndexes.1 hi).2⟩

theorem declared_of_effects (hc : ∀ c ∈ cs, c.Draws whole) (h : effects cs o = .ok (some m))
    (hi : m.indexes.contains i = true) :
    (∃ m₀, o = some m₀ ∧ m₀.indexes.contains i = true) ∨ ∃ n, .addIndex n i ∈ cs := by
  induction cs generalizing o with
  | nil =>
    cases h
    exact .inl ⟨m, rfl, hi⟩
  | cons c rest ih =>
    obtain ⟨p, hp, hrest⟩ := effects_cons_eq_ok_iff.1 h
    rcases ih (fun c hin => hc c (List.mem_cons_of_mem _ hin)) hrest with ⟨m₁, rfl, hm₁⟩ | ⟨n, hin⟩
    · rcases declared_of_effect (hc c (List.mem_cons_self ..)) hp hm₁ with hold | ⟨n, rfl⟩
      · exact .inl hold
      · exact .inr ⟨n, List.mem_cons_self ..⟩
    · exact .inr ⟨n, List.mem_cons_of_mem _ hin⟩

theorem Within.carries {k : String} (h : Within whole (some m)) (hk : m.Carries k) : whole.Carries k := by
  obtain ⟨f, hf, hcarries⟩ := hk
  exact ⟨f, h m rfl k f hf, hcarries⟩

/-- A model that is put together from parts of one that has every index once has so, too. -/
theorem indexedOnce_of_draws (hw : whole.IndexedOnce) (hc : ∀ c ∈ cs, c.Draws whole)
    (hadd : ∀ n i, .addIndex n i ∈ cs → whole.indexes.contains i = true) (ho : o = none ∨ o = some whole)
    (h : effects cs o = .ok (some m)) : m.IndexedOnce := by
  have hwithin : Within whole o := by
    rcases ho with rfl | rfl
    · exact within_none whole
    · exact within_self whole
  refine hw.mono (fun k => (within_of_effects hc hwithin h).carries) fun i hi => ?_
  rcases declared_of_effects hc h hi with ⟨m₀, rfl, hm₀⟩ | ⟨n, hin⟩
  · obtain rfl := Option.some.inj (ho.resolve_left (by simp))
    exact hm₀
  · exact hadd n i hin

end Change

/-! ### Models on both sides -/

namespace Revision
open Change
variable {old new m : Model} {k : String}

section Steps
variable (hold : old.WellFormed) (hnew : new.WellFormed) (ho : old.IndexedOnce) (hn : new.IndexedOnce)

/-- The declared indexes that are not dropped at first are declared in the end. -/
theorem declared_of_moved {i : Index} (hi : (moved old new).indexes.contains i = true) :
    new.indexes.contains i = true := by
  rw [moved] at hi
  split at hi
  · exact (contains_renamed.1 hi).2
  · exact (contains_withoutOutdated.1 hi).2

include hold hnew ho in
theorem indexedOnce_moved : (moved old new).IndexedOnce := by
  cases hr : renamed? old new with
  | none =>
    rw [moved, hr]
    exact Model.indexedOnce_withoutIndexes _ ho
  | some r =>
    obtain ⟨source, target, h⟩ := exists_isRenamed hold hnew hr
    have hwf : (old.withoutIndexes (outdated old new (some r))).WellFormed := by
      refine ⟨hold.named, fun i hi => hold.indexed i ?_⟩
      exact Ascending.contains_iff_mem.1 (contains_withoutOutdated.1 (Ascending.contains_iff_mem.2 hi)).1
    have hfound : (old.withoutIndexes (outdated old new (some r))).field? r.source = some source := h.found
    have hfree : (old.withoutIndexes (outdated old new (some r))).field? r.target = none := h.free
    rw [moved, hr]
    exact Model.indexedOnce_renamed hwf hfound hfree (Model.indexedOnce_withoutIndexes _ ho)

/-- Until indexes are declared again, a field carries an index that it carries before or after. -/
theorem indexedOnce_of_carries (hmoved : (moved old new).IndexedOnce) (hn : new.IndexedOnce)
    (hi : m.indexes = (moved old new).indexes)
    (hc : ∀ k, m.Carries k → (moved old new).Carries k ∨ new.Carries k) : m.IndexedOnce := by
  intro k hk
  rw [hi]
  rcases hc k hk with hk | hk
  · exact hmoved k hk
  · exact Bool.eq_false_iff.2 fun hin => Bool.eq_false_iff.1 (hn k hk) (declared_of_moved hin)

theorem carries_of_revised {rs : List Revision} (hrs : rs <+: changedFields old new)
    (h : ((moved old new).revised rs).Carries k) : (moved old new).Carries k ∨ new.Carries k := by
  obtain ⟨f, hf, hcarries⟩ := h
  by_cases hk : k ∈ rs.map Revision.field
  · obtain ⟨r, hr, rfl⟩ := List.mem_map.1 hk
    have hthere := Model.contains_revised.symm.trans (Option.isSome_of_eq_some hf)
    rw [Model.field?_revised_of_mem (nodup_changedFields.sublist (hrs.sublist.map _)) hr hthere] at hf
    cases hf
    exact .inr ⟨_, (mem_changedFields.1 (hrs.subset hr)).2.1, hcarries⟩
  · rw [Model.field?_revised_of_not_mem hk] at hf
    exact .inl ⟨f, hf, hcarries⟩

include hnew in
theorem carries_of_growing {fs : List Field} (hfs : fs <+: lostFields new old (renamed? old new))
    (h : (((moved old new).revised (changedFields old new)).withFields fs).Carries k) :
    (moved old new).Carries k ∨ new.Carries k := by
  obtain ⟨f, hf, hcarries⟩ := h
  by_cases hk : k ∈ fs.map Field.name
  · obtain ⟨g, hg, rfl⟩ := List.mem_map.1 hk
    rw [Model.field?_withFields_of_mem ((nodup_gainedFields hnew).sublist (hfs.sublist.map _)) hg] at hf
    cases hf
    exact .inr ⟨f, (of_mem_gainedFields hnew (hfs.subset hg)).2.1, hcarries⟩
  · rw [Model.field?_withFields_of_not_mem hk] at hf
    exact carries_of_revised List.prefix_rfl ⟨f, hf, hcarries⟩

include hold hnew in
/-- Of the fields that stay, those carry an index that do so in the end. -/
theorem carries_of_grown (hname : old.name = new.name) (hk : new.fields.contains k = true)
    (h : (grown old new).Carries k) : new.Carries k := by
  obtain ⟨q, hq, hcarried⟩ := exists_carried hold hnew hname
  cases of_effects_moves hq
  obtain ⟨f, hf, hcarries⟩ := h
  refine (hcarried.finish_alike hnew).carries_iff.1 ⟨f, ?_, hcarries⟩
  rw [Carried.field?_finish, if_neg (hcarried.not_mem_removed hk)]
  exact hf

include hold hnew hn in
theorem indexedOnce_of_grown (hname : old.name = new.name) (hc : ∀ k, m.Carries k → (grown old new).Carries k)
    (hi : ∀ i, m.indexes.contains i = true → new.indexes.contains i = true) : m.IndexedOnce := by
  refine fun k hk => Bool.eq_false_iff.2 fun hin => ?_
  have hthere := hnew.indexed _ (Ascending.contains_iff_mem.1 (hi _ hin)) k Model.mem_plain_fields
  exact Bool.eq_false_iff.1 (hn k (carries_of_grown hold hnew hname hthere (hc k hk))) (hi _ hin)

theorem declared_of_grown {is : List Index} (his : is ⊆ missing old new (renamed? old new)) {i : Index}
    (hi : ((grown old new).withIndexes is).indexes.contains i = true) : new.indexes.contains i = true := by
  rcases Model.contains_withIndexes.1 hi with hi | hi
  · exact (mem_missing.1 (his hi)).1
  · exact declared_of_moved hi

include hold hnew ho hn in
/-- On the way of a revision every index is there once, if it is so on both sides. -/
theorem OnWay.indexedOnce (hname : old.name = new.name) (h : OnWay old new m) : m.IndexedOnce := by
  have hmoved := indexedOnce_moved hold hnew ho
  cases h with
  | dropping is => exact Model.indexedOnce_withoutIndexes is ho
  | changing rs hrs => exact indexedOnce_of_carries hmoved hn rfl fun _ => carries_of_revised hrs
  | growing fs hfs => exact indexedOnce_of_carries hmoved hn rfl fun _ => carries_of_growing hnew hfs
  | declaring is his =>
    exact indexedOnce_of_grown hold hnew hn hname (fun _ => id) fun _ => declared_of_grown his.subset
  | removing fs =>
    refine indexedOnce_of_grown hold hnew hn hname (fun k => ?_) fun _ => declared_of_grown (List.Subset.refl _)
    rintro ⟨f, hf, hcarries⟩
    rw [Model.field?_withoutFields] at hf
    split at hf
    · cases hf
    · exact ⟨f, hf, hcarries⟩

end Steps

end Revision

/-! ### The whole schema -/

namespace Diff
open Change

section States
variable {baseline live s : State} (hb : baseline.WellFormed) (hl : live.WellFormed)
include hb hl

/-- On the way of a difference every index is there once, if it is so on both sides. -/
theorem indexedOnce_of_split {done rest : List Change} (hbo : baseline.IndexedOnce) (hlo : live.IndexedOnce)
    (hsplit : (ofStates baseline live).changes = done ++ rest) (hs : applyAll done baseline = .ok s) :
    s.IndexedOnce := by
  intro n m hm
  have heffects := effects_concerning hs n
  rw [hm] at heffects
  have hfront := concerning_front n ⟨rest, hsplit.symm⟩
  rw [concerning_changes] at hfront
  have hpart := part_about baseline live n
  generalize (ofStates baseline live).about n = d at hpart hfront
  cases hpart with
  | absent old new =>
    obtain h := List.prefix_nil.1 hfront
    rw [h, old] at heffects
    cases heffects
  | created whole waiting old new =>
    have hwhole := State.wellFormed_iff.1 hl n whole new
    refine indexedOnce_of_draws (hlo n whole new)
      (fun c hc => draws_of_create hwhole waiting c (hfront.subset hc)) (fun x i hi => ?_) (.inl old) heffects
    have hin := hfront.subset hi
    rw [Creation.changes_create] at hin
    simp only [List.mem_cons, reduceCtorEq, List.mem_append, List.mem_map, and_false, exists_false, false_or,
      addIndex.injEq] at hin
    obtain ⟨j, hj, -, rfl⟩ := hin
    exact Ascending.contains_iff_mem.2 hj
  | kept old new hold hnew =>
    rw [hold] at heffects
    exact (Revision.onWay_of_effects hfront heffects).indexedOnce (State.wellFormed_iff.1 hb n old hold)
      (State.wellFormed_iff.1 hl n new hnew) (hbo n old hold) (hlo n new hnew)
      ((State.name_of_model? hold).trans (State.name_of_model? hnew).symm)
  | deleted whole old new =>
    obtain rfl := State.name_of_model? old
    have hwhole := mem_deleted.2 ⟨old, new⟩
    refine indexedOnce_of_draws (hbo _ whole old)
      (fun c hc => draws_of_deletion nodup_deleted hwhole c (hfront.subset hc)) (fun x i hi => ?_) (.inr old)
      heffects
    have hin := hfront.subset hi
    rw [Deletion.changes_about_diff nodup_deleted hwhole] at hin
    simp at hin

end States

end Diff

end Schemata
