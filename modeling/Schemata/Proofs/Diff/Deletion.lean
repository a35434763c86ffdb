import Schemata.Diff.Deletion
import Schemata.Proofs.Change.Batches
import Schemata.Proofs.Change.References
import Schemata.Proofs.Diff.Creation
import Schemata.Proofs.Diff.Parts

/-! The deletion of old models.

What is removed from models to let others go first is sound at every point (`Sound`): it is there to be
removed, it is removed once, and an index over a removed field is removed too. In the order of deletion,
a model that goes later no longer refers to one that goes earlier once all of it is removed
(`Settled`). -/
namespace Schemata.Deletion
open Change

namespace Released

theorem hasIndex_iff {r : Released} {model : String} {i : Index} :
    r.hasIndex model i = true ↔ ⟨model, i⟩ ∈ r.indexes := by
  rw [hasIndex, List.any_eq_true]
  constructor
  · rintro ⟨⟨model', j⟩, hj, h⟩
    obtain ⟨rfl, rfl⟩ : model' = model ∧ j = i := by simpa using h
    exact hj
  · intro h
    exact ⟨_, h, by simp⟩

theorem hasField_iff {r : Released} {model name : String} :
    r.hasField model name = true ↔ ∃ f ∈ r.fields, f.model = model ∧ f.item.name = name := by
  simp [hasField, List.any_eq_true]

theorem binds_eq_false_iff {r : Released} {holder : Model} {name : String} {key : Field × Relation} :
    r.binds holder name key = false ↔
      (key.2.model = name → r.hasField holder.name key.1.name = true) := by
  simp [binds]

/-! ### What may be removed -/

/-- What is removed can be removed: it is there, it is removed once, and no index is left over a removed
field. -/
structure Sound (models : List Model) (r : Released) : Prop where
  fields : ∀ f ∈ r.fields, ∃ m ∈ models, m.name = f.model ∧ ∃ rel, (f.item, rel) ∈ m.relations
  fields_once : r.fields.Pairwise fun f g => f.model = g.model → f.item.name ≠ g.item.name
  indexes : ∀ i ∈ r.indexes, ∃ m ∈ models, m.name = i.model ∧ i.item ∈ m.indexes.toList
  indexes_once : r.indexes.Pairwise fun i j => i.model = j.model → i.item ≠ j.item
  covered : ∀ f ∈ r.fields, ∀ m ∈ models, m.name = f.model → ∀ i ∈ m.indexes.toList,
    i.references f.item.name = true → ⟨m.name, i⟩ ∈ r.indexes

theorem sound_nothing (models : List Model) : Sound models {} where
  fields _ h := by cases h
  fields_once := .nil
  indexes _ h := by cases h
  indexes_once := .nil
  covered _ h := by cases h

/-- The indexes that have to go with a field, but those that went before. -/
def concerned (r : Released) (holder : Model) (key : Field) : List Index :=
  (holder.indexes.toList.filter (·.references key.name)).filter (!r.hasIndex holder.name ·)

theorem release_indexes (r : Released) (holder : Model) (key : Field) :
    (r.release holder key).indexes = r.indexes ++ (r.concerned holder key).map (⟨holder.name, ·⟩) := by
  rw [release, concerned]
  generalize holder.indexes.toList.filter (·.references key.name) = is
  show is.foldl _ r.indexes = _
  generalize r.indexes = js
  induction is generalizing js with
  | nil => simp
  | cons i rest ih =>
    rw [List.foldl_cons, ih]
    cases hi : r.hasIndex holder.name i with
    | true => simp [hi]
    | false => simp [hi]

theorem mem_release_indexes {r : Released} {holder : Model} {key : Field} {i : Located Index} :
    i ∈ (r.release holder key).indexes ↔ i ∈ r.indexes ∨
      (i.model = holder.name ∧ i.item ∈ holder.indexes.toList ∧
        i.item.references key.name = true ∧ i ∉ r.indexes) := by
  obtain ⟨model, item⟩ := i
  rw [release_indexes, List.mem_append]
  refine or_congr_right ?_
  simp only [concerned, List.mem_map, List.mem_filter, Bool.not_eq_eq_eq_not, Bool.not_true,
    ← Bool.not_eq_true, hasIndex_iff, Located.mk.injEq]
  constructor
  · rintro ⟨i, ⟨⟨hi, href⟩, hnew⟩, rfl, rfl⟩
    exact ⟨rfl, hi, href, hnew⟩
  · rintro ⟨rfl, hi, href, hnew⟩
    exact ⟨item, ⟨⟨hi, href⟩, hnew⟩, rfl, rfl⟩

theorem release_indexes_once {r : Released} (holder : Model) (key : Field)
    (h : r.indexes.Pairwise fun i j => i.model = j.model → i.item ≠ j.item) :
    (r.release holder key).indexes.Pairwise fun i j => i.model = j.model → i.item ≠ j.item := by
  rw [release_indexes, List.pairwise_append]
  refine ⟨h, List.pairwise_map.2 ?_, ?_⟩
  · have hnodup : (r.concerned holder key).Nodup :=
      List.filter_sublist.nodup (List.filter_sublist.nodup holder.indexes.nodup)
    refine hnodup.imp fun {i j} hne _ => ?_
    exact hne
  · rintro ⟨model, i⟩ hi j hj hmodel rfl
    obtain ⟨i', hi', rfl⟩ := List.mem_map.1 hj
    obtain rfl : model = holder.name := hmodel
    have := (List.mem_filter.1 hi').2
    rw [hasIndex_iff.2 hi] at this
    cases this

theorem Sound.release {models : List Model} {r : Released} {holder : Model} {key : Field × Relation}
    (h : r.Sound models) (hd : (models.map Model.name).Nodup) (hholder : holder ∈ models)
    (hkey : key ∈ holder.relations) (hnew : r.hasField holder.name key.1.name = false) :
    (r.release holder key.1).Sound models where
  fields f hf := by
    rcases List.mem_append.1 hf with hf | hf
    · exact h.fields f hf
    · obtain rfl := List.mem_singleton.1 hf
      exact ⟨holder, hholder, rfl, key.2, hkey⟩
  fields_once := by
    refine List.pairwise_append.2 ⟨h.fields_once, List.pairwise_singleton _ _, ?_⟩
    intro f hf g hg hmodel hname
    obtain rfl := List.mem_singleton.1 hg
    exact Bool.eq_false_iff.1 hnew (hasField_iff.2 ⟨f, hf, hmodel, hname⟩)
  indexes i hi := by
    rcases mem_release_indexes.1 hi with hi | ⟨hmodel, hin, -, -⟩
    · exact h.indexes i hi
    · exact ⟨holder, hholder, hmodel.symm, hin⟩
  indexes_once := release_indexes_once holder key.1 h.indexes_once
  covered f hf m hm hname i hi href := by
    rw [mem_release_indexes]
    rcases List.mem_append.1 hf with hf | hf
    · exact .inl (h.covered f hf m hm hname i hi href)
    · obtain rfl := List.mem_singleton.1 hf
      obtain rfl := eq_of_nodup_map hd hm hholder hname
      by_cases hin : ⟨m.name, i⟩ ∈ r.indexes
      · exact .inl hin
      · exact .inr ⟨rfl, hi, href, hin⟩

/-! ### Removing one thing after the other -/

section Folds
variable {α : Type} {step : Released → α → Released}

theorem foldl_grows (hgrow : ∀ r a, r.fields ⊆ (step r a).fields) (l : List α) (r : Released) :
    r.fields ⊆ (l.foldl step r).fields := by
  induction l generalizing r with
  | nil => exact fun _ h => h
  | cons a rest ih => exact fun f hf => ih (step r a) (hgrow r a hf)

/-- What a step brings about and no later step undoes holds at the end. -/
theorem foldl_brings {P : α → Released → Prop} (hgrow : ∀ r a, r.fields ⊆ (step r a).fields)
    (hstep : ∀ r a, P a (step r a)) (hkeep : ∀ a r r', r.fields ⊆ r'.fields → P a r → P a r')
    {l : List α} (r : Released) : ∀ a ∈ l, P a (l.foldl step r) := by
  induction l generalizing r with
  | nil =>
    intro a ha
    cases ha
  | cons b rest ih =>
    intro a ha
    rcases List.mem_cons.1 ha with rfl | ha
    · exact hkeep a _ _ (foldl_grows hgrow rest _) (hstep r a)
    · exact ih (step r b) a ha

theorem foldl_sound {models : List Model} {l : List α}
    (hstep : ∀ r, ∀ a ∈ l, r.Sound models → (step r a).Sound models) {r : Released}
    (h : r.Sound models) : (l.foldl step r).Sound models := by
  induction l generalizing r with
  | nil => exact h
  | cons a rest ih =>
    exact ih (fun r b hb => hstep r b (List.mem_cons_of_mem a hb))
      (hstep r a (List.mem_cons_self ..) h)

end Folds

theorem binds_of_subset {r r' : Released} {holder : Model} {name : String} {key : Field × Relation}
    (hsub : r.fields ⊆ r'.fields) (h : r.binds holder name key = false) :
    r'.binds holder name key = false := by
  refine binds_eq_false_iff.2 fun htarget => ?_
  obtain ⟨f, hf, hat⟩ := hasField_iff.1 (binds_eq_false_iff.1 h htarget)
  exact hasField_iff.2 ⟨f, hsub hf, hat⟩

theorem release_grows (r : Released) (holder : Model) (key : Field) :
    r.fields ⊆ (r.release holder key).fields :=
  fun _ hf => List.mem_append_left _ hf

theorem releaseAll_grows (r : Released) (name : String) (holder : Model) :
    r.fields ⊆ (r.releaseAll name holder).fields := by
  refine foldl_grows (fun r key => ?_) holder.relations r
  show r.fields ⊆ (if r.binds holder name key then r.release holder key.1 else r).fields
  split
  · exact release_grows r holder key.1
  · exact fun _ hf => hf

/-- No foreign key of `holder` points at the model `name` any more. -/
theorem binds_releaseAll (r : Released) (name : String) (holder : Model) :
    ∀ key ∈ holder.relations, (r.releaseAll name holder).binds holder name key = false := by
  refine foldl_brings (P := fun key r => r.binds holder name key = false) (fun r key => ?_)
    (fun r key => ?_) (fun _ _ _ hsub h => binds_of_subset hsub h) r
  · show r.fields ⊆ (if r.binds holder name key then r.release holder key.1 else r).fields
    split
    · exact release_grows r holder key.1
    · exact fun _ hf => hf
  · show (if r.binds holder name key then r.release holder key.1 else r).binds holder name key = false
    split
    · refine binds_eq_false_iff.2 fun _ => hasField_iff.2 ⟨⟨holder.name, key.1⟩, ?_, rfl, rfl⟩
      exact List.mem_append_right _ (List.mem_singleton.2 rfl)
    · exact Bool.eq_false_iff.2 ‹_›

theorem Sound.releaseAll {models : List Model} {r : Released} {holder : Model}
    (h : r.Sound models) (hd : (models.map Model.name).Nodup) (hholder : holder ∈ models)
    (name : String) : (r.releaseAll name holder).Sound models := by
  refine foldl_sound (fun r key hkey h => ?_) h
  show (if r.binds holder name key then r.release holder key.1 else r).Sound models
  split
  · rename_i hbinds
    refine h.release hd hholder hkey ?_
    simp only [binds, Bool.and_eq_true, Bool.not_eq_eq_eq_not, Bool.not_true] at hbinds
    exact hbinds.2
  · exact h

end Released

/-! ### The order -/

/-- With `r` removed, no model but itself refers to the model `name`. -/
def Settled (models : List Model) (name : String) (r : Released) : Prop :=
  ∀ m ∈ models, m.name ≠ name → ∀ key ∈ m.relations, r.binds m name key = false

theorem Settled.of_subset {models : List Model} {name : String} {r r' : Released}
    (hsub : r.fields ⊆ r'.fields) (h : Settled models name r) : Settled models name r' :=
  fun m hm hne key hkey => Released.binds_of_subset hsub (h m hm hne key hkey)

/-- What is known of a step of the order: the model is one that remains, what is removed grows, and then
no other model that remains refers to it. -/
structure Goes (models remaining : List Model) (name : String) (r r' : Released) : Prop where
  mem : ∃ m ∈ remaining, m.name = name
  grows : r.fields ⊆ r'.fields
  sound : r.Sound models → r'.Sound models
  settled : Settled remaining name r'

theorem goes_of_next? {models remaining : List Model} (hd : (models.map Model.name).Nodup)
    (hsub : remaining ⊆ models) {name : String} {r r' : Released}
    (h : next? remaining r = some (name, r')) : Goes models remaining name r r' := by
  rw [next?] at h
  split at h
  · rename_i m hfind
    cases h
    refine ⟨⟨m, List.mem_of_find?_eq_some hfind, rfl⟩, fun _ hf => hf, id, ?_⟩
    intro x hx hne key hkey
    have hfree : isReferenced remaining r m.name = false := by simpa using List.find?_some hfind
    have hnone := List.any_eq_false.1 hfree x hx
    rw [decide_eq_true hne, Bool.true_and, Bool.not_eq_true] at hnone
    exact Bool.eq_false_iff.2 (List.any_eq_false.1 hnone key hkey)
  · obtain ⟨m, hm, he⟩ := Option.map_eq_some_iff.1 h
    cases he
    refine ⟨⟨m, List.mem_of_mem_head? hm, rfl⟩, ?_, fun hs => ?_, ?_⟩
    · exact Released.foldl_grows (fun r x => r.releaseAll_grows m.name x) _ r
    · refine Released.foldl_sound (fun r x hx h => ?_) hs
      exact h.releaseAll hd (hsub (List.mem_filter.1 hx).1) m.name
    · intro x hx hne key hkey
      have hleft : x ∈ Creation.dropModel m.name remaining :=
        List.mem_filter.2 ⟨hx, decide_eq_true hne⟩
      exact Released.foldl_brings
        (P := fun x r => ∀ key ∈ x.relations, r.binds x m.name key = false)
        (fun r x => r.releaseAll_grows m.name x) (fun r x => r.binds_releaseAll m.name x)
        (fun _ _ _ hsub h key hkey => Released.binds_of_subset hsub (h key hkey)) r x hleft key hkey

theorem next?_isSome {remaining : List Model} (h : remaining ≠ []) (r : Released) :
    ∃ step, next? remaining r = some step := by
  rw [next?]
  split
  · exact ⟨_, rfl⟩
  · cases remaining with
    | nil => exact absurd rfl h
    | cons m rest => exact ⟨_, rfl⟩

/-- What is known of the order of `remaining` when all of `last` is removed. -/
structure Planned (models remaining : List Model) (r : Released) (names : List String)
    (last : Released) : Prop where
  perm : names.Perm (remaining.map Model.name)
  grows : r.fields ⊆ last.fields
  sound : r.Sound models → last.Sound models
  settled : ∀ front name back, names = front ++ name :: back →
    Settled (remaining.filter fun m => back.contains m.name) name last

theorem planned_orderFor {models : List Model} (hd : (models.map Model.name).Nodup) {steps : Nat}
    {remaining : List Model} (hrem : (remaining.map Model.name).Nodup) (hsub : remaining ⊆ models)
    (hlen : remaining.length ≤ steps) (r : Released) :
    Planned models remaining r (orderFor steps remaining r).1 (orderFor steps remaining r).2 := by
  induction steps generalizing remaining r with
  | zero =>
    obtain rfl := List.eq_nil_of_length_eq_zero (Nat.le_zero.1 hlen)
    refine ⟨.refl _, fun _ h => h, id, fun front name back h => ?_⟩
    exact absurd h (by simp [orderFor])
  | succ steps ih =>
    rw [orderFor]
    cases hn : next? remaining r with
    | none =>
      have hnil : remaining = [] := Classical.byContradiction fun hne => by
        obtain ⟨step, hstep⟩ := next?_isSome hne r
        cases hn.symm.trans hstep
      rw [hnil]
      refine ⟨.refl _, fun _ h => h, id, fun front name back h => ?_⟩
      exact absurd h (by simp)
    | some step =>
      obtain ⟨name, r'⟩ := step
      have hgoes := goes_of_next? hd hsub hn
      obtain ⟨m, hm, rfl⟩ := hgoes.mem
      have hlen' := Creation.length_dropModel hrem hm
      have hplan := ih (Creation.nodup_dropModel m.name hrem)
        (fun x hx => hsub (List.mem_filter.1 hx).1) (by omega) r'
      refine ⟨?_, fun f hf => hplan.grows (hgoes.grows hf), fun h => hplan.sound (hgoes.sound h), ?_⟩
      · have hperm := (Creation.dropModel_perm hrem hm).map Model.name
        exact (hplan.perm.cons m.name).trans hperm.symm
      · intro front name back h
        cases front with
        | nil =>
          obtain ⟨rfl, rfl⟩ := List.cons.inj h
          refine Settled.of_subset hplan.grows fun x hx => ?_
          exact hgoes.settled x (List.mem_filter.1 hx).1
        | cons first front =>
          obtain ⟨rfl, hrest⟩ := List.cons.inj h
          intro x hx hne
          obtain ⟨hx, hback⟩ := List.mem_filter.1 hx
          have hlater : x.name ∈ (Creation.dropModel m.name remaining).map Model.name := by
            refine hplan.perm.subset ?_
            rw [hrest]
            exact List.mem_append_right _ (List.mem_cons_of_mem _ (List.contains_iff_mem.1 hback))
          obtain ⟨y, hy, hname⟩ := List.mem_map.1 hlater
          obtain rfl := eq_of_nodup_map hrem (List.mem_filter.1 hy).1 hx hname
          exact hplan.settled front name back hrest y (List.mem_filter.2 ⟨hy, hback⟩) hne

/-! ### The whole deletion -/

/-- What the deletion removes before it deletes. -/
def removed (models : List Model) : Released := (orderFor models.length models {}).2

/-- The names in the order of deletion. -/
def names (models : List Model) : List String := (orderFor models.length models {}).1

theorem diff_eq (models : List Model) :
    diff models =
      { removedIndexes := (removed models).indexes
        removedFields := (removed models).fields
        deletedModels := names models } := rfl

theorem planned {models : List Model} (hd : (models.map Model.name).Nodup) :
    Planned models models {} (names models) (removed models) :=
  planned_orderFor hd hd (fun _ h => h) (Nat.le_refl _) {}

theorem sound {models : List Model} (hd : (models.map Model.name).Nodup) :
    (removed models).Sound models :=
  (planned hd).sound (Released.sound_nothing models)

theorem about_diff_of_not_mem {models : List Model} (hd : (models.map Model.name).Nodup) {n : String}
    (h : n ∉ models.map Model.name) : Diff.about n (diff models) = Diff.empty := by
  have hindexes : (removed models).indexes.filter (·.model == n) = [] := by
    refine List.filter_eq_nil_iff.2 fun i hi he => h ?_
    obtain ⟨m, hm, hname, -⟩ := (sound hd).indexes i hi
    exact List.mem_map.2 ⟨m, hm, hname.trans (beq_iff_eq.1 he)⟩
  have hfields : (removed models).fields.filter (·.model == n) = [] := by
    refine List.filter_eq_nil_iff.2 fun f hf he => h ?_
    obtain ⟨m, hm, hname, -⟩ := (sound hd).fields f hf
    exact List.mem_map.2 ⟨m, hm, hname.trans (beq_iff_eq.1 he)⟩
  have hnames : (names models).filter (· == n) = [] := by
    refine List.filter_eq_nil_iff.2 fun x hx he => h ?_
    exact (planned hd).perm.subset (beq_iff_eq.1 he ▸ hx)
  rw [diff_eq, Diff.about, hindexes, hfields, hnames]
  rfl

/-! ### One model -/

section One
variable {models : List Model} {m : Model}

/-- The indexes that are removed from the model of that name. -/
def indexesOf (models : List Model) (name : String) : List Index :=
  ((removed models).indexes.filter (·.model == name)).map (·.item)

/-- The fields that are removed from the model of that name. -/
def fieldsOf (models : List Model) (name : String) : List Field :=
  ((removed models).fields.filter (·.model == name)).map (·.item)

theorem mem_indexesOf {name : String} {i : Index} :
    i ∈ indexesOf models name ↔ ⟨name, i⟩ ∈ (removed models).indexes := by
  simp only [indexesOf, List.mem_map, List.mem_filter, beq_iff_eq]
  constructor
  · rintro ⟨⟨model, j⟩, ⟨hj, rfl⟩, rfl⟩
    exact hj
  · exact fun h => ⟨_, ⟨h, rfl⟩, rfl⟩

theorem mem_fieldsOf {name : String} {f : Field} :
    f ∈ fieldsOf models name ↔ ⟨name, f⟩ ∈ (removed models).fields := by
  simp only [fieldsOf, List.mem_map, List.mem_filter, beq_iff_eq]
  constructor
  · rintro ⟨⟨model, g⟩, ⟨hg, rfl⟩, rfl⟩
    exact hg
  · exact fun h => ⟨_, ⟨h, rfl⟩, rfl⟩

theorem nodup_indexesOf (hd : (models.map Model.name).Nodup) (name : String) :
    (indexesOf models name).Nodup := by
  refine List.pairwise_map.2 (List.pairwise_filter.2 ((sound hd).indexes_once.imp ?_))
  intro i j hne hi hj
  exact hne ((beq_iff_eq.1 hi).trans (beq_iff_eq.1 hj).symm)

theorem nodup_fieldsOf (hd : (models.map Model.name).Nodup) (name : String) :
    ((fieldsOf models name).map Field.name).Nodup := by
  rw [fieldsOf, List.map_map]
  refine List.pairwise_map.2 (List.pairwise_filter.2 ((sound hd).fields_once.imp ?_))
  intro f g hne hf hg
  exact hne ((beq_iff_eq.1 hf).trans (beq_iff_eq.1 hg).symm)

theorem changes_about_diff (hd : (models.map Model.name).Nodup) (hm : m ∈ models) :
    (Diff.about m.name (diff models)).changes =
      (indexesOf models m.name).map (.removeIndex m.name) ++
      (fieldsOf models m.name).map (.removeField m.name) ++ [.deleteModel m.name] := by
  have hindexes : ((removed models).indexes.filter (·.model == m.name)).map
      (fun c => Change.removeIndex c.model c.item) =
        (indexesOf models m.name).map (.removeIndex m.name) := by
    rw [indexesOf, List.map_map]
    refine List.map_congr_left fun c hc => ?_
    rw [beq_iff_eq.1 (List.mem_filter.1 hc).2]
    rfl
  have hfields : ((removed models).fields.filter (·.model == m.name)).map
      (fun c => Change.removeField c.model c.item) =
        (fieldsOf models m.name).map (.removeField m.name) := by
    rw [fieldsOf, List.map_map]
    refine List.map_congr_left fun c hc => ?_
    rw [beq_iff_eq.1 (List.mem_filter.1 hc).2]
    rfl
  have hname : (names models).filter (· == m.name) = [m.name] := by
    have hperm := (planned hd).perm
    have hin : m.name ∈ names models := hperm.symm.subset (List.mem_map_of_mem hm)
    have hnodup := hperm.nodup_iff.2 hd
    rw [List.filter_beq, hnodup.count, if_pos hin]
    rfl
  simp [diff_eq, Diff.about, Diff.changes, hindexes, hfields, hname]

/-- The model right before it is deleted. -/
def stripped (models : List Model) (m : Model) : Model :=
  (m.withoutIndexes (indexesOf models m.name)).withoutFields (fieldsOf models m.name)

theorem effects_strip (hd : (models.map Model.name).Nodup) (hm : m ∈ models) (hwf : m.WellFormed) :
    effects ((indexesOf models m.name).map (.removeIndex m.name) ++
      (fieldsOf models m.name).map (.removeField m.name)) (some m) =
        .ok (some (stripped models m)) := by
  have hindexes : effects ((indexesOf models m.name).map (.removeIndex m.name)) (some m) =
      .ok (some (m.withoutIndexes (indexesOf models m.name))) := by
    refine effects_removeIndexes (nodup_indexesOf hd m.name) fun i hi => ?_
    obtain ⟨x, hx, hname, hin⟩ := (sound hd).indexes _ (mem_indexesOf.1 hi)
    obtain rfl := eq_of_nodup_map hd hx hm hname
    exact Ascending.contains_iff_mem.2 hin
  rw [effects_append hindexes]
  refine effects_removeFields (nodup_fieldsOf hd m.name) (fun f hf => ?_) fun i hi f hf => ?_
  · obtain ⟨x, hx, hname, rel, hrel⟩ := (sound hd).fields _ (mem_fieldsOf.1 hf)
    obtain rfl := eq_of_nodup_map hd hx hm hname
    exact Option.isSome_of_eq_some (hwf.mem_values_iff.1 (Model.mem_relations.1 hrel).1)
  · refine Bool.eq_false_iff.2 fun href => ?_
    obtain ⟨hleft, hin⟩ := Model.contains_withoutIndexes.1 (Ascending.contains_iff_mem.2 hi)
    refine hleft (mem_indexesOf.2 ?_)
    exact (sound hd).covered _ (mem_fieldsOf.1 hf) m hm rfl i (Ascending.contains_iff_mem.1 hin) href

/-- The part of a deletion that concerns a model takes it away. -/
theorem effects_delete (hd : (models.map Model.name).Nodup) (hm : m ∈ models) (hwf : m.WellFormed) :
    effects (Diff.about m.name (diff models)).changes (some m) = .ok none := by
  rw [changes_about_diff hd hm, effects_append (effects_strip hd hm hwf)]
  rfl

/-- A stripped model points at none that is deleted before it. -/
theorem not_pointsAt_of_stripped (hd : (models.map Model.name).Nodup) (hm : m ∈ models)
    (hwf : m.WellFormed) {front back : List String} {name : String}
    (hnames : names models = front ++ name :: back) (hback : m.name ∈ back) (hne : m.name ≠ name) :
    ¬ (stripped models m).PointsAt name := by
  intro hp
  obtain ⟨k, f, r, hf, hr, htarget⟩ := Model.pointsAt_iff.1 hp
  rw [stripped, Model.field?_withoutFields] at hf
  split at hf
  · cases hf
  · rename_i hleft
    have hfield : m.field? k = some f := hf
    obtain rfl := hwf.named k f hfield
    have hkey : (f, r) ∈ m.relations :=
      Model.mem_relations.2 ⟨Keyed.mem_values_iff.2 ⟨_, hfield⟩, hr⟩
    have hremains : m ∈ models.filter fun x => back.contains x.name :=
      List.mem_filter.2 ⟨hm, List.contains_iff_mem.2 hback⟩
    have hfree := (planned hd).settled front name back hnames m hremains hne (f, r) hkey
    obtain ⟨⟨model, g⟩, hg, rfl, hname⟩ :=
      Released.hasField_iff.1 (Released.binds_eq_false_iff.1 hfree htarget)
    exact hleft (List.mem_map.2 ⟨g, mem_fieldsOf.2 hg, hname⟩)

end One

end Schemata.Deletion
