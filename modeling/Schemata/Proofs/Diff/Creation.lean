import Schemata.Diff.Creation
import Schemata.Proofs.Change.Batches
import Schemata.Proofs.Change.WellFormed
import Schemata.Proofs.Schema.Alike

/-! The creation of new models.

Each new model comes into the order once (`order_perm`), and a foreign key that it does not leave for
later points at itself or at what is not still to come (`order_pairwise`). The changes for one model make
it out of nothing, whichever of its fields have to wait (`effects_create`). -/
namespace Schemata.Creation
open Change

/-! ### The order -/

theorem dropModel_perm {models : List Model} {m : Model} (hd : (models.map Model.name).Nodup)
    (hm : m ∈ models) : models.Perm (m :: dropModel m.name models) := by
  obtain ⟨front, back, rfl⟩ := List.append_of_mem hm
  have hmid : ((m :: (front ++ back)).map Model.name).Nodup :=
    (List.perm_middle.map Model.name).nodup_iff.1 hd
  rw [List.map_cons, List.nodup_cons] at hmid
  have hkeep : ∀ x ∈ front ++ back, decide (x.name ≠ m.name) = true := by
    intro x hx
    refine decide_eq_true fun he => hmid.1 (he ▸ List.mem_map_of_mem hx)
  have hdrop : dropModel m.name (front ++ m :: back) = front ++ back := by
    rw [← List.filter_eq_self.2 hkeep]
    simp [dropModel]
  rw [hdrop]
  exact List.perm_middle

theorem nodup_dropModel {models : List Model} (name : String) (hd : (models.map Model.name).Nodup) :
    ((dropModel name models).map Model.name).Nodup :=
  (List.filter_sublist.map Model.name).nodup hd

theorem length_dropModel {models : List Model} {m : Model} (hd : (models.map Model.name).Nodup)
    (hm : m ∈ models) : models.length = (dropModel m.name models).length + 1 :=
  (dropModel_perm hd hm).length_eq

theorem next?_isSome {remaining : List Model} (h : remaining ≠ []) :
    ∃ step, next? remaining = some step := by
  rw [next?]
  split
  · exact ⟨_, rfl⟩
  · cases remaining with
    | nil => exact absurd rfl h
    | cons m rest => exact ⟨_, rfl⟩

theorem mem_of_next? {remaining : List Model} {step : Model × List String}
    (h : next? remaining = some step) : step.1 ∈ remaining := by
  rw [next?] at h
  split at h
  · rename_i hfind
    cases h
    exact List.mem_of_find?_eq_some hfind
  · obtain ⟨m, hm, rfl⟩ := Option.map_eq_some_iff.1 h
    exact List.mem_of_mem_head? hm

/-- A foreign key to a model still to come is left for later. -/
theorem waiting_of_next? {remaining : List Model} {step : Model × List String}
    (h : next? remaining = some step) {x : Model} (hx : x ∈ remaining) (hne : x.name ≠ step.1.name)
    {r : Field × Relation} (hr : r ∈ step.1.relations) (htarget : r.2.model = x.name) :
    r.1.name ∈ step.2 := by
  have hany : remaining.any (·.name == r.2.model) = true :=
    List.any_eq_true.2 ⟨x, hx, beq_iff_eq.2 htarget.symm⟩
  rw [next?] at h
  split at h
  · rename_i m hfind
    cases h
    have hisReady : isReady remaining m = true := List.find?_some hfind
    have href : r.2.model ∈ m.references :=
      List.mem_filter.2 ⟨List.mem_map_of_mem hr, decide_eq_true (htarget ▸ hne)⟩
    have hready := List.all_eq_true.1 hisReady _ href
    rw [hany] at hready
    cases hready
  · obtain ⟨m, -, rfl⟩ := Option.map_eq_some_iff.1 h
    refine List.mem_map_of_mem (List.mem_filter.2 ⟨hr, ?_⟩)
    rw [hany, Bool.and_true]
    exact decide_eq_true (htarget ▸ hne)

theorem orderFor_perm {steps : Nat} {remaining : List Model}
    (hd : (remaining.map Model.name).Nodup) (hlen : remaining.length ≤ steps) :
    ((orderFor steps remaining).map Prod.fst).Perm remaining := by
  induction steps generalizing remaining with
  | zero =>
    obtain rfl := List.eq_nil_of_length_eq_zero (Nat.le_zero.1 hlen)
    exact .refl _
  | succ steps ih =>
    rw [orderFor]
    cases hn : next? remaining with
    | none =>
      have hnil : remaining = [] := Classical.byContradiction fun hne => by
        obtain ⟨step, hstep⟩ := next?_isSome hne
        cases hn.symm.trans hstep
      rw [hnil]
      exact .refl _
    | some step =>
      have hm := mem_of_next? hn
      have hlen' := length_dropModel hd hm
      have hrest := ih (nodup_dropModel step.1.name hd) (by omega)
      exact (hrest.cons step.1).trans (dropModel_perm hd hm).symm

theorem order_perm {models : List Model} (hd : (models.map Model.name).Nodup) :
    ((order models).map Prod.fst).Perm models :=
  orderFor_perm hd (Nat.le_refl _)

/-- No foreign key points ahead in the order, but those that wait. -/
def Waits (a b : Model × List String) : Prop :=
  ∀ r ∈ a.1.relations, r.2.model = b.1.name → r.1.name ∈ a.2

theorem orderFor_subset {steps : Nat} {remaining : List Model} :
    ∀ step ∈ orderFor steps remaining, step.1 ∈ remaining := by
  induction steps generalizing remaining with
  | zero =>
    intro step hstep
    cases hstep
  | succ steps ih =>
    intro step hstep
    rw [orderFor] at hstep
    split at hstep
    · cases hstep
    · rename_i m waiting hn
      rcases List.mem_cons.1 hstep with rfl | hstep
      · exact mem_of_next? hn
      · exact (List.mem_filter.1 (ih step hstep)).1

theorem orderFor_pairwise {steps : Nat} {remaining : List Model} :
    (orderFor steps remaining).Pairwise Waits := by
  induction steps generalizing remaining with
  | zero => exact .nil
  | succ steps ih =>
    rw [orderFor]
    split
    · exact .nil
    · rename_i m waiting hn
      refine List.pairwise_cons.2 ⟨fun later hlater r hr htarget => ?_, ih⟩
      obtain ⟨hmem, hne⟩ := List.mem_filter.1 (orderFor_subset later hlater)
      exact waiting_of_next? hn hmem (of_decide_eq_true hne) hr htarget

theorem order_pairwise (models : List Model) : (order models).Pairwise Waits := orderFor_pairwise

/-! ### One model -/

variable {m : Model} {waiting : List String}

/-- The fields that a new table has from the start. -/
def early (m : Model) (waiting : List String) : List Field :=
  m.fields.values.filter fun f => !waiting.contains f.name

/-- The fields that are added to a new table. -/
def late (m : Model) (waiting : List String) : List Field :=
  m.fields.values.filter fun f => waiting.contains f.name

theorem mem_early {f : Field} (hm : m.WellFormed) :
    f ∈ early m waiting ↔ m.field? f.name = some f ∧ f.name ∉ waiting := by
  rw [early, List.mem_filter, hm.mem_values_iff, Bool.not_eq_eq_eq_not, Bool.not_true,
    ← Bool.not_eq_true, List.contains_iff_mem]

theorem mem_late {f : Field} (hm : m.WellFormed) :
    f ∈ late m waiting ↔ m.field? f.name = some f ∧ f.name ∈ waiting := by
  rw [late, List.mem_filter, hm.mem_values_iff, List.contains_iff_mem]

theorem nodup_early (hm : m.WellFormed) : ((early m waiting).map Field.name).Nodup :=
  (List.filter_sublist.map Field.name).nodup hm.nodup_names

theorem nodup_late (hm : m.WellFormed) : ((late m waiting).map Field.name).Nodup :=
  (List.filter_sublist.map Field.name).nodup hm.nodup_names

theorem changes_create (m : Model) (waiting : List String) :
    (create m waiting).changes = .createModel m.name (early m waiting) ::
      ((late m waiting).map (.addField m.name) ++ m.indexes.toList.map (.addIndex m.name)) := by
  simp [Diff.changes, create, early, late, Function.comp_def]

/-- The new model with all its fields and no index yet. -/
def table (m : Model) (waiting : List String) : Model :=
  (Model.ofFields m.name (early m waiting)).withFields (late m waiting)

theorem contains_table (hm : m.WellFormed) {k : String} :
    (table m waiting).fields.contains k = true ↔
      k ∈ (late m waiting).map Field.name ∨ k ∈ (early m waiting).map Field.name := by
  rw [table, Model.contains_withFields, Model.contains_ofFields (nodup_early hm)]

theorem field?_table (hm : m.WellFormed) (k : String) : (table m waiting).field? k = m.field? k := by
  cases hk : m.field? k with
  | some f =>
    obtain rfl := hm.named k f hk
    by_cases hw : f.name ∈ waiting
    · exact Model.field?_withFields_of_mem (nodup_late hm) ((mem_late hm).2 ⟨hk, hw⟩)
    · have hout : f.name ∉ (late m waiting).map Field.name := by
        intro hin
        obtain ⟨g, hg, hname⟩ := List.mem_map.1 hin
        exact hw (hname ▸ ((mem_late hm).1 hg).2)
      rw [table, Model.field?_withFields_of_not_mem hout,
        Model.field?_ofFields (nodup_early hm)]
      exact ⟨(mem_early hm).2 ⟨hk, hw⟩, rfl⟩
  | none =>
    refine Keyed.contains_eq_false_iff.1 (Bool.eq_false_iff.2 fun hc => ?_)
    have hmem : ∃ f, m.field? f.name = some f ∧ f.name = k := by
      rcases (contains_table hm).1 hc with hin | hin
      · obtain ⟨f, hf, hname⟩ := List.mem_map.1 hin
        exact ⟨f, ((mem_late hm).1 hf).1, hname⟩
      · obtain ⟨f, hf, hname⟩ := List.mem_map.1 hin
        exact ⟨f, ((mem_early hm).1 hf).1, hname⟩
    obtain ⟨f, hf, rfl⟩ := hmem
    cases hk.symm.trans hf

/-- The changes for a new model make it out of nothing, up to the order of its fields. -/
theorem effects_create (hm : m.WellFormed) (waiting : List String) :
    ∃ m', effects (create m waiting).changes none = .ok (some m') ∧ m'.Alike m := by
  have hcreate : (createModel m.name (early m waiting)).effect none =
      .ok (some (.ofFields m.name (early m waiting))) :=
    effect_eq_ok_iff.2 (.createModel (Model.size_ofFields (nodup_early hm)))
  have hadd : effects ((late m waiting).map (.addField m.name))
      (some (.ofFields m.name (early m waiting))) = .ok (some (table m waiting)) := by
    refine effects_addFields (nodup_late hm) fun f hf => Bool.eq_false_iff.2 fun hc => ?_
    obtain ⟨g, hg, hname⟩ := List.mem_map.1 ((Model.contains_ofFields (nodup_early hm)).1 hc)
    exact ((mem_early hm).1 hg).2 (hname ▸ ((mem_late hm).1 hf).2)
  have hindex : effects (m.indexes.toList.map (.addIndex m.name)) (some (table m waiting)) =
      .ok (some ((table m waiting).withIndexes m.indexes.toList)) := by
    refine effects_addIndexes m.indexes.nodup (fun i _ => rfl) fun i hi k hk => ?_
    rw [Keyed.contains_eq_isSome, show (table m waiting).fields.get? k = _ from field?_table hm k]
    exact hm.indexed i hi k hk
  have halike : ((table m waiting).withIndexes m.indexes.toList).Alike m := by
    refine ⟨rfl, fun k => ?_, ?_⟩
    · rw [show ((table m waiting).withIndexes m.indexes.toList).field? k = _ from field?_table hm k]
      exact rel_refl Field.Alike.refl _
    · refine Ascending.ext_contains fun i => Model.contains_withIndexes.trans ?_
      have hbare : ¬ (table m waiting).indexes.contains i = true := by
        simp [table, Model.withFields, Model.ofFields, Ascending.contains, Ascending.find?]
      exact (or_iff_left hbare).trans Ascending.contains_iff_mem.symm
  refine ⟨_, ?_, halike⟩
  rw [changes_create, effects_cons hcreate]
  exact (effects_append hadd).trans hindex

end Schemata.Creation
