import Schemata.Proofs.Diff.References
import Schemata.Proofs.Diff.Vacating

/-! The order of a difference, and the fields that are there on the way.

A difference brings its changes in the order of their kinds (`Change.rank`). So a field of the baseline is
there until fields are removed, unless it was renamed, and a live field is there behind the new tables,
unless the difference makes it: adds it, or renames a field to it. -/
namespace Schemata

/-! ### The order of kinds -/

/-- The place of the kind of change in the order in which a difference is carried out. -/
def Change.rank : Change → Nat
  | .createModel _ _ => 0
  | .removeIndex _ _ => 1
  | .renameField _ _ _ => 2
  | .changeField _ _ _ _ => 3
  | .addField _ _ => 4
  | .addIndex _ _ => 5
  | .removeField _ _ => 6
  | .deleteModel _ => 7
  | .runData _ _ => 8

namespace Diff
open Change

/-- Changes in the order of their ranks, up to some rank. -/
structure Ranked (high : Nat) (cs : List Change) : Prop where
  sorted : cs.Pairwise fun a b => a.rank ≤ b.rank
  le : ∀ c ∈ cs, c.rank ≤ high

theorem ranked_row {α : Type} {change : α → Change} {rank : Nat} (row : List α)
    (h : ∀ a, (change a).rank = rank) : Ranked rank (row.map change) where
  sorted := List.pairwise_map.2 (List.pairwise_of_forall fun a b => by rw [h, h])
  le c hc := by
    obtain ⟨a, -, rfl⟩ := List.mem_map.1 hc
    rw [h]

/-- Behind changes up to a rank comes a row of changes of the next one. -/
theorem Ranked.append_row {α : Type} {change : α → Change} {high : Nat} {cs : List Change}
    (hcs : Ranked high cs) (row : List α) (h : ∀ a, (change a).rank = high + 1) :
    Ranked (high + 1) (cs ++ row.map change) where
  sorted := by
    refine List.pairwise_append.2 ⟨hcs.sorted, (ranked_row row h).sorted, fun c hc x hx => ?_⟩
    obtain ⟨a, -, rfl⟩ := List.mem_map.1 hx
    rw [h]
    exact Nat.le_succ_of_le (hcs.le c hc)
  le c hc := by
    rcases List.mem_append.1 hc with hc | hc
    · exact Nat.le_succ_of_le (hcs.le c hc)
    · exact (ranked_row row h).le c hc

theorem ranked_changes (d : Diff) : Ranked 7 d.changes := by
  rw [changes]
  refine Ranked.append_row ?_ d.deletedModels fun _ => rfl
  refine Ranked.append_row ?_ d.removedFields fun _ => rfl
  refine Ranked.append_row ?_ d.addedIndexes fun _ => rfl
  refine Ranked.append_row ?_ d.addedFields fun _ => rfl
  refine Ranked.append_row ?_ d.changedFields fun _ => rfl
  refine Ranked.append_row ?_ d.renamedFields fun _ => rfl
  refine Ranked.append_row ?_ d.removedIndexes fun _ => rfl
  exact ranked_row d.createdModels fun _ => rfl

section Split
variable {d : Diff} {done rest : List Change} {c x : Change} (h : d.changes = done ++ c :: rest)
include h

/-- What comes before a change is of no later rank. -/
theorem rank_le_of_split (hx : x ∈ done) : x.rank ≤ c.rank := by
  have hsorted := d.ranked_changes.sorted
  rw [h, List.pairwise_append] at hsorted
  exact hsorted.2.2 x hx c (List.mem_cons_self ..)

/-- What is of an earlier rank than a change comes before it. -/
theorem mem_of_split (hx : x ∈ d.changes) (hlt : x.rank < c.rank) : x ∈ done := by
  have hsorted := d.ranked_changes.sorted
  rw [h, List.pairwise_append, List.pairwise_cons] at hsorted
  rw [h, List.mem_append, List.mem_cons] at hx
  rcases hx with hx | rfl | hx
  · exact hx
  · omega
  · have := hsorted.2.1.1 x hx
    omega

end Split

/-! ### Fields on the way -/

/-- Whether the difference renames the field of that model. -/
def Renames (d : Diff) (n k : String) : Prop := ∃ c ∈ d.renamedFields, c.model = n ∧ c.item.source = k

/-- Whether the difference renames a field of that model to the name, or adds it. -/
def Makes (d : Diff) (n k : String) : Prop :=
  (∃ c ∈ d.renamedFields, c.model = n ∧ c.item.target = k) ∨
    ∃ c ∈ d.addedFields, c.model = n ∧ c.item.name = k

instance (d : Diff) (n k : String) : Decidable (d.Renames n k) :=
  inferInstanceAs (Decidable (∃ c ∈ d.renamedFields, _))

instance (d : Diff) (n k : String) : Decidable (d.Makes n k) :=
  inferInstanceAs (Decidable ((∃ c ∈ d.renamedFields, _) ∨ ∃ c ∈ d.addedFields, _))

theorem renameField_mem_iff {d : Diff} {n source target : String} :
    .renameField n source target ∈ d.changes ↔ ⟨n, ⟨source, target⟩⟩ ∈ d.renamedFields := by
  simp only [changes, List.mem_append, List.mem_map, reduceCtorEq, and_false, exists_false, or_false,
    false_or, renameField.injEq]
  constructor
  · rintro ⟨⟨model, r⟩, hc, rfl, rfl, rfl⟩
    exact hc
  · exact fun hc => ⟨_, hc, rfl, rfl, rfl⟩

section States
variable {baseline live : State} {done rest : List Change} {c : Change} {s : State} {n k : String}

/-- A field of the baseline, or of a model created before, is there until fields are removed, unless it was
renamed. -/
theorem hasField_of_split {d : Diff} (hsplit : d.changes = done ++ c :: rest)
    (hs : applyAll done baseline = .ok s) (hrank : c.rank ≤ 5) (hstays : 2 ≤ c.rank → ¬ d.Renames n k)
    (h : baseline.HasField n k ∨ ∃ fields, .createModel n fields ∈ done ∧ k ∈ fields.map Field.name) :
    s.HasField n k := by
  refine hasField_of_applyFrom hs (fun x hx hdrops => ?_) h
  have hle := rank_le_of_split hsplit hx
  cases x with
  | renameField model source target =>
    obtain ⟨rfl, rfl⟩ := hdrops
    have hin := renameField_mem_iff.1 (hsplit ▸ List.mem_append_left _ hx)
    exact hstays hle ⟨_, hin, rfl, rfl⟩
  | removeField | deleteModel =>
    exact absurd (Nat.le_trans hle hrank) (by simp [rank])
  | _ => exact hdrops

/-- A live field is one of the baseline, or of the table of a new model, unless the difference makes it. -/
theorem of_live_hasField (hb : baseline.WellFormed) (hl : live.WellFormed) (h : live.HasField n k)
    (hnew : ¬ (ofStates baseline live).Makes n k) :
    baseline.HasField n k ∨ ∃ step ∈ Creation.order (createdModelsOf baseline live),
      step.1.name = n ∧ k ∈ (Creation.early step.1 step.2).map Field.name := by
  obtain ⟨m, f, hm, hf⟩ := h
  have hwf := hl.of_model? hm
  obtain rfl := hwf.named k f hf
  have hpart := part_about baseline live n
  have hrenamed : ∀ c ∈ ((ofStates baseline live).about n).renamedFields, c ∈ (ofStates baseline live).renamedFields :=
    fun c hc => (List.mem_filter.1 hc).1
  have hadded : ∀ c ∈ ((ofStates baseline live).about n).addedFields, c ∈ (ofStates baseline live).addedFields :=
    fun c hc => (List.mem_filter.1 hc).1
  generalize (ofStates baseline live).about n = d at hpart hrenamed hadded
  cases hpart with
  | absent old new => cases hm.symm.trans new
  | deleted _ old new => cases hm.symm.trans new
  | created m' waiting old new ordered =>
    cases hm.symm.trans new
    obtain rfl := State.name_of_model? new
    by_cases hw : f.name ∈ waiting
    · refine absurd (.inr ⟨⟨m.name, f⟩, hadded _ ?_, rfl, rfl⟩) hnew
      exact List.mem_map_of_mem ((Creation.mem_late hwf).2 ⟨hf, hw⟩)
    · exact .inr ⟨_, ordered, rfl, List.mem_map_of_mem ((Creation.mem_early hwf).2 ⟨hf, hw⟩)⟩
  | kept old m' hold new =>
    cases hm.symm.trans new
    obtain rfl := State.name_of_model? new
    cases hlack : old.field? f.name with
    | some g => exact .inl ⟨old, g, hold, hlack⟩
    | none =>
      have hin : f ∈ Revision.removedFields m old :=
        (Revision.mem_removedFields hwf).2 ⟨hf, Keyed.contains_eq_false_iff.2 hlack⟩
      refine absurd ?_ hnew
      cases hr : Revision.renamed? old m with
      | some r =>
        obtain ⟨source, target, hr'⟩ := Revision.exists_isRenamed
          (hb.of_model? hold) hwf hr
        rw [hr'.added, List.mem_singleton] at hin
        subst hin
        refine .inl ⟨⟨m.name, r⟩, hrenamed _ ?_, rfl, hr'.targetName⟩
        rw [Revision.renamed?] at hr
        simp [Revision.diff, hr]
      | none =>
        refine .inr ⟨⟨m.name, f⟩, hadded _ ?_, rfl, rfl⟩
        rw [Revision.renamed?] at hr
        simpa [Revision.diff, hr] using hin

/-- A field is renamed in a model that stays, to the one that the new model has for it. -/
theorem renamed?_of_mem_renameField {source target : String}
    (h : .renameField n source target ∈ (ofStates baseline live).changes) :
    ∃ old new, baseline.model? n = some old ∧ live.model? n = some new ∧
      Revision.renamed? old new = some ⟨source, target⟩ := by
  cases origin_of_mem rfl h with
  | created m waiting old new ordered mem => simp [Creation.changes_create] at mem
  | kept old new hold hnew mem =>
    rw [Revision.changes_diff] at mem
    simp only [List.mem_append, List.mem_map, reduceCtorEq, and_false, exists_false, or_false, false_or,
      renameField.injEq, Option.mem_toList] at mem
    obtain ⟨r, hr, -, rfl, rfl⟩ := mem
    exact ⟨old, new, hold, hnew, hr⟩
  | deleted m old new mem => simp at mem

/-- A field that is renamed is not live under its old name. -/
theorem not_renames_of_live (hb : baseline.WellFormed) (hl : live.WellFormed) (h : live.HasField n k) :
    ¬ (ofStates baseline live).Renames n k := by
  rintro ⟨⟨model, r⟩, hc, rfl, rfl⟩
  obtain ⟨m, f, hm, hf⟩ := h
  obtain ⟨old, new, hold, hnew, hr⟩ := renamed?_of_mem_renameField (renameField_mem_iff.2 hc)
  cases hm.symm.trans hnew
  obtain ⟨_, _, hrenamed⟩ := Revision.exists_isRenamed (hb.of_model? hold) (hl.of_model? hnew) hr
  cases hrenamed.gone.symm.trans hf

/-- A field that is added is live. -/
theorem of_mem_addField (hl : live.WellFormed) {f : Field}
    (h : .addField n f ∈ (ofStates baseline live).changes) :
    ∃ m, live.model? n = some m ∧ m.field? f.name = some f := by
  cases origin_of_mem rfl h with
  | created m waiting old new ordered mem =>
    rw [Creation.changes_create] at mem
    simp only [List.mem_cons, List.mem_append, List.mem_map, reduceCtorEq, and_false, exists_false,
      or_false, false_or, addField.injEq] at mem
    obtain ⟨g, hg, -, rfl⟩ := mem
    exact ⟨m, new, ((Creation.mem_late (hl.of_model? new)).1 hg).1⟩
  | kept old m hold new mem =>
    rw [Revision.changes_diff] at mem
    simp only [List.mem_append, List.mem_map, reduceCtorEq, and_false, exists_false, or_false,
      false_or, addField.injEq] at mem
    obtain ⟨g, hg, -, rfl⟩ := mem
    exact ⟨m, new, (Revision.of_mem_gainedFields (hl.of_model? new) hg).2.1⟩
  | deleted m old new mem => simp at mem

theorem of_mem_changeField {source target : Field}
    (h : .changeField n k source target ∈ (ofStates baseline live).changes) :
    (∃ old, baseline.model? n = some old ∧ old.field? k = some source) ∧
      ∃ new, live.model? n = some new ∧ new.field? k = some target := by
  simp only [changes, List.mem_append, List.mem_map, reduceCtorEq, and_false, exists_false, or_false,
    false_or, changeField.injEq] at h
  obtain ⟨⟨model, r⟩, hc, rfl, rfl, rfl, rfl⟩ := h
  obtain ⟨old, new, hold, hnew, hr⟩ := mem_changedFields.1 hc
  obtain ⟨hsource, htarget, -⟩ := Revision.mem_changedFields.1 hr
  exact ⟨⟨old, hold, hsource⟩, new, hnew, htarget⟩

/-- A model that gets an index is there by then. -/
theorem contains_of_addIndex {i : Index} (hsplit : (ofStates baseline live).changes = done ++ .addIndex n i :: rest)
    (hs : applyAll done baseline = .ok s) : s.contains n = true := by
  have hin : .addIndex n i ∈ (ofStates baseline live).changes := by
    rw [hsplit]
    exact List.mem_append_cons_self
  have hdelete : ∀ name, deleteModel name ∉ done := fun name hx =>
    absurd (rank_le_of_split hsplit hx) (by simp [rank])
  refine contains_of_applyFrom hs hdelete ?_
  cases origin_of_mem rfl hin with
  | created m waiting old new ordered =>
    refine .inr ⟨Creation.early m waiting, mem_of_split hsplit ?_ (by simp [rank])⟩
    rw [changes_eq, creations_ofStates]
    refine List.mem_append_left _ (List.mem_map.2 ⟨_, ordered, ?_⟩)
    rw [State.name_of_model? new]
  | kept _ _ old => exact .inl (Option.isSome_of_eq_some old)
  | deleted _ old => exact .inl (Option.isSome_of_eq_some old)

/-- A field that is renamed is there by then. -/
theorem hasField_of_renameField (hb : baseline.WellFormed) (hl : live.WellFormed) {source target : String}
    (hsplit : (ofStates baseline live).changes = done ++ .renameField n source target :: rest)
    (hs : applyAll done baseline = .ok s) : s.HasField n source := by
  have hin : .renameField n source target ∈ (ofStates baseline live).changes := by
    rw [hsplit]
    exact List.mem_append_cons_self
  obtain ⟨old, new, hold, hnew, hr⟩ := renamed?_of_mem_renameField hin
  obtain rfl := State.name_of_model? hnew
  obtain ⟨f, _, hrenamed⟩ := Revision.exists_isRenamed (hb.of_model? hold) (hl.of_model? hnew) hr
  have hwhole : concerning new.name done ++ .renameField new.name source target :: concerning new.name rest =
      (Revision.diff old new).changes := by
    rw [← concerning_of_kept hold hnew, hsplit, concerning_append]
    exact congrArg _ (List.filter_cons_of_pos (by simp [model?])).symm
  rw [Revision.changes_eq_moves, Revision.moves, hr, Option.toList_some, List.map_singleton,
    List.append_assoc, List.singleton_append, eq_comm] at hwhole
  -- before the renaming there are indexes to remove and nothing else
  obtain ⟨hdone, -⟩ := (List.append_cons_inj_of_notMem (by simp) (by simp)).1 hwhole
  have heffects := effects_concerning hs new.name
  rw [hold, ← hdone] at heffects
  exact ⟨_, f, of_effects_removeIndexes heffects, hrenamed.found⟩

end States

end Diff

end Schemata
