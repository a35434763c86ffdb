import Schemata.Diff.Basic
import Schemata.Proofs.Change.Locality

/-! The part of a difference that concerns one model.

Differences are joined list by list, so the part of a joined difference is joined from the parts, and a
difference of one model is a part of its own. With `Change.effects` this reduces what a difference does to
a schema to what its parts do to the models. -/
namespace Schemata.Diff

/-! ### Joined differences -/

theorem append_empty (d : Diff) : d ++ empty = d := by
  show append d empty = d
  simp [append, empty]

theorem empty_append (d : Diff) : empty ++ d = d := by
  show append empty d = d
  simp [append, empty]

/-- The lists of the difference, each with what concerns the model of that name only. -/
def about (name : String) (d : Diff) : Diff where
  createdModels := d.createdModels.filter (·.model == name)
  removedIndexes := d.removedIndexes.filter (·.model == name)
  renamedFields := d.renamedFields.filter (·.model == name)
  changedFields := d.changedFields.filter (·.model == name)
  addedFields := d.addedFields.filter (·.model == name)
  addedIndexes := d.addedIndexes.filter (·.model == name)
  removedFields := d.removedFields.filter (·.model == name)
  deletedModels := d.deletedModels.filter (· == name)

theorem concerning_changes (name : String) (d : Diff) :
    Change.concerning name d.changes = (d.about name).changes := by
  simp [Change.concerning, changes, about, List.filter_map, Function.comp_def, Change.model?]

/-- A change that concerns a model is in the part of the difference that does. -/
theorem mem_about_iff {d : Diff} {c : Change} {n : String} (hc : c.model? = some n) :
    c ∈ (d.about n).changes ↔ c ∈ d.changes := by
  rw [← concerning_changes, Change.concerning, List.mem_filter, and_iff_left (by simp [hc])]

theorem about_append (name : String) (a b : Diff) :
    about name (a ++ b) = about name a ++ about name b := by
  show about name (append a b) = append (about name a) (about name b)
  simp only [about, append, List.filter_append]

/-! ### Differences of one model -/

/-- Whether everything in the difference concerns the model of that name. -/
structure IsOf (d : Diff) (name : String) : Prop where
  createdModels : ∀ c ∈ d.createdModels, c.model = name
  removedIndexes : ∀ c ∈ d.removedIndexes, c.model = name
  renamedFields : ∀ c ∈ d.renamedFields, c.model = name
  changedFields : ∀ c ∈ d.changedFields, c.model = name
  addedFields : ∀ c ∈ d.addedFields, c.model = name
  addedIndexes : ∀ c ∈ d.addedIndexes, c.model = name
  removedFields : ∀ c ∈ d.removedFields, c.model = name
  deletedModels : ∀ n ∈ d.deletedModels, n = name

theorem IsOf.about_eq {d : Diff} {name : String} (h : d.IsOf name) (n : String) :
    about n d = if name = n then d else empty := by
  by_cases hn : name = n
  · subst hn
    rw [if_pos rfl, about]
    congr 1 <;> refine List.filter_eq_self.2 fun c hc => beq_iff_eq.2 ?_
    · exact h.createdModels c hc
    · exact h.removedIndexes c hc
    · exact h.renamedFields c hc
    · exact h.changedFields c hc
    · exact h.addedFields c hc
    · exact h.addedIndexes c hc
    · exact h.removedFields c hc
    · exact h.deletedModels c hc
  · have hne : ∀ x : String, x = name → ¬ (x == n) = true := by
      rintro x rfl
      simpa using hn
    rw [if_neg hn, about, empty]
    congr 1 <;> refine List.filter_eq_nil_iff.2 fun c hc => hne _ ?_
    · exact h.createdModels c hc
    · exact h.removedIndexes c hc
    · exact h.renamedFields c hc
    · exact h.changedFields c hc
    · exact h.addedFields c hc
    · exact h.addedIndexes c hc
    · exact h.removedFields c hc
    · exact h.deletedModels c hc

/-! ### Differences joined one after the other -/

section Joined
variable {α : Type} {part : α → Diff} {key : α → String}

theorem about_foldl_of_not_mem (hpart : ∀ a, (part a).IsOf (key a)) {n : String} {l : List α}
    (d : Diff) (h : n ∉ l.map key) :
    about n (l.foldl (fun d a => d ++ part a) d) = about n d := by
  induction l generalizing d with
  | nil => rfl
  | cons a rest ih =>
    rw [List.map_cons, List.mem_cons, not_or] at h
    have hne : ¬ key a = n := fun he => h.1 he.symm
    rw [List.foldl_cons, ih _ h.2, about_append, (hpart a).about_eq, if_neg hne, append_empty]

/-- Of differences of different models, the one of a model is its part of the whole. -/
theorem about_foldl_of_mem (hpart : ∀ a, (part a).IsOf (key a)) {a : α} {l : List α} (d : Diff)
    (hd : (l.map key).Nodup) (ha : a ∈ l) :
    about (key a) (l.foldl (fun d a => d ++ part a) d) = about (key a) d ++ part a := by
  induction l generalizing d with
  | nil => cases ha
  | cons b rest ih =>
    rw [List.map_cons, List.nodup_cons] at hd
    rw [List.foldl_cons]
    rcases List.mem_cons.1 ha with rfl | ha
    · rw [about_foldl_of_not_mem hpart _ hd.1, about_append, (hpart a).about_eq, if_pos rfl]
    · have hne : ¬ key b = key a := fun he => hd.1 (he ▸ List.mem_map_of_mem ha)
      rw [ih _ hd.2 ha, about_append, (hpart b).about_eq, if_neg hne, append_empty]

end Joined

end Schemata.Diff
