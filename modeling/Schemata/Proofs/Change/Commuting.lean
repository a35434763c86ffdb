import Schemata.Proofs.Change.Locality

/-! Changes in another order.

What a list of changes leaves under a name is what the changes of that one model leave there, and whether they all
apply is decided name by name. So only the order of changes of one and the same model counts
(`applyAll_congr`), and two changes without a common model may change places (`apply_comm`): neither asks nor
touches anything outside its model, whatever foreign keys there are between the two. -/
namespace Schemata

theorem State.ext_model? {s t : State} (h : ∀ name, s.model? name = t.model? name) : s = t :=
  Ascending.ext_find? h

namespace Change
variable {c d : Change} {s s' : State}

/-- Changes lead from one schema to another when they do so model by model. -/
theorem applyFrom_eq_ok_iff {position : Nat} {cs : List Change} :
    applyFrom position cs s = .ok s' ↔
      ∀ name, effects (concerning name cs) (s.model? name) = .ok (s'.model? name) := by
  refine ⟨effects_concerning, fun h => ?_⟩
  obtain ⟨t, ht⟩ : ∃ t, applyFrom position cs s = .ok t := exists_applyFrom fun name => ⟨_, h name⟩
  have hmodels : ∀ name, t.model? name = s'.model? name := fun name =>
    Except.ok.inj ((effects_concerning ht name).symm.trans (h name))
  rw [ht, State.ext_model? hmodels]

/-- Changes may be taken in any order that is the same on each model. -/
theorem applyAll_congr {cs ds : List Change} (h : ∀ name, concerning name cs = concerning name ds) :
    applyAll cs s = .ok s' ↔ applyAll ds s = .ok s' := by
  rw [applyAll, applyAll, applyFrom_eq_ok_iff, applyFrom_eq_ok_iff]
  exact forall_congr' fun name => by rw [h name]

/-! ### Two changes -/

/-- The two changes have different models, or one of them has none. -/
def Apart (c d : Change) : Prop := c.model? = none ∨ d.model? = none ∨ c.model? ≠ d.model?

instance (c d : Change) : Decidable (c.Apart d) :=
  inferInstanceAs (Decidable (c.model? = none ∨ d.model? = none ∨ c.model? ≠ d.model?))

theorem Apart.not_both (h : c.Apart d) {name : String} (hc : c.model? = some name) :
    d.model? ≠ some name := by
  intro hd
  rcases h with h | h | h
  · cases hc.symm.trans h
  · cases hd.symm.trans h
  · exact h (hc.trans hd.symm)

/-- On each model there is at most one of the two. -/
theorem Apart.concerning_swap (h : c.Apart d) (name : String) :
    concerning name [c, d] = concerning name [d, c] := by
  by_cases hc : c.model? = some name
  · have hd := h.not_both hc
    simp [concerning, hc, hd]
  · simp [concerning, List.filter_cons, hc]

theorem applyAll_pair : applyAll [c, d] s = .ok s' ↔ (c.apply s).bind d.apply = .ok s' := by
  have hlast : ∀ t, applyAll [d] t = .ok s' ↔ d.apply t = .ok s' := fun t => by
    rw [applyAll, applyFrom]
    cases d.apply t <;> simp [applyFrom]
  rw [applyAll_cons_eq_ok_iff]
  simp only [hlast]
  exact bind_eq_ok_iff.symm

/-- **Changes of different models change places.** One order leads to a schema exactly when the other one does, and
then to the same; and whichever change applies to whatever schema, every model but its own is after it what it
was before. -/
theorem apply_comm (h : c.Apart d) (s : State) :
    (∀ s', (c.apply s).bind d.apply = .ok s' ↔ (d.apply s).bind c.apply = .ok s') ∧
      ∀ e ∈ [c, d], ∀ u u', e.apply u = .ok u' →
        ∀ name, e.model? ≠ some name → u'.model? name = u.model? name := by
  constructor
  · intro s'
    rw [← applyAll_pair, ← applyAll_pair]
    exact applyAll_congr h.concerning_swap
  · intro e _ u u' he name hname
    exact model?_of_apply hname he

/-- Two models, one with a foreign key to the other. -/
def sampleRelated : List Change :=
  [.createModel "post" [.autoKey "id", { name := "author", type := .foreignKey (.toModel "user" .cascade) }],
    .createModel "tag" [.autoKey "id"]]

/-- The target of a foreign key is made, and the model with the foreign key taken away, in either order. -/
theorem apply_comm_related :
    ∃ s s', applyAll sampleRelated Ascending.empty = .ok s ∧
      (createModel "user" [.autoKey "id"]).Apart (deleteModel "post") ∧
      ((createModel "user" [.autoKey "id"]).apply s).bind (deleteModel "post").apply = .ok s' ∧
      ((deleteModel "post").apply s).bind (createModel "user" [.autoKey "id"]).apply = .ok s' ∧
      ∀ u, (deleteModel "post").apply s = .ok u → u.model? "tag" = s.model? "tag" := by
  obtain ⟨s, hs⟩ : ∃ s, applyAll sampleRelated Ascending.empty = .ok s := ⟨_, by rfl⟩
  obtain ⟨s', hs'⟩ : ∃ s', ((createModel "user" [.autoKey "id"]).apply s).bind (deleteModel "post").apply = .ok s' := by
    cases hs
    exact ⟨_, by rfl⟩
  have hapart : (createModel "user" [.autoKey "id"]).Apart (deleteModel "post") := by decide
  obtain ⟨hswap, hframe⟩ := apply_comm hapart s
  exact ⟨s, s', hs, hapart, hs', (hswap s').1 hs', fun u hu => hframe _ (by simp) s u hu "tag" (by decide)⟩

end Change

end Schemata
