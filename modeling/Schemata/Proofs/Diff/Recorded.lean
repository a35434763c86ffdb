import Schemata.Proofs.Change.Settled
import Schemata.Proofs.Diff.Emptiness

/-! A difference that was written down and read back.

It applies to the baseline unless it changes a field whose default before was no number, and then it leads
to what is live. What is live is compared with the result in vain, unless a live default is no number. -/
namespace Schemata.Diff

variable {baseline s : State} {live : List Model} {d : Diff}

/-- Live models that can be compared with one schema can be compared with any. -/
theorem between_of_between (h : between baseline live = .ok d) (s : State) :
    between s live = .ok (ofStates s (.ofModels live)) := by
  obtain ⟨state, hs, h⟩ := bind_eq_ok_iff.1 h
  obtain rfl := (State.isLive_of_ofLive hs).eq_ofModels
  refine bind_eq_ok_iff.2 ⟨_, hs, ?_⟩
  split at h
  · cases h
  · rfl

theorem exists_settled (h : Change.applyAll d.changes baseline = .ok s) :
    ∃ t, Change.applyAll (d.changes.map .settled) baseline = .ok t ∧ s.Alike t :=
  (Change.matched_settled d.changes baseline 0).exists_right h

theorem exists_of_settled (h : Change.applyAll (d.changes.map .settled) baseline = .ok s) :
    ∃ t, Change.applyAll d.changes baseline = .ok t ∧ t.Alike s :=
  (Change.matched_settled d.changes baseline 0).exists_left h

/-- **What was written down applies** where no changed field had a default that differs from itself. -/
theorem exists_settled_iff (hb : baseline.WellFormed) (h : between baseline live = .ok d) :
    (∃ t, Change.applyAll (d.changes.map .settled) baseline = .ok t) ↔ d.Comparable := by
  constructor
  · rintro ⟨t, ht⟩ c hc
    obtain ⟨s, hs, -⟩ := exists_of_settled ht
    exact Change.comparable_of_applyFrom hs (changeField_mem_changes hc)
  · intro hcomp
    obtain ⟨state, hlive, -, rfl⟩ := eq_ofStates_of_between h
    obtain ⟨s, hs, -⟩ := exists_alike hb hlive.wellFormed hcomp
    obtain ⟨t, ht, -⟩ := exists_settled hs
    exact ⟨t, ht⟩

theorem alike_of_settled (hb : baseline.WellFormed) (h : between baseline live = .ok d)
    (hs : Change.applyAll (d.changes.map .settled) baseline = .ok s) : s.Alike (.ofModels live) := by
  obtain ⟨t, ht, hts⟩ := exists_of_settled hs
  exact hts.symm.trans (alike_of_applyAll hb h ht)

theorem comparable_ofModels_iff (h : between baseline live = .ok d) :
    (State.ofModels live).Comparable ↔ ∀ m ∈ live, m.Comparable := by
  obtain ⟨state, hlive, -, -⟩ := eq_ofStates_of_between h
  obtain rfl := hlive.eq_ofModels
  exact ⟨fun hcomp m hm => hcomp m (hlive.perm.symm.subset hm), hlive.comparable⟩

/-- **Nothing is left to be written down** after that, unless a live default differs from itself. -/
theorem isEmpty_of_settled_iff (hb : baseline.WellFormed) (h : between baseline live = .ok d)
    (hs : Change.applyAll (d.changes.map .settled) baseline = .ok s) (hw : s.WellFormed) :
    (ofStates s (.ofModels live)).isEmpty = true ↔ ∀ m ∈ live, m.Comparable := by
  have halike := alike_of_settled hb h hs
  obtain ⟨state, hlive, -, -⟩ := eq_ofStates_of_between h
  obtain rfl := hlive.eq_ofModels
  rw [isEmpty_ofStates_iff hw hlive.wellFormed, ← comparable_ofModels_iff h]
  exact ⟨fun hsame => halike.comparable (State.comparable_of_same hsame), halike.same⟩

end Schemata.Diff
