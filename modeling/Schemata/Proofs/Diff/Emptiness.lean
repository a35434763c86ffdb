import Schemata.Proofs.Diff.RoundTrip

/-! When there is no difference. Two states have none exactly when they are the same; so a state that differs
from itself, in a default that is no number, has a difference with itself. -/
namespace Schemata

namespace Revision
variable {old new : Model}

theorem removedFields_of_same (hold : old.WellFormed) (h : old.same new = true) :
    removedFields old new = [] := by
  refine List.filter_eq_nil_iff.2 fun f hf => ?_
  obtain ⟨k, hk⟩ := Keyed.mem_values_iff.1 hf
  obtain rfl := hold.named k f hk
  have hthere := (Model.same_iff_alike.1 h).1.contains f.name
  rw [Keyed.contains_eq_isSome, hk] at hthere
  simp [← hthere]

/-- Nothing is revised in a model that is the same on both sides. -/
theorem changes_diff_of_same (hold : old.WellFormed) (hnew : new.WellFormed) (h : old.same new = true) :
    (diff old new).changes = [] := by
  obtain ⟨halike, hcomp⟩ := Model.same_iff_alike.1 h
  have hback : new.same old = true := Model.same_iff_alike.2 ⟨halike.symm, halike.comparable hcomp⟩
  have hchanged : changedFields old new = [] := by
    refine List.eq_nil_iff_forall_not_mem.2 fun r hr => ?_
    obtain ⟨hsource, htarget, hsame⟩ := mem_changedFields.1 hr
    have hk := (Model.same_iff.1 h).2.1 r.field
    rw [hsource, htarget] at hk
    exact absurd hk (Bool.eq_false_iff.1 hsame)
  have hindexes : ∀ i ∈ new.indexes.toList, new.indexes.contains i = true :=
    fun i hi => Ascending.contains_iff_mem.2 hi
  have hremoved : (old.indexes.toList.filter fun i => !new.indexes.contains (carry none i)) = [] := by
    rw [halike.indexes]
    exact List.filter_eq_nil_iff.2 fun i hi => by simp [carry, hindexes i hi]
  have hadded : (new.indexes.toList.filter fun i =>
      !(Ascending.ofList (old.indexes.toList.map (carry none)) : Indexes).contains i) = [] := by
    refine List.filter_eq_nil_iff.2 fun i hi => ?_
    have hthere : (Ascending.ofList (old.indexes.toList.map (carry none)) : Indexes).contains i = true := by
      rw [Ascending.contains_ofList, List.map_id, halike.indexes]
      exact List.mem_map.2 ⟨i, hi, rfl⟩
    simp [hthere]
  have hnone : renaming? [] [] = none := rfl
  simp only [diff, removedFields_of_same hold h, removedFields_of_same hnew hback, hnone, hchanged, hremoved,
    hadded]
  rfl

end Revision

namespace Diff

theorem exists_model?_of_mem {d : Diff} {c : Change} (h : c ∈ d.changes) : ∃ n, c.model? = some n := by
  simp only [changes, List.mem_append, List.mem_map] at h
  rcases h with ((((((h | h) | h) | h) | h) | h) | h) | h <;> obtain ⟨x, -, rfl⟩ := h <;> exact ⟨_, rfl⟩

/-- A difference is empty when no part of it says anything. -/
theorem isEmpty_iff {d : Diff} : d.isEmpty = true ↔ ∀ n, (d.about n).changes = [] := by
  rw [isEmpty, List.isEmpty_iff]
  constructor
  · intro h n
    rw [← concerning_changes, h]
    rfl
  · intro h
    refine List.eq_nil_iff_forall_not_mem.2 fun c hc => ?_
    obtain ⟨n, hn⟩ := exists_model?_of_mem hc
    have hin : c ∈ Change.concerning n d.changes := List.mem_filter.2 ⟨hc, by simp [hn]⟩
    rw [concerning_changes, h n] at hin
    cases hin

section States
variable {baseline live : State}

theorem comparable_of_isEmpty (h : (ofStates baseline live).isEmpty = true) : (ofStates baseline live).Comparable := by
  intro c hc
  have hin := changeField_mem_changes hc
  rw [isEmpty, List.isEmpty_iff] at h
  rw [h] at hin
  cases hin

/-- **No difference.** -/
theorem isEmpty_ofStates_iff (hb : baseline.WellFormed) (hl : live.WellFormed) :
    (ofStates baseline live).isEmpty = true ↔ baseline.same live = true := by
  constructor
  · intro h
    obtain ⟨s, hs, halike⟩ := exists_alike hb hl (comparable_of_isEmpty h)
    have hnone : (ofStates baseline live).changes = [] := List.isEmpty_iff.1 h
    rw [hnone] at hs
    cases hs
    refine State.same_iff_alike.2 ⟨halike, State.comparable_iff.2 fun n m hm f hf => ?_⟩
    obtain ⟨m', hm', hmm⟩ := rel_exists_right (hm ▸ halike n)
    obtain ⟨k, hk⟩ := Keyed.mem_values_iff.1 hf
    obtain ⟨g, hg, hfg⟩ := rel_exists_right
      (show Option.Rel Field.Alike (some f) (m'.field? k) from hk ▸ hmm.field k)
    cases hsame : f.same g with
    | true => exact Field.comparable_of_same hsame
    | false =>
      have hr : (⟨k, f, g⟩ : Revision) ∈ Revision.changedFields m m' := Revision.mem_changedFields.2 ⟨hk, hg, hsame⟩
      exact comparable_of_isEmpty h ⟨n, _⟩ (mem_changedFields.2 ⟨m, m', hm, hm', hr⟩)
  · intro h
    refine isEmpty_iff.2 fun n => ?_
    have hn := State.same_iff.1 h n
    have hpart := part_about baseline live n
    generalize (ofStates baseline live).about n = d at hpart ⊢
    cases hpart with
    | absent => rfl
    | created m waiting old new =>
      rw [old, new] at hn
      cases hn
    | kept m m' old new =>
      rw [old, new] at hn
      exact Revision.changes_diff_of_same (hb.of_model? old) (hl.of_model? new) hn
    | deleted m old new =>
      rw [old, new] at hn
      cases hn

end States

/-! ### Live models -/

section Live
variable {baseline : State} {live : List Model} {d : Diff}

/-- A state is the same as live models when it has models of their names, and under each name the declared indexes
and, in whatever order, the fields of the live model. -/
theorem same_ofModels_iff {s : State} (hlive : State.IsLive live s) :
    baseline.same s = true ↔ baseline.names.Perm (live.map Model.name) ∧
      ∀ new ∈ live, ∀ old, baseline.model? new.name = some old →
        old.indexes = new.indexes ∧ ∀ k, sameOption Field.same (old.field? k) (new.field? k) = true := by
  have hnames : s.names.Perm (live.map Model.name) := hlive.perm.map Model.name
  have hfound : ∀ new ∈ live, s.model? new.name = some new := fun new hnew =>
    Ascending.find?_of_mem (hlive.perm.symm.subset hnew)
  rw [State.same_iff]
  constructor
  · intro h
    rw [State.names_eq fun n => sameOption_isSome (h n)]
    refine ⟨hnames, fun new hnew old hold => ?_⟩
    have hn := h new.name
    rw [hold, hfound new hnew] at hn
    obtain ⟨-, hfields, hindexes⟩ := Model.same_iff.1 hn
    exact ⟨hindexes, hfields⟩
  · rintro ⟨hperm, hall⟩ n
    have hthere : (baseline.model? n).isSome = (s.model? n).isSome := by
      rw [Bool.eq_iff_iff]
      exact Ascending.contains_iff.trans ((hperm.trans hnames.symm).mem_iff.trans Ascending.contains_iff.symm)
    cases hold : baseline.model? n with
    | none =>
      cases hnew : s.model? n with
      | none => rfl
      | some new =>
        rw [hold, hnew] at hthere
        cases hthere
    | some old =>
      rw [hold] at hthere
      obtain ⟨new, hnew⟩ := Option.isSome_iff_exists.1 hthere.symm
      obtain rfl := State.name_of_model? hnew
      obtain ⟨hindexes, hfields⟩ := hall new (hlive.perm.subset (State.mem_of_model? hnew)) old hold
      rw [hnew]
      exact Model.same_iff.2 ⟨State.name_of_model? hold, hfields, hindexes⟩

/-- **When nothing changed.** The difference with live models is empty exactly when the schema is the same as they
are. That is so whatever the order of the models and, within each, of the fields. -/
theorem isEmpty_between_iff (hb : baseline.Reachable) (h : between baseline live = .ok d) :
    (d.isEmpty = true ↔ baseline.same (.ofModels live) = true) ∧
      (d.isEmpty = true ↔ baseline.names.Perm (live.map Model.name) ∧
        ∀ new ∈ live, ∀ old, baseline.model? new.name = some old →
          old.indexes = new.indexes ∧ ∀ k, sameOption Field.same (old.field? k) (new.field? k) = true) := by
  obtain ⟨s, hlive, -, rfl⟩ := eq_ofStates_of_between h
  have hempty := isEmpty_ofStates_iff hb.wellFormed hlive.wellFormed
  exact ⟨hlive.eq_ofModels ▸ hempty, hempty.trans (same_ofModels_iff hlive)⟩

end Live

/-- A name and a note, for examples. -/
def sampleTexts : List Field := [{ name := "name", type := .text }, { name := "note", type := .text, blank := true }]

/-- A model with fields and one without, for examples. -/
def sampleUsers (fields : List Field) : List Model :=
  [.ofFields "tag" [.autoKey "id"], .ofFields "user" (fields ++ [.autoKey "id"])]

/-- Models and fields in another order make no difference, and one attribute of a field does. -/
theorem isEmpty_between_iff_sample :
    let history := [.createModel "user" (sampleTexts ++ [.autoKey "id"]), .createModel "tag" [.autoKey "id"]]
    Change.applyAll history Ascending.empty = .ok (.ofModels (sampleUsers sampleTexts)) ∧
      (∃ d, between (.ofModels (sampleUsers sampleTexts)) (sampleUsers sampleTexts.reverse).reverse = .ok d ∧
        d.isEmpty = true) ∧
      ∃ d, between (.ofModels (sampleUsers sampleTexts))
        (sampleUsers (sampleTexts.map fun f => { f with blank := true })) = .ok d ∧ d.isEmpty = false := by
  have hreached : (State.ofModels (sampleUsers sampleTexts)).Reachable :=
    ⟨[.createModel "user" (sampleTexts ++ [.autoKey "id"]), .createModel "tag" [.autoKey "id"]], rfl⟩
  obtain ⟨d, hd⟩ : ∃ d, between (.ofModels (sampleUsers sampleTexts)) (sampleUsers sampleTexts.reverse).reverse =
    .ok d := ⟨_, rfl⟩
  obtain ⟨e, he⟩ : ∃ e, between (.ofModels (sampleUsers sampleTexts))
    (sampleUsers (sampleTexts.map fun f => { f with blank := true })) = .ok e := ⟨_, rfl⟩
  refine ⟨rfl, ⟨d, hd, (isEmpty_between_iff hreached hd).1.2 (by decide)⟩, ⟨e, he, ?_⟩⟩
  exact Bool.eq_false_iff.2 fun h => absurd ((isEmpty_between_iff hreached he).1.1 h) (by decide)

end Diff

end Schemata
