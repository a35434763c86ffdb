import Mathlib.Data.Finset.Image
import Schemata.Proofs.Schema.Indexes

/-! The indexes in force, before and after a change that applies.

For each kind of change within a model: the set of its indexes (`Model.indexSet`) and whether every index is
there once. Only two kinds may spoil that: a change that makes a field carry an index, and one that declares an
index. -/
namespace Schemata

namespace Model
variable {m m' : Model} {i j : Index} {k : String} {f : Field}

/-- The indexes in force. -/
def indexSet (m : Model) : Finset Index := m.effectiveIndexes.toList.toFinset

theorem mem_indexSet (hm : m.WellFormed) :
    i ∈ m.indexSet ↔ m.indexes.contains i = true ∨ ∃ k, m.Carries k ∧ i = .plain k := by
  rw [indexSet, List.mem_toFinset, ← Ascending.contains_iff_mem, contains_effectiveIndexes hm]

theorem plain_mem_indexSet (hm : m.WellFormed) :
    .plain k ∈ m.indexSet ↔ m.indexes.contains (.plain k) = true ∨ m.Carries k := by
  rw [mem_indexSet hm]
  refine or_congr_right ⟨fun ⟨x, hx, he⟩ => ?_, fun hk => ⟨k, hk, rfl⟩⟩
  rwa [Index.plain_inj.1 he]

theorem contains_of_mem_indexSet (hm : m.WellFormed) (hi : i ∈ m.indexSet) (hk : k ∈ i.fields) :
    m.fields.contains k = true :=
  contains_of_effective hm (Ascending.contains_iff_mem.2 (List.mem_toFinset.1 hi)) hk

/-- An index in force is over no field that the model lacks. -/
theorem not_mem_fields (hm : m.WellFormed) (hfree : m.field? k = none) (hi : i ∈ m.indexSet) : k ∉ i.fields := by
  intro hk
  have := contains_of_mem_indexSet hm hi hk
  rw [Keyed.contains_eq_false_iff.2 hfree] at this
  cases this

theorem not_mem_fields_of_contains (hm : m.WellFormed) (hfree : m.field? k = none)
    (hi : m.indexes.contains i = true) : k ∉ i.fields :=
  not_mem_fields hm hfree ((mem_indexSet hm).2 (.inl hi))

theorem mem_plain_fields : k ∈ (Index.plain k).fields := List.mem_singleton.2 rfl

/-! ### A field more or less -/

theorem carries_withField : (m.withFields [f]).Carries k ↔
    if f.name = k then f.implicitIndex?.isSome = true else m.Carries k := by
  have hfield : (m.withFields [f]).field? k = if f.name = k then some f else m.field? k := Keyed.get?_put ..
  rw [Carries, hfield]
  split
  · simp
  · rfl

theorem carries_withoutField : (m.withoutFields [f]).Carries k ↔ f.name ≠ k ∧ m.Carries k := by
  have hfield : (m.withoutFields [f]).field? k = if f.name = k then none else m.field? k := Keyed.get?_erase ..
  rw [Carries, hfield]
  split <;> simp [Carries, *]

section Fields
variable (hm : m.WellFormed)
include hm

theorem indexSet_withField (hm' : (m.withFields [f]).WellFormed) (hfree : m.field? f.name = none) :
    (m.withFields [f]).indexSet =
      if f.implicitIndex?.isSome then insert (.plain f.name) m.indexSet else m.indexSet := by
  have hnew : ¬ m.Carries f.name := fun ⟨g, hg, _⟩ => by cases hfree.symm.trans hg
  ext i
  rw [mem_indexSet hm', show (m.withFields [f]).indexes = m.indexes from rfl]
  simp only [carries_withField]
  split
  · rename_i hcarries
    rw [Finset.mem_insert, mem_indexSet hm, or_left_comm]
    refine or_congr_right ⟨?_, ?_⟩
    · rintro ⟨k, hk, rfl⟩
      split at hk
      · exact .inl (congrArg _ (Eq.symm ‹_›))
      · exact .inr ⟨k, hk, rfl⟩
    · rintro (rfl | ⟨k, hk, rfl⟩)
      · exact ⟨f.name, by rwa [if_pos rfl], rfl⟩
      · refine ⟨k, ?_, rfl⟩
        rwa [if_neg]
        rintro rfl
        exact hnew hk
  · rename_i hcarries
    rw [mem_indexSet hm]
    refine or_congr_right (exists_congr fun k => and_congr_left fun _ => ?_)
    split
    · subst_vars
      exact ⟨fun h => absurd h hcarries, fun h => absurd h hnew⟩
    · rfl

theorem indexedOnce_withField (hfree : m.field? f.name = none) (h : m.IndexedOnce) :
    (m.withFields [f]).IndexedOnce := by
  intro k hk
  rw [carries_withField] at hk
  split at hk
  · subst_vars
    exact Bool.eq_false_iff.2 fun hin => not_mem_fields_of_contains hm hfree hin mem_plain_fields
  · exact h k hk

theorem indexSet_withoutField (hm' : (m.withoutFields [f]).WellFormed) :
    (m.withoutFields [f]).indexSet = m.indexSet.filter fun i => f.name ∉ i.fields := by
  have hgone : (m.withoutFields [f]).field? f.name = none := (Keyed.get?_erase ..).trans (if_pos rfl)
  ext i
  rw [Finset.mem_filter, mem_indexSet hm', mem_indexSet hm,
    show (m.withoutFields [f]).indexes = m.indexes from rfl]
  simp only [carries_withoutField]
  constructor
  · rintro (hi | ⟨k, ⟨hne, hk⟩, rfl⟩)
    · exact ⟨.inl hi, not_mem_fields_of_contains hm' hgone hi⟩
    · exact ⟨.inr ⟨k, hk, rfl⟩, fun hin => hne (List.mem_singleton.1 hin)⟩
  · rintro ⟨hi | ⟨k, hk, rfl⟩, hnot⟩
    · exact .inl hi
    · refine .inr ⟨k, ⟨?_, hk⟩, rfl⟩
      rintro rfl
      exact hnot mem_plain_fields

omit hm in
theorem indexedOnce_withoutField (h : m.IndexedOnce) : (m.withoutFields [f]).IndexedOnce :=
  h.mono (fun _ hk => (carries_withoutField.1 hk).2) fun _ => id

/-! ### A declared index more or less -/

theorem indexSet_withIndex (hm' : (m.withIndexes [j]).WellFormed) :
    (m.withIndexes [j]).indexSet = insert j m.indexSet := by
  ext i
  rw [Finset.mem_insert, mem_indexSet hm', mem_indexSet hm, contains_withIndexes, List.mem_singleton, or_assoc]
  rfl

/-- An index that is declared for the first time is there once exactly when no field carries it. -/
theorem indexedOnce_withIndex (h : m.IndexedOnce) (hj : m.indexes.contains j = false) :
    (m.withIndexes [j]).IndexedOnce ↔ j ∉ m.indexSet := by
  rw [mem_indexSet hm, hj]
  constructor
  · rintro hall (hfalse | ⟨k, hk, rfl⟩)
    · cases hfalse
    · have := hall k hk
      rw [contains_withIndexes.2 (.inl (List.mem_singleton.2 rfl))] at this
      cases this
  · intro hnot k hk
    refine Bool.eq_false_iff.2 fun hin => ?_
    rcases contains_withIndexes.1 hin with hin | hin
    · exact hnot (.inr ⟨k, hk, (List.mem_singleton.1 hin).symm⟩)
    · exact Bool.eq_false_iff.1 (h k hk) hin

theorem indexSet_withoutIndex (hm' : (m.withoutIndexes [j]).WellFormed) (h : m.IndexedOnce)
    (hj : m.indexes.contains j = true) : (m.withoutIndexes [j]).indexSet = m.indexSet.erase j := by
  ext i
  rw [Finset.mem_erase, mem_indexSet hm', mem_indexSet hm, contains_withoutIndexes, List.mem_singleton, and_or_left]
  refine or_congr_right ⟨?_, fun ⟨_, hi⟩ => hi⟩
  rintro ⟨k, hk, rfl⟩
  refine ⟨?_, k, hk, rfl⟩
  rintro rfl
  exact Bool.eq_false_iff.1 (h k hk) hj

omit hm in
theorem indexedOnce_withoutIndexes (is : List Index) (h : m.IndexedOnce) : (m.withoutIndexes is).IndexedOnce :=
  h.mono (fun _ => id) fun _ hi => (contains_withoutIndexes.1 hi).2

end Fields

/-! ### Another field in the place of one -/

theorem Replaces.carries_iff {k' : String} {f' : Field} (h : m.Replaces m' k f k' f') {x : String} :
    m'.Carries x ↔ if x = k' then f'.implicitIndex?.isSome = true else x ≠ k ∧ m.Carries x := by
  rw [Carries, h.left]
  split
  · simp
  · split <;> simp [Carries, *]

section Revised
variable {source target : Field} (hm : m.WellFormed) (hm' : (m.revised [⟨k, source, target⟩]).WellFormed)
  (hf : m.field? k = some f)
include hm hm' hf

theorem indexSet_revised_of_eq (he : f.implicitIndex?.isSome = target.implicitIndex?.isSome) :
    (m.revised [⟨k, source, target⟩]).indexSet = m.indexSet := by
  ext i
  rw [mem_indexSet hm', mem_indexSet hm]
  refine or_congr_right (exists_congr fun x => and_congr_left fun _ => ?_)
  rw [(replaces_revised hf).carries_iff]
  split
  · subst_vars
    simp [Carries, hf, he]
  · exact and_iff_right ‹_›

theorem indexSet_revised_of_carries (ht : target.implicitIndex?.isSome = true) :
    (m.revised [⟨k, source, target⟩]).indexSet = insert (.plain k) m.indexSet := by
  ext i
  rw [Finset.mem_insert, mem_indexSet hm', mem_indexSet hm, or_left_comm]
  refine or_congr_right ⟨?_, ?_⟩
  · rintro ⟨x, hx, rfl⟩
    rw [(replaces_revised hf).carries_iff] at hx
    split at hx
    · exact .inl (congrArg _ ‹_›)
    · exact .inr ⟨x, hx.2, rfl⟩
  · rintro (rfl | ⟨x, hx, rfl⟩)
    · exact ⟨k, by rwa [(replaces_revised hf).carries_iff, if_pos rfl], rfl⟩
    · refine ⟨x, ?_, rfl⟩
      rw [(replaces_revised hf).carries_iff]
      split
      · exact ht
      · exact ⟨‹_›, hx⟩

theorem indexSet_revised_of_lost (h : m.IndexedOnce) (hf' : f.implicitIndex?.isSome = true)
    (ht : target.implicitIndex?.isSome = false) :
    (m.revised [⟨k, source, target⟩]).indexSet = m.indexSet.erase (.plain k) := by
  have hfree := h k ⟨f, hf, hf'⟩
  ext i
  rw [Finset.mem_erase, mem_indexSet hm', mem_indexSet hm, and_or_left]
  refine or_congr ⟨fun hi => ⟨?_, hi⟩, fun ⟨_, hi⟩ => hi⟩ ⟨?_, ?_⟩
  · rintro rfl
    rw [show m.indexes.contains (.plain k) = true from hi] at hfree
    cases hfree
  · rintro ⟨x, hx, rfl⟩
    rw [(replaces_revised hf).carries_iff] at hx
    split at hx
    · rw [ht] at hx
      cases hx
    · exact ⟨fun he => hx.1 (Index.plain_inj.1 he), x, hx.2, rfl⟩
  · rintro ⟨hne, x, hx, rfl⟩
    have hx' : x ≠ k := fun he => hne (congrArg _ he)
    exact ⟨x, by rw [(replaces_revised hf).carries_iff, if_neg hx']; exact ⟨hx', hx⟩, rfl⟩

omit hm hm' in
/-- The changed field may carry an index exactly when the model does not declare it. -/
theorem indexedOnce_revised (h : m.IndexedOnce) : (m.revised [⟨k, source, target⟩]).IndexedOnce ↔
    (target.implicitIndex?.isSome = true → m.indexes.contains (.plain k) = false) := by
  rw [IndexedOnce, show (m.revised [⟨k, source, target⟩]).indexes = m.indexes from rfl]
  simp only [(replaces_revised hf).carries_iff]
  constructor
  · intro hall ht
    exact hall k (by rwa [if_pos rfl])
  · intro hk x hx
    split at hx
    · subst_vars
      exact hk hx
    · exact h x hx.2

omit hm' in
/-- A field that comes to carry an index leaves every index there once exactly when the model lacked that one. -/
theorem indexedOnce_revised_of_carries (h : m.IndexedOnce) (hf' : f.implicitIndex?.isSome = false)
    (ht : target.implicitIndex?.isSome = true) :
    (m.revised [⟨k, source, target⟩]).IndexedOnce ↔ .plain k ∉ m.indexSet := by
  rw [indexedOnce_revised hf h, plain_mem_indexSet hm, carries_iff hf, hf', ht]
  simp

end Revised

section Renamed
variable {source target : String} (hm : m.WellFormed) (hm' : (m.renamed source target).WellFormed)
  (hf : m.field? source = some f) (hfree : m.field? target = none)
include hm hm' hf hfree

omit hm hm' in
theorem carries_renamed_iff : (m.renamed source target).Carries k ↔
    ∃ l, m.Carries l ∧ k = if l = source then target else l := by
  have hsource : m.Carries source ↔ f.implicitIndex?.isSome = true := carries_iff hf
  have htarget : ¬ m.Carries target := fun ⟨g, hg, _⟩ => by cases hfree.symm.trans hg
  rw [(replaces_renamed hf hfree).carries_iff, Field.isSome_implicitIndex?_rename]
  constructor
  · intro h
    split at h
    · exact ⟨source, hsource.2 h, by rwa [if_pos rfl]⟩
    · exact ⟨k, h.2, by rw [if_neg h.1]⟩
  · rintro ⟨l, hl, rfl⟩
    by_cases hls : l = source
    · rw [if_pos hls, if_pos rfl]
      exact hsource.1 (hls ▸ hl)
    · have hlt : l ≠ target := by
        rintro rfl
        exact htarget hl
      rw [if_neg hls, if_neg hlt]
      exact ⟨hls, hl⟩

theorem indexSet_renamed :
    (m.renamed source target).indexSet = m.indexSet.image (·.renameField source target) := by
  ext i
  rw [Finset.mem_image, mem_indexSet hm', contains_renamed]
  simp only [mem_indexSet hm, carries_renamed_iff hf hfree]
  constructor
  · rintro (⟨j, hj, rfl⟩ | ⟨-, ⟨l, hl, rfl⟩, rfl⟩)
    · exact ⟨j, .inl hj, rfl⟩
    · exact ⟨.plain l, .inr ⟨l, hl, rfl⟩, Index.renameField_plain l⟩
  · rintro ⟨j, hj | ⟨l, hl, rfl⟩, rfl⟩
    · exact .inl ⟨j, hj, rfl⟩
    · exact .inr ⟨_, ⟨l, hl, rfl⟩, Index.renameField_plain l⟩

omit hm' in
theorem indexedOnce_renamed (h : m.IndexedOnce) : (m.renamed source target).IndexedOnce := by
  refine fun k hk => Bool.eq_false_iff.2 fun hin => ?_
  obtain ⟨l, hl, rfl⟩ := (carries_renamed_iff hf hfree).1 hk
  obtain ⟨j, hj, he⟩ := contains_renamed.1 hin
  have hplain : j = .plain l := by
    refine Index.renameField_inj (not_mem_fields_of_contains hm hfree hj) (fun hmem => ?_)
      (he.trans (Index.renameField_plain l).symm)
    obtain rfl := List.mem_singleton.1 hmem
    obtain ⟨g, hg, -⟩ := hl
    cases hfree.symm.trans hg
  exact Bool.eq_false_iff.1 (h l hl) (hplain ▸ hj)

end Renamed

theorem indexedOnce_ofFields (name : String) (fields : List Field) : (ofFields name fields).IndexedOnce :=
  fun _ _ => rfl

end Model

end Schemata
