import Mathlib.Data.Finset.Basic
import Mathlib.Data.Finset.Dedup
import Mathlib.Data.List.Nodup
import Schemata.Proofs.Change.Fields

/-! The columns that hold the fields of a model.

A model is kept by the names of its fields and a table by those of its columns, and a field may be in a
column of another name. So two fields may claim one column (`Model.DistinctColumns`), which no change looks
at. Here is what a change of one field does to the columns as long as no two fields claim one. -/
namespace Schemata

namespace Model

/-- The columns of the table that holds the model. -/
def columns (m : Model) : Finset String := (m.fields.values.map Field.columnName).toFinset

/-- No two fields have one column. -/
def DistinctColumns (m : Model) : Prop := (m.fields.values.map Field.columnName).Nodup

instance (m : Model) : Decidable m.DistinctColumns :=
  inferInstanceAs (Decidable (List.Nodup _))

variable {m m' : Model} {c : String}

theorem mem_columns : c ∈ m.columns ↔ ∃ k f, m.field? k = some f ∧ f.columnName = c := by
  simp only [columns, List.mem_toFinset, List.mem_map, Keyed.mem_values_iff]
  constructor
  · rintro ⟨f, ⟨k, hk⟩, hc⟩
    exact ⟨k, f, hk, hc⟩
  · rintro ⟨k, f, hk, hc⟩
    exact ⟨f, ⟨k, hk⟩, hc⟩

theorem distinctColumns_iff :
    m.DistinctColumns ↔ ∀ k l f g, m.field? k = some f → m.field? l = some g →
      f.columnName = g.columnName → k = l := by
  have hvalues : m.fields.values.map Field.columnName =
      m.fields.entries.map fun e => e.2.columnName := by
    rw [Keyed.values, List.map_map]
    rfl
  rw [DistinctColumns, hvalues, List.nodup_map_iff_inj_on m.fields.distinct.of_map]
  constructor
  · intro h k l f g hf hg hc
    have := h (k, f) (Keyed.get?_eq_some_iff.1 hf) (l, g) (Keyed.get?_eq_some_iff.1 hg) hc
    exact congrArg Prod.fst this
  · rintro h ⟨k, f⟩ hf ⟨l, g⟩ hg hc
    have hf' : m.field? k = some f := Keyed.get?_eq_some_iff.2 hf
    have hg' : m.field? l = some g := Keyed.get?_eq_some_iff.2 hg
    obtain rfl := h k l f g hf' hg' hc
    cases hf'.symm.trans hg'
    rfl

/-- A model whose fields are fields of another one, under the same names. -/
theorem DistinctColumns.of_fields (h : m.DistinctColumns)
    (hsub : ∀ k f, m'.field? k = some f → ∃ g, m.field? k = some g ∧ g.columnName = f.columnName) :
    m'.DistinctColumns := by
  rw [distinctColumns_iff] at h ⊢
  intro k l f g hf hg hc
  obtain ⟨f', hf', hfc⟩ := hsub k f hf
  obtain ⟨g', hg', hgc⟩ := hsub l g hg
  exact h k l f' g' hf' hg' (hfc.trans (hc.trans hgc.symm))

theorem Alike.columns_eq (h : m.Alike m') : m.columns = m'.columns := by
  ext c
  rw [mem_columns, mem_columns]
  constructor
  · rintro ⟨k, f, hf, hc⟩
    obtain ⟨g, hg, hfg⟩ := rel_exists_right (hf ▸ h.field k)
    exact ⟨k, g, hg, hfg.columnName ▸ hc⟩
  · rintro ⟨k, g, hg, hc⟩
    obtain ⟨f, hf, hfg⟩ := rel_exists_left (hg ▸ h.field k)
    exact ⟨k, f, hf, hfg.columnName ▸ hc⟩

/-! ### One field more, less, or another -/

theorem columns_withField {f : Field} (hfree : m.field? f.name = none) :
    (m.withFields [f]).columns = insert f.columnName m.columns := by
  ext c
  rw [Finset.mem_insert, mem_columns, mem_columns]
  have hfield : ∀ k, (m.withFields [f]).field? k = if f.name = k then some f else m.field? k :=
    fun k => Keyed.get?_put ..
  constructor
  · rintro ⟨k, g, hg, hc⟩
    rw [hfield] at hg
    split at hg
    · cases hg
      exact .inl hc.symm
    · exact .inr ⟨k, g, hg, hc⟩
  · rintro (rfl | ⟨k, g, hg, hc⟩)
    · exact ⟨f.name, f, by rw [hfield, if_pos rfl], rfl⟩
    · have hne : ¬ f.name = k := by
        rintro rfl
        cases hfree.symm.trans hg
      exact ⟨k, g, by rw [hfield, if_neg hne, hg], hc⟩

theorem distinctColumns_withField {f : Field} (hm : m.DistinctColumns) (hfree : m.field? f.name = none) :
    (m.withFields [f]).DistinctColumns ↔ f.columnName ∉ m.columns := by
  have hfield : ∀ k, (m.withFields [f]).field? k = if f.name = k then some f else m.field? k :=
    fun k => Keyed.get?_put ..
  constructor
  · intro h hin
    obtain ⟨k, g, hg, hc⟩ := mem_columns.1 hin
    have hne : ¬ f.name = k := by
      rintro rfl
      cases hfree.symm.trans hg
    exact hne (distinctColumns_iff.1 h f.name k f g (by rw [hfield, if_pos rfl])
      (by rw [hfield, if_neg hne, hg]) hc.symm)
  · intro hnew
    refine distinctColumns_iff.2 fun k l g g' hg hg' hc => ?_
    rw [hfield] at hg hg'
    split at hg <;> split at hg'
    · exact Eq.trans (Eq.symm ‹_›) ‹_›
    · cases hg
      exact absurd (mem_columns.2 ⟨l, g', hg', hc.symm⟩) hnew
    · cases hg'
      exact absurd (mem_columns.2 ⟨k, g, hg, hc⟩) hnew
    · exact distinctColumns_iff.1 hm k l g g' hg hg' hc

theorem columns_withoutField {f g : Field} (hm : m.DistinctColumns) (hg : m.field? f.name = some g)
    (hc : g.columnName = f.columnName) : (m.withoutFields [f]).columns = m.columns.erase f.columnName := by
  have hfield : ∀ k, (m.withoutFields [f]).field? k = if f.name = k then none else m.field? k :=
    fun k => Keyed.get?_erase ..
  ext c
  rw [Finset.mem_erase, mem_columns, mem_columns]
  constructor
  · rintro ⟨k, x, hx, rfl⟩
    rw [hfield] at hx
    split at hx
    · cases hx
    · rename_i hne
      refine ⟨fun he => hne ?_, k, x, hx, rfl⟩
      exact distinctColumns_iff.1 hm _ _ g x hg hx (hc.trans he.symm)
  · rintro ⟨hne, k, x, hx, rfl⟩
    have hk : ¬ f.name = k := by
      rintro rfl
      cases hg.symm.trans hx
      exact hne hc
    exact ⟨k, x, by rw [hfield, if_neg hk, hx], rfl⟩

/-- The field `f` of the one model has made way for the field `f'` of the other one. -/
structure Replaces (m m' : Model) (k : String) (f : Field) (k' : String) (f' : Field) : Prop where
  found : m.field? k = some f
  free : k = k' ∨ m.field? k' = none
  left : ∀ x, m'.field? x = if x = k' then some f' else if x = k then none else m.field? x

section Replaced
variable {k k' : String} {f f' : Field} (h : Replaces m m' k f k' f') (hm : m.DistinctColumns)
include h

theorem Replaces.columns_of_eq (hc : f.columnName = f'.columnName) : m'.columns = m.columns := by
  ext c
  rw [mem_columns, mem_columns]
  constructor
  · rintro ⟨x, g, hg, rfl⟩
    rw [h.left] at hg
    split at hg
    · cases hg
      exact ⟨k, f, h.found, hc⟩
    · split at hg
      · cases hg
      · exact ⟨x, g, hg, rfl⟩
  · rintro ⟨x, g, hg, rfl⟩
    by_cases hx : x = k
    · subst hx
      cases h.found.symm.trans hg
      exact ⟨k', f', by rw [h.left, if_pos rfl], hc.symm⟩
    · have hx' : ¬ x = k' := by
        rintro rfl
        rcases h.free with rfl | hfree
        · exact hx rfl
        · cases hfree.symm.trans hg
      exact ⟨x, g, by rw [h.left, if_neg hx', if_neg hx, hg], rfl⟩

include hm

theorem Replaces.distinctColumns_iff :
    m'.DistinctColumns ↔ f.columnName = f'.columnName ∨ f'.columnName ∉ m.columns := by
  constructor
  · intro h'
    by_cases hin : f'.columnName ∈ m.columns
    · obtain ⟨x, g, hg, hc⟩ := mem_columns.1 hin
      by_cases hx : x = k
      · subst hx
        cases h.found.symm.trans hg
        exact .inl hc
      · have hx' : ¬ x = k' := by
          rintro rfl
          rcases h.free with rfl | hfree
          · exact hx rfl
          · cases hfree.symm.trans hg
        exact absurd (Model.distinctColumns_iff.1 h' x k' g f'
          (by rw [h.left, if_neg hx', if_neg hx, hg]) (by rw [h.left, if_pos rfl]) hc) hx'
    · exact .inr hin
  · intro hc
    have hother : ∀ x g, ¬ x = k → m.field? x = some g → g.columnName ≠ f'.columnName := by
      intro x g hx hg he
      rcases hc with hc | hc
      · exact hx (Model.distinctColumns_iff.1 hm x k g f hg h.found (he.trans hc.symm))
      · exact hc (mem_columns.2 ⟨x, g, hg, he⟩)
    refine Model.distinctColumns_iff.2 fun x y g g' hg hg' he => ?_
    rw [h.left] at hg hg'
    by_cases hx : x = k' <;> by_cases hy : y = k'
    · exact hx.trans hy.symm
    · rw [if_pos hx] at hg
      rw [if_neg hy] at hg'
      split at hg'
      · cases hg'
      · cases hg
        exact absurd he.symm (hother y g' ‹_› hg')
    · rw [if_neg hx] at hg
      rw [if_pos hy] at hg'
      split at hg
      · cases hg
      · cases hg'
        exact absurd he (hother x g ‹_› hg)
    · rw [if_neg hx] at hg
      rw [if_neg hy] at hg'
      split at hg
      · cases hg
      split at hg'
      · cases hg'
      exact Model.distinctColumns_iff.1 hm x y g g' hg hg' he

theorem Replaces.columns_of_ne :
    m'.columns = insert f'.columnName (m.columns.erase f.columnName) := by
  ext c
  rw [Finset.mem_insert, Finset.mem_erase, mem_columns, mem_columns]
  constructor
  · rintro ⟨x, g, hg, rfl⟩
    rw [h.left] at hg
    split at hg
    · cases hg
      exact .inl rfl
    · split at hg
      · cases hg
      · refine .inr ⟨fun he => ?_, x, g, hg, rfl⟩
        exact ‹¬ x = k› (Model.distinctColumns_iff.1 hm x k g f hg h.found he)
  · rintro (rfl | ⟨hne, x, g, hg, rfl⟩)
    · exact ⟨k', f', by rw [h.left, if_pos rfl], rfl⟩
    · have hx : ¬ x = k := by
        rintro rfl
        cases h.found.symm.trans hg
        exact hne rfl
      have hx' : ¬ x = k' := by
        rintro rfl
        rcases h.free with rfl | hfree
        · exact hx rfl
        · cases hfree.symm.trans hg
      exact ⟨x, g, by rw [h.left, if_neg hx', if_neg hx, hg], rfl⟩

end Replaced

theorem replaces_revised {k : String} {f source target : Field} (hf : m.field? k = some f) :
    Replaces m (m.revised [⟨k, source, target⟩]) k f k target where
  found := hf
  free := .inl rfl
  left x := by
    have hfield : (m.revised [⟨k, source, target⟩]).field? x =
        if k = x then (m.field? x).map (fun _ => target) else m.field? x := Keyed.get?_revise ..
    rw [hfield]
    by_cases hx : x = k
    · subst hx
      simp [hf]
    · rw [if_neg (Ne.symm hx), if_neg hx, if_neg hx]

theorem replaces_renamed {source target : String} {f : Field} (hf : m.field? source = some f)
    (hfree : m.field? target = none) :
    Replaces m (m.renamed source target) source f target (f.rename target) where
  found := hf
  free := .inr hfree
  left x := by rw [Model.field?_renamed hfree, hf]; rfl

end Model

namespace State

/-- No two fields of a model have one column. -/
def DistinctColumns (s : State) : Prop := ∀ n m, s.model? n = some m → m.DistinctColumns

theorem distinctColumns_iff {s : State} : s.DistinctColumns ↔ ∀ m ∈ s.toList, m.DistinctColumns :=
  ⟨fun h m hm => h m.name m (Ascending.find?_of_mem hm),
    fun h _ m hm => h m (Ascending.find?_eq_some_iff.1 hm).1⟩

instance (s : State) : Decidable s.DistinctColumns := decidable_of_iff' _ distinctColumns_iff

end State

end Schemata
