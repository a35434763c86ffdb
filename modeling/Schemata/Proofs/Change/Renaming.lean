import Schemata.Proofs.Change.Fields

/-! A field under another name, and back.

Renaming a field moves nothing: the field stays where it stands among the others and keeps what is said of it,
and every index follows it. No two indexes become one, for no index names a field that the model does not have,
so none of them had the new name before. Renaming the field back therefore leads to the schema that there was
(`renameField_undone`). -/
namespace Schemata

/-! ### An entry under another key -/

namespace Keyed
variable {κ α : Type} [DecidableEq κ] {t u : Keyed κ α} {k target : κ} {a : α}

omit [DecidableEq κ] in
theorem ext_entries (h : t.entries = u.entries) : t = u := by
  cases t
  cases u
  cases h
  rfl

theorem rekeyed_of_not_mem (f : α → α) {l : List (κ × α)} (h : k ∉ l.map Prod.fst) :
    rekeyed k target f l = l := by
  have hkept : rekeyed k target f l = l.map id :=
    List.map_congr_left fun e he => if_neg fun hk : e.1 = k => h (hk ▸ List.mem_map_of_mem he)
  rw [hkept, List.map_id]

theorem rekeyed_split (f : α → α) {front back : List (κ × α)} (hfront : k ∉ front.map Prod.fst)
    (hback : k ∉ back.map Prod.fst) :
    rekeyed k target f (front ++ (k, a) :: back) = front ++ (target, f a) :: back := by
  have hsplit : rekeyed k target f (front ++ (k, a) :: back) =
      rekeyed k target f front ++ (target, f a) :: rekeyed k target f back := by
    simp [rekeyed]
  rw [hsplit, rekeyed_of_not_mem f hfront, rekeyed_of_not_mem f hback]

theorem exists_split (h : t.get? k = some a) : ∃ front back, t.entries = front ++ (k, a) :: back ∧
    k ∉ front.map Prod.fst ∧ k ∉ back.map Prod.fst := by
  obtain ⟨front, back, hsplit⟩ := List.append_of_mem (get?_eq_some_iff.1 h)
  have hmoved : t.entries.Perm ((k, a) :: (front ++ back)) := hsplit ▸ List.perm_middle
  have hd := (hmoved.map Prod.fst).nodup_iff.1 t.distinct
  rw [List.map_cons, List.nodup_cons, List.map_append, List.mem_append, not_or] at hd
  exact ⟨front, back, hsplit, hd.1⟩

theorem entries_rekey (f : α → α) (h : t.get? target = none) :
    (t.rekey k target f).entries = rekeyed k target f t.entries := by
  rw [rekey, dif_neg (not_mem_keys_iff.2 h)]

/-- An entry that gets its old key back stands where it stood. -/
theorem rekey_rekey {f g : α → α} (ht : t.get? target = none) (hk : t.get? k = some a) (hback : g (f a) = a) :
    (t.rekey k target f).rekey target k g = t := by
  have hfree : (t.rekey k target f).get? k = none := by
    have hne : ¬ k = target := fun he => by
      rw [he, ht] at hk
      cases hk
    rw [get?_rekey ht, if_neg hne, if_pos rfl]
  obtain ⟨front, back, hsplit, hfront, hafter⟩ := exists_split hk
  have hold := not_mem_keys_iff.2 ht
  rw [hsplit, List.map_append, List.mem_append, List.map_cons, List.mem_cons, not_or, not_or] at hold
  refine ext_entries ?_
  rw [entries_rekey g hfree, entries_rekey f ht, hsplit, rekeyed_split f hfront hafter,
    rekeyed_split g hold.1 hold.2.2, hback]

end Keyed

/-! ### An index with another name in it -/

theorem Index.renameField_renameField {i : Index} {target : String} (source : String) (h : target ∉ i.fields) :
    (i.renameField source target).renameField target source = i := by
  have hfields : (i.fields.map fun k => if k = source then target else k).map
      (fun k => if k = target then source else k) = i.fields.map id := by
    rw [List.map_map]
    refine List.map_congr_left fun k hk => ?_
    have hne : ¬ k = target := fun he => h (he ▸ hk)
    by_cases hs : k = source
    · simp [hs]
    · simp [hs, hne]
  rw [List.map_id] at hfields
  rw [Index.renameField, Index.renameField, hfields]

/-! ### A model with a field under another name -/

namespace Model
variable {m : Model} {source target : String} {f : Field}

/-- The model `m'` is the model `m` with the field `source` under the name `target`: all that is written of both
is the same but for this name, in its one place among the fields and wherever an index has it. -/
structure RenamesTo (m m' : Model) (source target : String) : Prop where
  name : m'.name = m.name
  fields : ∃ front f back, m.fields.entries = front ++ (source, f) :: back ∧
    m'.fields.entries = front ++ (target, { f with name := target }) :: back
  size : m'.indexes.size = m.indexes.size
  indexes : ∀ i, i ∈ m'.indexes.toList ↔ ∃ j ∈ m.indexes.toList,
    i = ⟨j.fields.map fun k => if k = source then target else k, j.unique⟩

/-- No index has the name of a field that is not there. -/
theorem WellFormed.not_mem_fields (hm : m.WellFormed) (ht : m.field? target = none) {i : Index}
    (hi : i ∈ m.indexes.toList) : target ∉ i.fields := fun hk => by
  have hthere := hm.indexed i hi target hk
  rw [Keyed.contains_eq_isSome, show m.fields.get? target = none from ht] at hthere
  cases hthere

/-- Indexes that differ still do under the new name. -/
theorem WellFormed.nodup_renamed (hm : m.WellFormed) (source : String) (ht : m.field? target = none) :
    (m.indexes.toList.map (·.renameField source target)).Nodup := by
  refine List.pairwise_map.2 (m.indexes.nodup.imp_of_mem fun {i j} hi hj hne he => hne ?_)
  rw [← Index.renameField_renameField source (hm.not_mem_fields ht hi), he,
    Index.renameField_renameField source (hm.not_mem_fields ht hj)]

theorem WellFormed.renamesTo (hm : m.WellFormed) (ht : m.field? target = none) (hs : m.field? source = some f) :
    m.RenamesTo (m.renamed source target) source target where
  name := rfl
  fields := by
    obtain ⟨front, back, hsplit, hfront, hback⟩ := Keyed.exists_split hs
    refine ⟨front, f, back, hsplit, ?_⟩
    rw [renamed, Keyed.entries_rekey _ ht, hsplit, Keyed.rekeyed_split _ hfront hback]
    rfl
  size := by
    have hnodup := hm.nodup_renamed source ht
    rw [← List.map_id (m.indexes.toList.map _)] at hnodup
    exact (Ascending.ofList_perm hnodup).length_eq.trans (List.length_map _)
  indexes i := by
    rw [← Ascending.contains_iff_mem, contains_renamed]
    exact exists_congr fun j => and_congr Ascending.contains_iff_mem eq_comm

theorem WellFormed.renamed_renamed (hm : m.WellFormed) (ht : m.field? target = none)
    (hs : m.field? source = some f) : (m.renamed source target).renamed target source = m := by
  have hback : (f.rename target).rename source = f := by
    obtain rfl := hm.named source f hs
    rfl
  have hfields : (m.fields.rekey source target (·.rename target)).rekey target source (·.rename source) = m.fields :=
    Keyed.rekey_rekey ht hs hback
  have hindexes : ((m.renamed source target).renamed target source).indexes = m.indexes := by
    refine Ascending.ext_contains fun i => contains_renamed.trans ?_
    constructor
    · rintro ⟨j, hj, rfl⟩
      obtain ⟨i, hi, rfl⟩ := contains_renamed.1 hj
      rwa [Index.renameField_renameField source (hm.not_mem_fields ht (Ascending.contains_iff_mem.1 hi))]
    · intro hi
      refine ⟨i.renameField source target, contains_renamed.2 ⟨i, hi, rfl⟩, ?_⟩
      exact Index.renameField_renameField source (hm.not_mem_fields ht (Ascending.contains_iff_mem.1 hi))
  show Model.mk m.name ((m.fields.rekey source target (·.rename target)).rekey target source (·.rename source))
    ((m.renamed source target).renamed target source).indexes = m
  rw [hfields, hindexes]

end Model

/-! ### A schema with a field under another name -/

namespace Change
variable {s s' : State} {n source target : String}

theorem of_renameField (h : (renameField n source target).apply s = .ok s') :
    ∃ m f, s.model? n = some m ∧ m.field? target = none ∧ m.field? source = some f ∧
      s'.model? n = some (m.renamed source target) := by
  obtain ⟨o, o', hm, hm', ht⟩ := turns_of_apply rfl h
  cases ht with
  | renameField hr =>
    obtain ⟨ht, ⟨f, hf⟩, rfl⟩ := Model.of_renameField hr
    exact ⟨_, f, hm, ht, hf, hm'⟩

/-- **A renamed field loses nothing, and renaming it back restores the schema.** -/
theorem renameField_undone (hs : s.Reachable) (h : (renameField n source target).apply s = .ok s') :
    (∃ m m', s.model? n = some m ∧ s'.model? n = some m' ∧ m.RenamesTo m' source target) ∧
      (∀ k, k ≠ n → s'.model? k = s.model? k) ∧
      (renameField n target source).apply s' = .ok s := by
  obtain ⟨m, f, hm, ht, hf, hm'⟩ := of_renameField h
  have hwf := State.wellFormed_iff.1 hs.wellFormed n m hm
  have hothers : ∀ k, k ≠ n → s'.model? k = s.model? k := fun k hk => by
    have hother : (renameField n source target).model? ≠ some k := fun he => hk (Option.some.inj he).symm
    exact model?_of_apply hother h
  refine ⟨⟨m, _, hm, hm', hwf.renamesTo ht hf⟩, hothers, ?_⟩
  have heffect : (renameField n target source).effect (s'.model? n) = .ok (some m) := by
    have hne : ¬ source = target := fun he => by
      rw [he, ht] at hf
      cases hf
    have hfree : (m.renamed source target).field? source = none := by
      rw [Model.field?_renamed ht, if_neg hne, if_pos rfl]
    have hthere : (m.renamed source target).field? target = some (f.rename target) := by
      rw [Model.field?_renamed ht, if_pos rfl, hf]
      rfl
    rw [hm', effect, Model.renameField_eq_ok (Option.isSome_of_eq_some hthere) (Keyed.contains_eq_false_iff.2 hfree),
      hwf.renamed_renamed ht hf]
    rfl
  rw [apply_of_effect rfl heffect]
  refine congrArg Except.ok (Ascending.ext_find? fun k => ?_)
  have hname : ∀ x, some m = some x → x.name = n := fun x hx => by
    cases hx
    exact State.name_of_model? hm
  refine (State.model?_replace hname k).trans ?_
  by_cases hk : n = k
  · rw [if_pos hk, ← hk]
    exact hm.symm
  · rw [if_neg hk]
    exact hothers k (Ne.symm hk)

/-- Changes that lead to a model whose first field is under two indexes. -/
def sampleIndexed : List Change :=
  [.createModel "user"
      [{ name := "name", type := .text, unique := true }, .autoKey "id", { name := "mail", type := .text }],
    .addIndex "user" ⟨["mail", "name"], false⟩, .addIndex "user" ⟨["name"], true⟩, .createModel "tag" [.autoKey "id"]]

/-- The field is renamed: it stays the first, both indexes follow it, and renaming it back restores the schema. -/
theorem renameField_undone_sample :
    ∃ s s', applyAll sampleIndexed Ascending.empty = .ok s ∧ (renameField "user" "name" "title").apply s = .ok s' ∧
      (∃ m m', s.model? "user" = some m ∧ s'.model? "user" = some m' ∧ m.RenamesTo m' "name" "title") ∧
      s'.model? "tag" = s.model? "tag" ∧ (renameField "user" "title" "name").apply s' = .ok s := by
  obtain ⟨s, hs⟩ : ∃ s, applyAll sampleIndexed Ascending.empty = .ok s := ⟨_, by rfl⟩
  obtain ⟨s', hs'⟩ : ∃ s', (renameField "user" "name" "title").apply s = .ok s' := by
    cases hs
    exact ⟨_, by rfl⟩
  obtain ⟨hrenamed, hothers, hback⟩ := renameField_undone ⟨sampleIndexed, hs⟩ hs'
  exact ⟨s, s', hs, hs', hrenamed, hothers "tag" (by decide), hback⟩

end Change

end Schemata
