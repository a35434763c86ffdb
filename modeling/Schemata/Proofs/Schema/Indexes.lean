import Mathlib.Algebra.Ring.Nat
import Schemata.Proofs.Schema.Columns

/-! The indexes of a schema and their names in the database.

An index is in force because a model declares it or because a field carries it (`Model.Carries`). Its name
follows from its fields, so it always changes with the name of one of them
(`Index.nameFor_renameField_ne`). A model may declare the very index that one of its fields carries; whether it
does not (`Model.IndexedOnce`) is the same for descriptions that are alike. -/
namespace Schemata

/-! ### Names -/

namespace Index
variable {i : Index} {source target k l : String}

/-- The plain index over one field. -/
def plain (field : String) : Index := ⟨[field], false⟩

theorem plain_inj : plain k = plain l ↔ k = l := by
  simp [plain]

theorem references_iff : i.references k = true ↔ k ∈ i.fields := List.contains_iff_mem

theorem renameField_plain (k : String) :
    (plain k).renameField source target = plain (if k = source then target else k) := rfl

theorem renameField_of_not_mem (h : source ∉ i.fields) : i.renameField source target = i := by
  have hfields : i.fields.map (fun f => if f = source then target else f) = i.fields.map id := by
    refine List.map_congr_left fun f hf => if_neg ?_
    rintro rfl
    exact h hf
  rw [renameField, hfields, List.map_id]

theorem renameField_self (i : Index) (k : String) : i.renameField k k = i := by
  have hfields : (i.fields.map fun f => if f = k then k else f) = i.fields.map id :=
    List.map_congr_left fun f _ => by split <;> simp [*]
  rw [renameField, hfields, List.map_id]

theorem renameField_back (h : target ∉ i.fields) :
    (i.renameField source target).renameField target source = i := by
  have hfields : (i.fields.map fun f => if f = source then target else f).map
      (fun f => if f = target then source else f) = i.fields.map id := by
    rw [List.map_map]
    refine List.map_congr_left fun f hf => ?_
    have hne : f ≠ target := fun he => h (he ▸ hf)
    by_cases hs : f = source <;> simp [hs, hne]
  rw [renameField, renameField, hfields, List.map_id]

/-- Indexes without the new name are told apart after the renaming. -/
theorem renameField_inj {j : Index} (hi : target ∉ i.fields) (hj : target ∉ j.fields)
    (h : i.renameField source target = j.renameField source target) : i = j := by
  rw [← renameField_back hi, h, renameField_back hj]

/-- Names of the same lengths in a row can be told from what they are joined to. -/
theorem eq_of_intercalate {f : String → String} {names : List String}
    (hlength : ∀ n ∈ names, (f n).length = n.length)
    (h : "_".intercalate (names.map f) = "_".intercalate names) : ∀ n ∈ names, f n = n := by
  induction names with
  | nil => simp
  | cons a rest ih =>
    have ha := hlength a (List.mem_cons_self ..)
    have hrest := fun n hn => hlength n (List.mem_cons_of_mem a hn)
    cases rest with
    | nil => simpa using h
    | cons b rest =>
      rw [List.map_cons, List.map_cons, String.intercalate_cons_cons, String.intercalate_cons_cons,
        ← String.toList_inj] at h
      simp only [String.toList_append, List.append_assoc] at h
      obtain ⟨hfirst, htail⟩ := List.append_inj h (by rwa [String.length_toList, String.length_toList])
      refine List.forall_mem_cons.2 ⟨String.toList_inj.1 hfirst, ih hrest ?_⟩
      exact String.toList_inj.1 (List.append_cancel_left htail)

theorem length_intercalate (names : List String) :
    ("_".intercalate names).length = (names.map String.length).sum + (names.length - 1) := by
  induction names with
  | nil => rfl
  | cons a rest ih =>
    cases rest with
    | nil => simp
    | cons b rest =>
      have hbar : "_".length = 1 := rfl
      rw [String.intercalate_cons_cons, String.length_append, String.length_append, ih, hbar]
      simp only [List.map_cons, List.sum_cons, List.length_cons]
      omega

/-- How long names are in all once one of them is another one, wherever it stands. -/
theorem sum_length_renamed (source target : String) (names : List String) :
    (names.map fun n => (if n = source then target else n).length).sum + names.count source * source.length =
      (names.map String.length).sum + names.count source * target.length := by
  induction names with
  | nil => simp
  | cons a rest ih =>
    rw [List.map_cons, List.map_cons, List.sum_cons, List.sum_cons, List.count_cons]
    by_cases ha : a = source
    · subst ha
      simp only [if_true, beq_self_eq_true, Nat.add_mul, Nat.one_mul]
      omega
    · simp only [if_neg ha, beq_iff_eq, Nat.add_zero]
      omega

/-- Names in a row are joined to another text once one of them is another one. -/
theorem intercalate_renamed_ne {names : List String} (h : source ∈ names) (hne : source ≠ target) :
    "_".intercalate (names.map fun n => if n = source then target else n) ≠ "_".intercalate names := by
  intro heq
  have hlength : source.length = target.length := by
    have hsum := congrArg String.length heq
    rw [length_intercalate, length_intercalate, List.length_map, List.map_map,
      Nat.add_right_cancel_iff] at hsum
    have hcount := sum_length_renamed source target names
    rw [show (names.map fun n => (if n = source then target else n).length).sum = _ from hsum,
      Nat.add_left_cancel_iff] at hcount
    exact Nat.eq_of_mul_eq_mul_left (List.count_pos_iff.2 h) hcount
  have hsource := eq_of_intercalate (fun n _ => ?_) heq source h
  · exact hne (by simpa using hsource.symm)
  · split
    · subst_vars
      exact hlength.symm
    · rfl

/-- An index has another name once one of its fields has one. -/
theorem nameFor_renameField_ne {model : String} (h : i.references source = true) (hne : source ≠ target) :
    (i.renameField source target).nameFor model ≠ i.nameFor model := by
  intro heq
  refine intercalate_renamed_ne (references_iff.1 h) hne (String.toList_inj.1 ?_)
  rw [nameFor, nameFor, ← String.toList_inj] at heq
  simp only [String.toList_append, show (i.renameField source target).unique = i.unique from rfl] at heq
  exact List.append_cancel_left (List.append_cancel_right heq)

end Index

/-! ### Indexes that fields carry -/

namespace Field
variable {f g : Field} {i : Index}

theorem implicitIndex?_eq_some_iff :
    f.implicitIndex? = some i ↔ f.implicitIndex?.isSome = true ∧ i = .plain f.name := by
  rw [implicitIndex?]
  split
  · simp [Index.plain, eq_comm]
  · simp

theorem Alike.implicitIndex? (h : f.Alike g) : f.implicitIndex? = g.implicitIndex? := by
  have hattr := h.attributes
  simp only [Field.mk.injEq] at hattr
  obtain ⟨hname, -, -, -, hunique, hindexed, hkey, -⟩ := hattr
  rw [Field.implicitIndex?, Field.implicitIndex?, hname, hunique, hindexed, hkey]

theorem isSome_implicitIndex?_rename (f : Field) (name : String) :
    (f.rename name).implicitIndex?.isSome = f.implicitIndex?.isSome := by
  rw [implicitIndex?, implicitIndex?, rename]
  split <;> rfl

end Field

namespace Model
variable {m n : Model} {i : Index} {k : String}

/-- Whether the field of that name carries an index. -/
def Carries (m : Model) (k : String) : Prop := ∃ f, m.field? k = some f ∧ f.implicitIndex?.isSome = true

theorem carries_iff {f : Field} (hf : m.field? k = some f) : m.Carries k ↔ f.implicitIndex?.isSome = true := by
  simp [Carries, hf]

/-- The indexes in force are those that the model declares and those that its fields carry. -/
theorem contains_effectiveIndexes (hm : m.WellFormed) :
    m.effectiveIndexes.contains i = true ↔ m.indexes.contains i = true ∨ ∃ k, m.Carries k ∧ i = .plain k := by
  rw [effectiveIndexes, Ascending.contains_foldl_insert, List.map_id, List.mem_filterMap, or_comm]
  refine or_congr_right ⟨?_, ?_⟩
  · rintro ⟨f, hf, hi⟩
    obtain ⟨hcarries, rfl⟩ := Field.implicitIndex?_eq_some_iff.1 hi
    exact ⟨f.name, ⟨f, hm.mem_values_iff.1 hf, hcarries⟩, rfl⟩
  · rintro ⟨k, ⟨f, hf, hcarries⟩, rfl⟩
    obtain rfl := hm.named k f hf
    exact ⟨f, hm.mem_values_iff.2 hf, Field.implicitIndex?_eq_some_iff.2 ⟨hcarries, rfl⟩⟩

/-- An index in force is over fields of the model. -/
theorem contains_of_effective (hm : m.WellFormed) (hi : m.effectiveIndexes.contains i = true)
    (hk : k ∈ i.fields) : m.fields.contains k = true := by
  rcases (contains_effectiveIndexes hm).1 hi with hi | ⟨l, ⟨f, hf, -⟩, rfl⟩
  · exact hm.indexed i (Ascending.contains_iff_mem.1 hi) k hk
  · obtain rfl := List.mem_singleton.1 hk
    exact Option.isSome_of_eq_some hf

/-- No field carries an index that the model declares as well. -/
def IndexedOnce (m : Model) : Prop := ∀ k, m.Carries k → m.indexes.contains (.plain k) = false

theorem indexedOnce_iff : m.IndexedOnce ↔ ∀ e ∈ m.fields.entries, e.2.implicitIndex?.isSome = true →
    m.indexes.contains (.plain e.1) = false := by
  constructor
  · exact fun h e he hcarries => h e.1 ⟨e.2, Keyed.get?_eq_some_iff.2 he, hcarries⟩
  · rintro h k ⟨f, hf, hcarries⟩
    exact h (k, f) (Keyed.get?_eq_some_iff.1 hf) hcarries

instance (m : Model) : Decidable m.IndexedOnce := decidable_of_iff' _ indexedOnce_iff

/-- Every index stays there once when fields stop to carry one and indexes are no longer declared. -/
theorem IndexedOnce.mono (h : m.IndexedOnce) (hc : ∀ k, n.Carries k → m.Carries k)
    (hi : ∀ i, n.indexes.contains i = true → m.indexes.contains i = true) : n.IndexedOnce :=
  fun k hk => Bool.eq_false_iff.2 fun hin => Bool.eq_false_iff.1 (h k (hc k hk)) (hi _ hin)

/-- What fields carry is a matter of what is said of them. -/
theorem Alike.exists_implicitIndex? (h : m.Alike n) (hi : ∃ f ∈ m.fields.values, f.implicitIndex? = some i) :
    ∃ g ∈ n.fields.values, g.implicitIndex? = some i := by
  obtain ⟨f, hf, hi⟩ := hi
  obtain ⟨k, hk⟩ := Keyed.mem_values_iff.1 hf
  obtain ⟨g, hg, hfg⟩ := rel_exists_right (show Option.Rel Field.Alike (some f) (n.field? k) from hk ▸ h.field k)
  exact ⟨g, Keyed.mem_values_iff.2 ⟨k, hg⟩, hfg.implicitIndex? ▸ hi⟩

theorem Alike.effectiveIndexes_eq (h : m.Alike n) : m.effectiveIndexes = n.effectiveIndexes := by
  refine Ascending.ext_contains fun i => ?_
  rw [effectiveIndexes, effectiveIndexes, Ascending.contains_foldl_insert, Ascending.contains_foldl_insert, List.map_id,
    List.map_id, List.mem_filterMap, List.mem_filterMap, h.indexes]
  exact or_congr_left ⟨h.exists_implicitIndex?, h.symm.exists_implicitIndex?⟩

theorem Alike.carries_iff (h : m.Alike n) : m.Carries k ↔ n.Carries k := by
  constructor
  · rintro ⟨f, hf, hcarries⟩
    obtain ⟨g, hg, hfg⟩ := rel_exists_right (hf ▸ h.field k)
    exact ⟨g, hg, hfg.implicitIndex? ▸ hcarries⟩
  · rintro ⟨g, hg, hcarries⟩
    obtain ⟨f, hf, hfg⟩ := rel_exists_left (hg ▸ h.field k)
    exact ⟨f, hf, hfg.implicitIndex? ▸ hcarries⟩

theorem Alike.indexedOnce_iff (h : m.Alike n) : m.IndexedOnce ↔ n.IndexedOnce := by
  rw [IndexedOnce, IndexedOnce, h.indexes]
  exact forall_congr' fun k => imp_congr_left h.carries_iff

end Model

/-! ### Schemas -/

namespace State
variable {s t : State} {n : String}

/-- The indexes in force of every model. -/
def indexes (s : State) : List (String × Index) :=
  s.toList.flatMap fun m => m.effectiveIndexes.toList.map fun i => (m.name, i)

theorem mem_indexes {i : Index} :
    (n, i) ∈ s.indexes ↔ ∃ m, s.model? n = some m ∧ m.effectiveIndexes.contains i = true := by
  simp only [indexes, List.mem_flatMap, List.mem_map, Prod.mk.injEq, Ascending.contains_iff_mem]
  constructor
  · rintro ⟨m, hm, j, hj, rfl, rfl⟩
    exact ⟨m, Ascending.find?_of_mem hm, hj⟩
  · rintro ⟨m, hm, hi⟩
    exact ⟨m, (Ascending.find?_eq_some_iff.1 hm).1, i, hi, State.name_of_model? hm, rfl⟩

/-- The names of all indexes in the database. -/
def indexNames (s : State) : List String := s.indexes.map fun p => p.2.nameFor p.1

/-- No two indexes have one name. -/
def DistinctIndexNames (s : State) : Prop := s.indexNames.Nodup

instance (s : State) : Decidable s.DistinctIndexNames := inferInstanceAs (Decidable (List.Nodup _))

theorem DistinctIndexNames.inj (h : s.DistinctIndexNames) {p q : String × Index} (hp : p ∈ s.indexes)
    (hq : q ∈ s.indexes) (hname : p.2.nameFor p.1 = q.2.nameFor q.1) : p = q :=
  eq_of_nodup_map h hp hq hname

/-- No two fields of a model have one column, and no two indexes one name. -/
structure Unambiguous (s : State) : Prop where
  columns : s.DistinctColumns
  indexes : s.DistinctIndexNames

instance (s : State) : Decidable s.Unambiguous :=
  decidable_of_iff (s.DistinctColumns ∧ s.DistinctIndexNames) ⟨fun h => ⟨h.1, h.2⟩, fun h => ⟨h.1, h.2⟩⟩

/-- No field carries an index that its model declares as well. -/
def IndexedOnce (s : State) : Prop := ∀ n m, s.model? n = some m → m.IndexedOnce

theorem indexedOnce_iff : s.IndexedOnce ↔ ∀ m ∈ s.toList, m.IndexedOnce :=
  ⟨fun h m hm => h m.name m (Ascending.find?_of_mem hm),
    fun h _ m hm => h m (Ascending.find?_eq_some_iff.1 hm).1⟩

instance (s : State) : Decidable s.IndexedOnce := decidable_of_iff' _ indexedOnce_iff

theorem Alike.indexedOnce_iff (h : s.Alike t) : s.IndexedOnce ↔ t.IndexedOnce := by
  constructor
  · intro hall n m hm
    obtain ⟨m', hm', halike⟩ := rel_exists_left (hm ▸ h n)
    exact halike.indexedOnce_iff.1 (hall n m' hm')
  · intro hall n m hm
    obtain ⟨m', hm', halike⟩ := rel_exists_right (hm ▸ h n)
    exact halike.indexedOnce_iff.2 (hall n m' hm')

end State

end Schemata
