import Schemata.Proofs.Collection
import Schemata.Schema.State

/-! Equality of descriptions, look-up by look-up.

Two models are the same when they have the same name and indexes and the same field under each name, and
two states when they have the same model under each name: the order of fields leaves no trace. A
description is the same as itself unless one of its defaults is no number (`Comparable`), since such a
default differs from every other and from itself. -/
namespace Schemata

theorem sameOption_some {α : Type} {same : α → α → Bool} {a : α} {o : Option α} :
    sameOption same (some a) o = true ↔ ∃ b, o = some b ∧ same a b = true := by
  cases o <;> simp [sameOption]

theorem sameOption_isSome {α : Type} {same : α → α → Bool} {o p : Option α}
    (h : sameOption same o p = true) : o.isSome = p.isSome := by
  cases o <;> cases p <;> simp_all [sameOption]

theorem sameOption_self {α : Type} {same : α → α → Bool} {o : Option α}
    (h : ∀ a, o = some a → same a a = true) : sameOption same o o = true := by
  cases o with
  | none => rfl
  | some a => exact h a rfl

/-! ### Fields -/

namespace Field

/-- The default, if it is a number, is one that equals itself. -/
def Comparable (f : Field) : Prop := ∀ x, f.default = some (.float x) → x.isNaN = false

theorem same_iff {f g : Field} :
    f.same g = true ↔ f.name = g.name ∧ f.type = g.type ∧ f.nullable = g.nullable ∧
      f.blank = g.blank ∧ f.unique = g.unique ∧ f.indexed = g.indexed ∧
      f.primaryKey = g.primaryKey ∧ f.autoIncrement = g.autoIncrement ∧
      sameOption DefaultValue.same f.default g.default = true ∧ f.column = g.column := by
  simp only [same, Bool.and_eq_true, beq_iff_eq, and_assoc]

theorem relation?_of_same {f g : Field} (h : f.same g = true) : f.relation? = g.relation? := by
  rw [relation?, relation?, (same_iff.1 h).2.1]

theorem same_self {f : Field} (h : f.Comparable) : f.same f = true := by
  rw [same_iff]
  refine ⟨rfl, rfl, rfl, rfl, rfl, rfl, rfl, rfl, sameOption_self fun d hd => ?_, rfl⟩
  cases d with
  | float x =>
    rw [DefaultValue.same, Binary64.same_self, h x hd]
    rfl
  | null => rfl
  | bool | int | text | expression => simp [DefaultValue.same]

theorem comparable_of_same {f g : Field} (h : f.same g = true) : f.Comparable := by
  intro x hx
  have hd := (same_iff.1 h).2.2.2.2.2.2.2.2.1
  obtain ⟨d, -, hsame⟩ := sameOption_some.1 (hx ▸ hd)
  cases d with
  | float y =>
    simp only [DefaultValue.same, Binary64.same, Bool.and_eq_true, Bool.not_eq_eq_eq_not,
      Bool.not_true] at hsame
    exact hsame.1.1
  | null | bool | int | text | expression => cases hsame

instance (f : Field) : Decidable f.Comparable :=
  decidable_of_iff (f.same f = true) ⟨comparable_of_same, same_self⟩

end Field

/-! ### Models -/

namespace Model

/-- No default of a field is a number that differs from itself. -/
def Comparable (m : Model) : Prop := ∀ f ∈ m.fields.values, f.Comparable

instance (m : Model) : Decidable m.Comparable :=
  inferInstanceAs (Decidable (∀ f ∈ m.fields.values, f.Comparable))

theorem keys_perm {m n : Model} (h : ∀ k, (m.field? k).isSome = (n.field? k).isSome) :
    m.fields.keys.Perm n.fields.keys := by
  refine (List.perm_ext_iff_of_nodup m.fields.distinct n.fields.distinct).2 fun k => ?_
  rw [← Keyed.find_isSome_iff, ← Keyed.find_isSome_iff]
  exact Bool.eq_iff_iff.1 (h k)

/-- Distinct names that are all among as many others are all of them. -/
theorem subset_of_length {l l' : List String} (hl : l.Nodup) (hsub : l ⊆ l')
    (hlen : l'.length = l.length) : l' ⊆ l := by
  intro k hk
  apply Classical.byContradiction
  intro hnot
  have := (List.nodup_cons.2 ⟨hnot, hl⟩).length_le_of_subset (List.cons_subset.2 ⟨hk, hsub⟩)
  rw [List.length_cons, hlen] at this
  omega

theorem same_iff {m n : Model} :
    m.same n = true ↔ m.name = n.name ∧
      (∀ k, sameOption Field.same (m.field? k) (n.field? k) = true) ∧ m.indexes = n.indexes := by
  simp only [same, Bool.and_eq_true, beq_iff_eq, List.all_eq_true, and_assoc]
  constructor
  · rintro ⟨hname, hsize, hfields, hindexes⟩
    refine ⟨hname, fun k => ?_, Ascending.ext_find? fun i => by simp only [Ascending.find?, hindexes]⟩
    cases hk : m.field? k with
    | some f =>
      exact sameOption_some.2 ((Option.any_eq_true _ _).1 (hfields (k, f) (Keyed.get?_eq_some_iff.1 hk)))
    | none =>
      have hsub : m.fields.keys ⊆ n.fields.keys := by
        intro x hx
        obtain ⟨e, he, rfl⟩ := List.mem_map.1 hx
        rw [← Keyed.contains_iff, Keyed.contains_eq_isSome]
        exact Option.isSome_of_any (hfields e he)
      have hback := subset_of_length m.fields.distinct hsub (by simpa [Keyed.keys, Keyed.size] using hsize.symm)
      have hnone : n.field? k = none := by
        refine Keyed.not_mem_keys_iff.1 fun hin => ?_
        exact Keyed.not_mem_keys_iff.2 hk (hback hin)
      rw [hnone]
      rfl
  · rintro ⟨hname, hfields, hindexes⟩
    refine ⟨hname, ?_, ?_, by rw [hindexes]⟩
    · have := (keys_perm fun k => sameOption_isSome (hfields k)).length_eq
      simpa [Keyed.keys, Keyed.size] using this
    · intro e he
      have := hfields e.1
      rw [show m.field? e.1 = some e.2 from Keyed.get?_eq_some_iff.2 he] at this
      obtain ⟨g, hg, hsame⟩ := sameOption_some.1 this
      rw [show n.fields.get? e.1 = some g from hg]
      exact hsame

theorem comparable_of_same {m n : Model} (h : m.same n = true) : m.Comparable := by
  intro f hf
  obtain ⟨k, hk⟩ := Keyed.mem_values_iff.1 hf
  have := (same_iff.1 h).2.1 k
  rw [show m.field? k = some f from hk] at this
  obtain ⟨g, -, hsame⟩ := sameOption_some.1 this
  exact Field.comparable_of_same hsame

end Model

/-! ### States -/

namespace State

def Comparable (s : State) : Prop := ∀ m ∈ s.toList, m.Comparable

instance (s : State) : Decidable s.Comparable :=
  inferInstanceAs (Decidable (∀ m ∈ s.toList, m.Comparable))

theorem names_eq {s t : State} (h : ∀ n, (s.model? n).isSome = (t.model? n).isSome) :
    s.names = t.names := by
  have hperm : s.names.Perm t.names := by
    refine (List.perm_ext_iff_of_nodup s.nodup_keys t.nodup_keys).2 fun n => ?_
    rw [← Ascending.contains_iff, ← Ascending.contains_iff]
    exact Bool.eq_iff_iff.1 (h n)
  have hs : s.names.Pairwise (compare · · = .lt) := List.pairwise_map.2 s.ascending
  have ht : t.names.Pairwise (compare · · = .lt) := List.pairwise_map.2 t.ascending
  refine hperm.eq_of_pairwise (fun a b _ _ (hab : compare a b = .lt) hba => ?_) hs ht
  exact absurd hab (Std.OrientedCmp.not_lt_of_lt hba)

theorem model?_getElem {s : State} {i : Nat} (h : i < s.toList.length) :
    s.model? s.toList[i].name = some s.toList[i] :=
  Ascending.find?_of_mem (List.getElem_mem h)

theorem name_getElem {s t : State} (h : s.names = t.names) {i : Nat} (hi : i < s.toList.length)
    (hi' : i < t.toList.length) : s.toList[i].name = t.toList[i].name := by
  have := List.getElem_of_eq h (i := i) (by simpa [names] using hi)
  simpa [names] using this

/-- Two states are the same when they have the same model under each name. -/
theorem same_iff {s t : State} :
    s.same t = true ↔ ∀ n, sameOption Model.same (s.model? n) (t.model? n) = true := by
  simp only [same, Bool.and_eq_true, beq_iff_eq, List.all_eq_true]
  constructor
  · rintro ⟨hlen, hall⟩ n
    have hsame : ∀ i (hi : i < s.toList.length) (hi' : i < t.toList.length),
        s.toList[i].same t.toList[i] = true := fun i hi hi' =>
      hall (s.toList[i], t.toList[i]) (List.mem_iff_getElem.2 ⟨i, by rw [List.length_zip]; omega, by simp⟩)
    cases hs : s.model? n with
    | some m =>
      obtain ⟨hmem, rfl⟩ := Ascending.find?_eq_some_iff.1 hs
      obtain ⟨i, hi, rfl⟩ := List.mem_iff_getElem.1 hmem
      have hi' : i < t.toList.length := hlen ▸ hi
      rw [(Model.same_iff.1 (hsame i hi hi')).1, model?_getElem hi']
      exact hsame i hi hi'
    | none =>
      cases ht : t.model? n with
      | none => rfl
      | some m =>
        obtain ⟨hmem, rfl⟩ := Ascending.find?_eq_some_iff.1 ht
        obtain ⟨i, hi', rfl⟩ := List.mem_iff_getElem.1 hmem
        have hi : i < s.toList.length := hlen ▸ hi'
        rw [← (Model.same_iff.1 (hsame i hi hi')).1, model?_getElem hi] at hs
        cases hs
  · intro h
    have hnames : s.names = t.names := names_eq fun n => sameOption_isSome (h n)
    have hlen : s.toList.length = t.toList.length := by
      simpa [names] using congrArg List.length hnames
    refine ⟨hlen, fun p hp => ?_⟩
    obtain ⟨i, hi, rfl⟩ := List.mem_iff_getElem.1 hp
    rw [List.length_zip, hlen, Nat.min_self] at hi
    rw [List.getElem_zip]
    have hmodel := h s.toList[i].name
    rw [model?_getElem, name_getElem hnames _ hi, model?_getElem] at hmodel
    exact hmodel

theorem comparable_of_same {s t : State} (h : s.same t = true) : s.Comparable := by
  intro m hm
  have := same_iff.1 h m.name
  rw [show s.model? m.name = some m from Ascending.find?_of_mem hm] at this
  obtain ⟨n, -, hsame⟩ := sameOption_some.1 this
  exact Model.comparable_of_same hsame

end State

end Schemata
