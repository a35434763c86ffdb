import Schemata.Proofs.Schema.Same

/-! Equality of descriptions that does not stop at numbers that differ from themselves.

Descriptions are alike when they are the same but for defaults that are no numbers on both sides. So a
description is always alike to itself, and two are the same exactly when they are alike and have no such
default. What a schema says of tables, columns and foreign keys is the same for all that are alike. -/
namespace Schemata

/-! ### Defaults -/

namespace DefaultValue

/-- A default that is a number, and one that differs from itself. -/
def IsNaN (d : DefaultValue) : Prop := ∃ x, d = .float x ∧ x.isNaN = true

/-- The same default, or no number on either side. -/
def Alike (d e : DefaultValue) : Prop := d.same e = true ∨ d.IsNaN ∧ e.IsNaN

variable {d e c : DefaultValue}

theorem same_self_or (d : DefaultValue) : d.same d = true ∨ d.IsNaN := by
  cases d with
  | float x =>
    cases hx : x.isNaN with
    | true => exact .inr ⟨x, rfl, hx⟩
    | false => exact .inl (by rw [same, Binary64.same_self, hx]; rfl)
  | null => exact .inl rfl
  | bool | int | text | expression => exact .inl (by simp [same])

theorem same_comm (d e : DefaultValue) : d.same e = e.same d := by
  cases d <;> cases e <;> try rfl
  case float.float x y => exact Binary64.same_comm x y
  all_goals exact Bool.eq_iff_iff.2 (beq_iff_eq.trans (eq_comm.trans beq_iff_eq.symm))

theorem same_trans (h : d.same e = true) (h' : e.same c = true) : d.same c = true := by
  cases d <;> cases e <;> first | cases h | skip
  case float.float x y =>
    cases c with
    | float z => exact Binary64.same_trans h h'
    | _ => cases h'
  case null.null => exact h'
  all_goals
    obtain rfl := beq_iff_eq.1 h
    exact h'

/-- A default that is the same as another one is no number that differs from itself. -/
theorem not_isNaN_of_same (h : d.same e = true) : ¬ d.IsNaN := by
  rintro ⟨x, rfl, hx⟩
  cases e with
  | float y => simp [same, Binary64.same, hx] at h
  | _ => cases h

theorem Alike.refl (d : DefaultValue) : d.Alike d :=
  (same_self_or d).imp_right fun h => ⟨h, h⟩

theorem Alike.symm (h : d.Alike e) : e.Alike d := by
  rcases h with h | h
  · exact .inl (same_comm d e ▸ h)
  · exact .inr h.symm

theorem Alike.trans (h : d.Alike e) (h' : e.Alike c) : d.Alike c := by
  rcases h with h | h <;> rcases h' with h' | h'
  · exact .inl (same_trans h h')
  · exact absurd h'.1 (not_isNaN_of_same (same_comm d e ▸ h))
  · exact absurd h.2 (not_isNaN_of_same h')
  · exact .inr ⟨h.1, h'.2⟩

theorem same_iff_alike : d.same e = true ↔ d.Alike e ∧ ¬ d.IsNaN :=
  ⟨fun h => ⟨.inl h, not_isNaN_of_same h⟩, fun h => h.1.resolve_right fun hn => h.2 hn.1⟩

end DefaultValue

theorem rel_refl {α : Type} {R : α → α → Prop} (h : ∀ a, R a a) : ∀ o, Option.Rel R o o
  | none => .none
  | some a => .some (h a)

theorem rel_isSome {α β : Type} {R : α → β → Prop} {o : Option α} {p : Option β}
    (h : Option.Rel R o p) : o.isSome = p.isSome := by
  cases h <;> rfl

theorem rel_exists_left {α β : Type} {R : α → β → Prop} {o : Option α} {b : β}
    (h : Option.Rel R o (some b)) : ∃ a, o = some a ∧ R a b := by
  cases h with
  | some hab => exact ⟨_, rfl, hab⟩

theorem rel_exists_right {α β : Type} {R : α → β → Prop} {a : α} {p : Option β}
    (h : Option.Rel R (some a) p) : ∃ b, p = some b ∧ R a b := by
  cases h with
  | some hab => exact ⟨_, rfl, hab⟩

theorem rel_symm {α : Type} {R : α → α → Prop} (hR : ∀ {a b}, R a b → R b a) {o p : Option α}
    (h : Option.Rel R o p) : Option.Rel R p o := by
  cases h with
  | none => exact .none
  | some h => exact .some (hR h)

theorem rel_trans {α : Type} {R : α → α → Prop} (hR : ∀ a b c, R a b → R b c → R a c) {o p q : Option α}
    (h : Option.Rel R o p) (h' : Option.Rel R p q) : Option.Rel R o q := by
  cases h with
  | none => exact h'
  | some h =>
    cases h' with
    | some h' => exact .some (hR _ _ _ h h')

/-! ### Fields -/

namespace Field

/-- The same description, but for a default that is no number on either side. -/
structure Alike (f g : Field) : Prop where
  attributes : { f with default := none } = { g with default := none }
  default : Option.Rel DefaultValue.Alike f.default g.default

variable {f g h : Field}

theorem Alike.refl (f : Field) : f.Alike f := ⟨rfl, rel_refl DefaultValue.Alike.refl _⟩

theorem Alike.symm (hf : f.Alike g) : g.Alike f :=
  ⟨hf.attributes.symm, rel_symm DefaultValue.Alike.symm hf.default⟩

theorem Alike.trans (hf : f.Alike g) (hg : g.Alike h) : f.Alike h :=
  ⟨hf.attributes.trans hg.attributes, rel_trans (R := DefaultValue.Alike) (fun _ _ _ => .trans) hf.default hg.default⟩

theorem Alike.name (h : f.Alike g) : f.name = g.name := congrArg (·.name) h.attributes

theorem Alike.type (h : f.Alike g) : f.type = g.type := congrArg (·.type) h.attributes

theorem Alike.relation? (h : f.Alike g) : f.relation? = g.relation? := by
  rw [Field.relation?, Field.relation?, h.type]

theorem Alike.columnName (h : f.Alike g) : f.columnName = g.columnName := by
  have hcolumn : f.column = g.column := congrArg (·.column) h.attributes
  rw [Field.columnName, Field.columnName, hcolumn, h.name]

theorem Alike.rename (h : f.Alike g) (name : String) : (f.rename name).Alike (g.rename name) :=
  ⟨congrArg (fun x : Field => { x with name }) h.attributes, h.default⟩

theorem comparable_iff : f.Comparable ↔ ∀ d, f.default = some d → ¬ d.IsNaN := by
  constructor
  · rintro h d hd ⟨x, rfl, hx⟩
    exact absurd hx (by rw [h x hd]; decide)
  · intro h x hx
    exact Bool.eq_false_iff.2 fun hn => h _ hx ⟨x, rfl, hn⟩

/-- Two descriptions are the same when they are alike and the default is no number that differs from
itself. -/
theorem same_iff_alike : f.same g = true ↔ f.Alike g ∧ f.Comparable := by
  constructor
  · intro h
    refine ⟨?_, comparable_of_same h⟩
    obtain ⟨hname, htype, hnull, hblank, hunique, hindexed, hkey, hauto, hd, hcolumn⟩ := same_iff.1 h
    refine ⟨by rw [hname, htype, hnull, hblank, hunique, hindexed, hkey, hauto, hcolumn], ?_⟩
    generalize f.default = d at hd
    generalize g.default = e at hd
    cases d <;> cases e <;> simp only [sameOption, Bool.false_eq_true] at hd
    · exact .none
    · exact .some (.inl hd)
  · rintro ⟨h, hcomp⟩
    have hattr := h.attributes
    simp only [Field.mk.injEq] at hattr
    obtain ⟨hname, htype, hnull, hblank, hunique, hindexed, hkey, hauto, -, hcolumn⟩ := hattr
    refine same_iff.2 ⟨hname, htype, hnull, hblank, hunique, hindexed, hkey, hauto, ?_, hcolumn⟩
    have hd := h.default
    have hnan := comparable_iff.1 hcomp
    generalize f.default = d at hd hnan
    generalize g.default = e at hd
    cases hd with
    | none => rfl
    | some hd => exact DefaultValue.same_iff_alike.2 ⟨hd, hnan _ rfl⟩

theorem alike_of_same (h : f.same g = true) : f.Alike g := (same_iff_alike.1 h).1

theorem Alike.comparable (h : f.Alike g) (hf : f.Comparable) : g.Comparable := by
  have hsame := same_iff_alike.2 ⟨h, hf⟩
  rw [comparable_iff] at hf ⊢
  intro d hd hn
  obtain ⟨e, he, hde⟩ := rel_exists_left (hd ▸ h.default)
  rcases hde with hde | ⟨he', -⟩
  · exact DefaultValue.not_isNaN_of_same (DefaultValue.same_comm e d ▸ hde) hn
  · exact hf e he he'

/-- Whether two descriptions are the same is the same for descriptions that are alike. -/
theorem Alike.same_congr {f' g' : Field} (hf : f.Alike f') (hg : g.Alike g') :
    f.same g = f'.same g' := by
  rw [Bool.eq_iff_iff, same_iff_alike, same_iff_alike]
  constructor
  · rintro ⟨h, hc⟩
    exact ⟨hf.symm.trans (h.trans hg), hf.comparable hc⟩
  · rintro ⟨h, hc⟩
    exact ⟨hf.trans (h.trans hg.symm), hf.symm.comparable hc⟩

end Field

/-! ### Models -/

namespace Model

/-- The same description, but for defaults that are no number on either side. -/
structure Alike (m n : Model) : Prop where
  name : m.name = n.name
  field : ∀ k, Option.Rel Field.Alike (m.field? k) (n.field? k)
  indexes : m.indexes = n.indexes

variable {m n : Model}

theorem Alike.refl (m : Model) : m.Alike m := ⟨rfl, fun _ => rel_refl Field.Alike.refl _, rfl⟩

theorem Alike.symm (h : m.Alike n) : n.Alike m :=
  ⟨h.name.symm, fun k => rel_symm Field.Alike.symm (h.field k), h.indexes.symm⟩

theorem Alike.trans {o : Model} (h : m.Alike n) (h' : n.Alike o) : m.Alike o :=
  ⟨h.name.trans h'.name, fun k => rel_trans (R := Field.Alike) (fun _ _ _ => .trans) (h.field k) (h'.field k),
    h.indexes.trans h'.indexes⟩

theorem Alike.contains (h : m.Alike n) (k : String) : m.fields.contains k = n.fields.contains k :=
  rel_isSome (h.field k)

theorem same_iff_alike : m.same n = true ↔ m.Alike n ∧ m.Comparable := by
  constructor
  · intro h
    refine ⟨⟨(same_iff.1 h).1, fun k => ?_, (same_iff.1 h).2.2⟩, comparable_of_same h⟩
    have hk := (same_iff.1 h).2.1 k
    generalize m.field? k = o at hk
    generalize n.field? k = p at hk
    cases o <;> cases p <;> simp only [sameOption, Bool.false_eq_true] at hk
    · exact .none
    · exact .some (Field.alike_of_same hk)
  · rintro ⟨h, hcomp⟩
    refine same_iff.2 ⟨h.name, fun k => ?_, h.indexes⟩
    have hk := h.field k
    cases hm : m.field? k with
    | none =>
      rw [hm] at hk
      cases hn : n.field? k with
      | none => rfl
      | some g =>
        rw [hn] at hk
        cases hk
    | some f =>
      obtain ⟨g, hg, hfg⟩ := rel_exists_right (hm ▸ hk)
      rw [hg]
      exact Field.same_iff_alike.2 ⟨hfg, hcomp f (Keyed.mem_values_iff.2 ⟨k, hm⟩)⟩

theorem comparable_iff : m.Comparable ↔ ∀ k f, m.field? k = some f → f.Comparable :=
  ⟨fun h k f hf => h f (Keyed.mem_values_iff.2 ⟨k, hf⟩),
    fun h f hf => (Keyed.mem_values_iff.1 hf).elim fun k hk => h k f hk⟩

theorem Alike.comparable (h : m.Alike n) (hm : m.Comparable) : n.Comparable := by
  intro g hg
  obtain ⟨k, hk⟩ := Keyed.mem_values_iff.1 hg
  obtain ⟨f, hf, hfg⟩ := rel_exists_left
    (show Option.Rel Field.Alike (m.field? k) (some g) from hk ▸ h.field k)
  exact hfg.comparable (hm f (Keyed.mem_values_iff.2 ⟨k, hf⟩))

end Model

/-! ### States -/

namespace State

/-- The same models under the same names, but for defaults that are no number on either side. -/
def Alike (s t : State) : Prop := ∀ n, Option.Rel Model.Alike (s.model? n) (t.model? n)

variable {s t : State}

theorem Alike.refl (s : State) : s.Alike s := fun _ => rel_refl Model.Alike.refl _

theorem comparable_iff : s.Comparable ↔ ∀ n m, s.model? n = some m → m.Comparable :=
  ⟨fun h _ m hm => h m (Ascending.find?_eq_some_iff.1 hm).1,
    fun h m hm => h m.name m (Ascending.find?_of_mem hm)⟩

theorem same_iff_alike : s.same t = true ↔ s.Alike t ∧ s.Comparable := by
  constructor
  · intro h
    refine ⟨fun n => ?_, comparable_of_same h⟩
    have hn := same_iff.1 h n
    generalize s.model? n = o at hn
    generalize t.model? n = p at hn
    cases o <;> cases p <;> simp only [sameOption, Bool.false_eq_true] at hn
    · exact .none
    · exact .some (Model.same_iff_alike.1 hn).1
  · rintro ⟨h, hcomp⟩
    refine same_iff.2 fun n => ?_
    have hn := h n
    have hc := comparable_iff.1 hcomp n
    generalize s.model? n = o at hn hc
    generalize t.model? n = p at hn
    cases hn with
    | none => rfl
    | some hmn => exact Model.same_iff_alike.2 ⟨hmn, hc _ rfl⟩

theorem Alike.symm (h : s.Alike t) : t.Alike s := fun n => rel_symm Model.Alike.symm (h n)

theorem Alike.trans {u : State} (h : s.Alike t) (h' : t.Alike u) : s.Alike u :=
  fun n => rel_trans (R := Model.Alike) (fun _ _ _ => .trans) (h n) (h' n)

theorem Alike.comparable (h : s.Alike t) (hs : s.Comparable) : t.Comparable := by
  rw [comparable_iff] at hs ⊢
  intro n m hm
  obtain ⟨m', hm', hmm⟩ := rel_exists_left (hm ▸ h n)
  exact hmm.comparable (hs n m' hm')

/-- States that are alike are the same when one of them has no default that differs from itself. -/
theorem Alike.same (h : s.Alike t) (ht : t.Comparable) : s.same t = true :=
  same_iff_alike.2 ⟨h, h.symm.comparable ht⟩

end State

end Schemata
