import Mathlib.Data.List.Forall2
import Schemata.Proofs.Change.Fields

/-! Changes of descriptions that are alike.

A change looks fields up by their names and runs through indexes in their order, and through nothing else. So schemas
that are alike are as good as one: changes that are alike apply to both or fail on both for the same reason, and what
they leave is alike again (`matched_apply`, `matched_applyFrom`). Whether what they leave is also the same depends on
the fields that they bring in (`comparable_of_apply_iff`). -/
namespace Schemata

/-- Both come to something, and what they come to is related, or both fail for the same reason. -/
inductive Matched {ε α β : Type} (R : α → β → Prop) : Except ε α → Except ε β → Prop
  | ok {a : α} {b : β} : R a b → Matched R (.ok a) (.ok b)
  | error (e : ε) : Matched R (.error e) (.error e)

namespace Matched
variable {ε α β γ δ : Type} {R : α → β → Prop} {S : γ → δ → Prop} {x : Except ε α} {y : Except ε β}

theorem map {f : α → γ} {g : β → δ} (h : Matched R x y) (hfg : ∀ a b, R a b → S (f a) (g b)) :
    Matched S (x.map f) (y.map g) := by
  cases h with
  | ok hab => exact .ok (hfg _ _ hab)
  | error e => exact .error e

theorem map_eq {f : α → γ} {g : β → γ} (h : Matched R x y) (hfg : ∀ a b, R a b → f a = g b) :
    x.map f = y.map g := by
  cases h with
  | ok hab => exact congrArg Except.ok (hfg _ _ hab)
  | error e => rfl

theorem bind_eq {f : α → Except ε γ} {g : β → Except ε γ} (h : Matched R x y) (hfg : ∀ a b, R a b → f a = g b) :
    x.bind f = y.bind g := by
  cases h with
  | ok hab => exact hfg _ _ hab
  | error e => rfl

theorem of_ok (h : Matched R x y) {a : α} {b : β} (hx : x = .ok a) (hy : y = .ok b) : R a b := by
  subst hx hy
  cases h with
  | ok hab => exact hab

theorem exists_right (h : Matched R x y) {a : α} (hx : x = .ok a) : ∃ b, y = .ok b ∧ R a b := by
  subst hx
  cases h with
  | ok hab => exact ⟨_, rfl, hab⟩

theorem exists_left (h : Matched R x y) {b : β} (hy : y = .ok b) : ∃ a, x = .ok a ∧ R a b := by
  subst hy
  cases h with
  | ok hab => exact ⟨_, rfl, hab⟩

/-- Where the same condition decides, only the values matter. -/
theorem ite {b : Prop} [Decidable b] {x' : Except ε α} {y' : Except ε β} (h : Matched R x y) (h' : Matched R x' y') :
    Matched R (if b then x else x') (if b then y else y') := by
  split
  · exact h
  · exact h'

end Matched

/-! ### Changes within a model -/

namespace Model.Alike
variable {m n : Model} {f g : Field} {name : String}

theorem addField (h : m.Alike n) (hf : f.Alike g) : Matched Alike (m.addField f) (n.addField g) := by
  rw [Model.addField, Model.addField, h.contains, hf.name, h.name]
  refine .ite (.error _) (.ok ⟨rfl, fun k => ?_, h.indexes⟩)
  simp only [field?, Keyed.get?_put]
  split
  · exact .some hf
  · exact h.field k

theorem removeField (h : m.Alike n) : Matched Alike (m.removeField name) (n.removeField name) := by
  rw [Model.removeField, Model.removeField, h.contains, h.indexes, h.name]
  refine .ite (.error _) ?_
  split
  · exact .error _
  · refine .ok ⟨rfl, fun k => ?_, rfl⟩
    simp only [field?, Keyed.get?_erase]
    split
    · exact .none
    · exact h.field k

theorem changeField {source source' target target' : Field} (h : m.Alike n) (hs : source.Alike source')
    (ht : target.Alike target') :
    Matched Alike (m.changeField name source target) (n.changeField name source' target') := by
  have hname := h.field name
  rw [Model.changeField, Model.changeField, h.name]
  cases hm : m.field? name with
  | none =>
    rw [hm] at hname
    cases hn : n.field? name with
    | none => exact .error _
    | some current' =>
      rw [hn] at hname
      cases hname
  | some current =>
    obtain ⟨current', hn, hcurrent⟩ := rel_exists_right (hm ▸ hname)
    simp only [hn, hcurrent.same_congr hs]
    refine .ite (.ok ⟨rfl, fun k => ?_, h.indexes⟩) (.error _)
    have hk := h.field k
    simp only [field?, Keyed.get?_revise] at hk hm hn ⊢
    split
    · subst k
      rw [hm, hn]
      exact .some ht
    · exact hk

theorem renameField {target : String} (h : m.Alike n) :
    Matched Alike (m.renameField name target) (n.renameField name target) := by
  rw [Model.renameField, Model.renameField, h.contains, h.contains, h.name]
  by_cases ht : n.fields.contains target = true
  · rw [if_pos ht, if_pos ht]
    exact .error _
  · rw [if_neg ht, if_neg ht]
    refine .ite (.error _) (.ok ⟨rfl, fun k => ?_, by rw [h.indexes]⟩)
    have hn := Keyed.contains_eq_false_iff.1 (Bool.eq_false_iff.2 ht)
    have hm : m.fields.get? target = none :=
      Keyed.contains_eq_false_iff.1 ((h.contains target).trans (Bool.eq_false_iff.2 ht))
    simp only [field?, Keyed.get?_rekey hm, Keyed.get?_rekey hn]
    split
    · have hname := h.field name
      simp only [field?] at hname
      generalize m.fields.get? name = o at hname
      generalize n.fields.get? name = p at hname
      cases hname with
      | none => exact .none
      | some hfg => exact .some (hfg.rename target)
    · split
      · exact .none
      · exact h.field k

theorem addIndex {i : Index} (h : m.Alike n) : Matched Alike (m.addIndex i) (n.addIndex i) := by
  have hfields : (fun k => !m.fields.contains k) = fun k => !n.fields.contains k :=
    funext fun k => by rw [h.contains]
  rw [Model.addIndex, Model.addIndex, hfields, h.indexes, h.name]
  split
  · exact .error _
  · exact .ite (.error _) (.ok ⟨rfl, h.field, rfl⟩)

theorem removeIndex {i : Index} (h : m.Alike n) : Matched Alike (m.removeIndex i) (n.removeIndex i) := by
  rw [Model.removeIndex, Model.removeIndex, h.indexes, h.name]
  exact .ite (.ok ⟨rfl, h.field, rfl⟩) (.error _)

end Model.Alike

theorem Model.size_ofFields_iff {name : String} {fields : List Field} :
    (Model.ofFields name fields).fields.size = fields.length ↔ (fields.map Field.name).Nodup := by
  refine ⟨fun h => ?_, Model.size_ofFields⟩
  rw [← Model.keys_ofFields]
  exact Keyed.nodup_of_size_ofList (h.trans (List.length_map _).symm)

/-- New models are alike when their fields are. -/
theorem Model.alike_ofFields (name : String) {fields fields' : List Field} (h : List.Forall₂ Field.Alike fields fields') :
    (Model.ofFields name fields).Alike (.ofFields name fields') := by
  have hput : ∀ t u : Keyed String Field, (∀ k, Option.Rel Field.Alike (t.get? k) (u.get? k)) → ∀ k, Option.Rel Field.Alike
      (((fields.map fun f => (f.name, f)).foldl (fun t e => t.put e.1 e.2) t).get? k)
      (((fields'.map fun f => (f.name, f)).foldl (fun t e => t.put e.1 e.2) u).get? k) := by
    induction h with
    | nil => exact fun _ _ htu => htu
    | @cons f g rest rest' hfg _ ih =>
      intro t u htu
      refine ih _ _ fun k => ?_
      simp only [Keyed.get?_put, hfg.name]
      split
      · exact .some hfg
      · exact htu k
  exact ⟨rfl, hput _ _ fun _ => .none, rfl⟩

namespace Change

/-! ### Changes that are alike -/

/-- The same change, but for defaults that are no numbers on either side. -/
inductive Alike : Change → Change → Prop
  | createModel (name : String) {fields fields' : List Field} : List.Forall₂ Field.Alike fields fields' →
    Alike (.createModel name fields) (.createModel name fields')
  | deleteModel (name : String) : Alike (.deleteModel name) (.deleteModel name)
  | addField (model : String) {f g : Field} : f.Alike g → Alike (.addField model f) (.addField model g)
  | removeField (model : String) {f g : Field} : f.Alike g → Alike (.removeField model f) (.removeField model g)
  | changeField (model field : String) {source source' target target' : Field} :
    source.Alike source' → target.Alike target' →
    Alike (.changeField model field source target) (.changeField model field source' target')
  | renameField (model source target : String) :
    Alike (.renameField model source target) (.renameField model source target)
  | addIndex (model : String) (index : Index) : Alike (.addIndex model index) (.addIndex model index)
  | removeIndex (model : String) (index : Index) : Alike (.removeIndex model index) (.removeIndex model index)
  | runData (name payload : String) : Alike (.runData name payload) (.runData name payload)

variable {c d : Change} {s t : State}

theorem Alike.refl : ∀ c : Change, c.Alike c
  | .createModel name _ => .createModel name (List.forall₂_same.2 fun f _ => .refl f)
  | .deleteModel name => .deleteModel name
  | .addField model f => .addField model (.refl f)
  | .removeField model f => .removeField model (.refl f)
  | .changeField model field source target => .changeField model field (.refl source) (.refl target)
  | .renameField model source target => .renameField model source target
  | .addIndex model index => .addIndex model index
  | .removeIndex model index => .removeIndex model index
  | .runData name payload => .runData name payload

theorem Alike.model? (h : c.Alike d) : c.model? = d.model? := by
  cases h <;> rfl

theorem names_of_forall₂ {fields fields' : List Field} (h : List.Forall₂ Field.Alike fields fields') :
    fields.map Field.name = fields'.map Field.name := by
  induction h with
  | nil => rfl
  | cons hfg _ ih => rw [List.map_cons, List.map_cons, hfg.name, ih]

/-- **One step.** What a change makes of a model, the other makes of the other model. -/
theorem matched_effect (h : c.Alike d) {o p : Option Model} (hop : Option.Rel Model.Alike o p) :
    Matched (Option.Rel Model.Alike) (c.effect o) (d.effect p) := by
  cases hop with
  | none =>
    cases h with
    | createModel name hfields =>
      simp only [effect, Model.size_ofFields_iff, names_of_forall₂ hfields]
      exact .ite (.ok (.some (Model.alike_ofFields name hfields))) (.error _)
    | changeField model field hs ht =>
      simp only [effect, ht.name]
      exact .ite (.error _) (.error _)
    | runData => exact .ok .none
    | _ => exact .error _
  | some hmn =>
    cases h with
    | createModel => exact .error _
    | deleteModel => exact .ok .none
    | addField model hf => exact (hmn.addField hf).map fun _ _ => .some
    | removeField model hf =>
      simp only [effect, hf.name]
      exact hmn.removeField.map fun _ _ => .some
    | changeField model field hs ht =>
      simp only [effect, ht.name]
      exact .ite ((hmn.changeField hs ht).map fun _ _ => .some) (.error _)
    | renameField => exact hmn.renameField.map fun _ _ => .some
    | addIndex => exact hmn.addIndex.map fun _ _ => .some
    | removeIndex => exact hmn.removeIndex.map fun _ _ => .some
    | runData => exact .ok (.some hmn)

/-- **One change.** It is as good as another that is alike, and its schema as one that is alike. -/
theorem matched_apply (h : c.Alike d) (hst : s.Alike t) : Matched State.Alike (c.apply s) (d.apply t) := by
  cases hc : c.model? with
  | none =>
    rw [apply_of_model?_none hc, apply_of_model?_none (h.model? ▸ hc)]
    exact .ok hst
  | some n =>
    have hd : d.model? = some n := h.model? ▸ hc
    have heffect := matched_effect h (hst n)
    rw [apply_eq hc, apply_eq hd]
    generalize ho : c.effect (s.model? n) = x at heffect
    generalize hp : d.effect (t.model? n) = y at heffect
    cases heffect with
    | error conflict => exact .error _
    | ok hop =>
      have hname := effect_name hc (fun m hm => State.name_of_model? hm) ho
      have hname' := effect_name hd (fun m hm => State.name_of_model? hm) hp
      refine .ok fun k => ?_
      rw [State.model?_replace hname, State.model?_replace hname']
      split
      · exact hop
      · exact hst k

/-- **Changes in a row.** -/
theorem matched_applyFrom {cs ds : List Change} (h : List.Forall₂ Alike cs ds) (hst : s.Alike t) (position : Nat) :
    Matched State.Alike (applyFrom position cs s) (applyFrom position ds t) := by
  induction h generalizing s t position with
  | nil => exact .ok hst
  | cons hcd _ ih =>
    have hfirst := matched_apply hcd hst
    rw [applyFrom, applyFrom]
    generalize Change.apply _ s = x at hfirst
    generalize Change.apply _ t = y at hfirst
    cases hfirst with
    | ok hst' => exact ih hst' _
    | error conflict => exact .error _

/-! ### What a change brings in -/

/-- What a change brings in is there after it. -/
theorem field?_of_mem_brought {o o' : Option Model} (h : c.effect o = .ok o') {f : Field} (hf : f ∈ c.brought) :
    ∃ m, o' = some m ∧ m.field? f.name = some f := by
  cases c with
  | createModel name fields =>
    obtain ⟨-, hdistinct, rfl⟩ := of_effect_createModel h
    exact ⟨_, rfl, (Model.field?_ofFields hdistinct).2 ⟨hf, rfl⟩⟩
  | addField | changeField =>
    obtain rfl := List.mem_singleton.1 hf
    have ht := turns_of_effect h
    obtain ⟨m, m', rfl, rfl⟩ : ∃ m m', o = some m ∧ o' = some m' := by
      cases ht
      exact ⟨_, _, rfl, rfl⟩
    exact ⟨m', rfl, (field?_of_turns ht _).trans (if_pos rfl)⟩
  | _ => cases hf

/-- What is there after a change was brought in by it, or its default was there before. -/
theorem mem_brought_or_of_effect {o : Option Model} {m' : Model} (h : c.effect o = .ok (some m')) {k : String}
    {f : Field} (hf : m'.field? k = some f) :
    f ∈ c.brought ∨ ∃ m k' g, o = some m ∧ m.field? k' = some g ∧ f.default = g.default := by
  rcases origin_of_turns (turns_of_effect h) hf with
    ⟨hin, -⟩ | ⟨m, rfl, hsame | ⟨-, source, g, -, hsource, rfl⟩⟩
  · exact .inl hin
  · exact .inr ⟨m, k, f, rfl, hsame, rfl⟩
  · exact .inr ⟨m, source, g, rfl, hsource, rfl⟩

/-- **One change** of a schema whose defaults equal themselves leaves one such exactly when those that it brings in do. -/
theorem comparable_of_apply_iff {s' : State} (hs : s.Comparable) (h : c.apply s = .ok s') :
    s'.Comparable ↔ ∀ f ∈ c.brought, f.Comparable := by
  cases hc : c.model? with
  | none =>
    rw [apply_of_model?_none hc] at h
    cases h
    refine iff_of_true hs fun f hf => ?_
    cases c with
    | runData => cases hf
    | _ => cases hc
  | some n =>
    have heffect := effect_of_apply hc h
    rw [State.comparable_iff] at hs ⊢
    constructor
    · intro hs' f hf
      obtain ⟨m', hm', hf'⟩ := field?_of_mem_brought heffect hf
      exact Model.comparable_iff.1 (hs' n m' hm') _ f hf'
    · refine fun hbrought => forall_model_of_apply hc h hs fun m' hm' => ?_
      rw [hm'] at heffect
      refine Model.comparable_iff.2 fun name f hf => ?_
      obtain hin | ⟨m, name', g, hm, hg, hdefault⟩ := mem_brought_or_of_effect heffect hf
      · exact hbrought f hin
      · have hcomp : g.Comparable := Model.comparable_iff.1 (hs n m hm) name' g hg
        rwa [Field.Comparable, hdefault]

/-- **Changes in a row** that bring in no default that differs from itself. -/
theorem comparable_of_brought {position : Nat} {cs : List Change} {s' : State} (hs : s.Comparable)
    (h : applyFrom position cs s = .ok s') (hbrought : ∀ c ∈ cs, ∀ f ∈ c.brought, f.Comparable) : s'.Comparable := by
  induction cs generalizing position s with
  | nil =>
    cases h
    exact hs
  | cons c rest ih =>
    obtain ⟨t, ht, hrest⟩ := applyFrom_cons_eq_ok_iff.1 h
    exact ih ((comparable_of_apply_iff hs ht).2 (hbrought c (List.mem_cons_self ..))) hrest
      fun d hd => hbrought d (List.mem_cons_of_mem _ hd)

end Change

end Schemata
