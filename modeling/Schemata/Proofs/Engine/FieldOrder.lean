import Schemata.Engine.Adapter
import Schemata.Proofs.Ddl.Alike

/-! Schemas that differ in the order of their fields only.

Whether two schemas are the same does not depend on the order of the fields in a model, or on the sign of a zero.
Nothing that happens to them does either: they take the same changes and refuse the same ones, each for the same
reason, a change has the same statements against both, and so a script that a list of changes is carried out on comes
out the same (`interchangeable_of_same`). What the changes leave is the same again, but for one thing: a default that is no
number equals no default, not even itself (`exists_unequal`). -/
namespace Schemata.Engine

/-- Both runs leave the same connection. What they come to is related, or they fail for the same reason. -/
inductive MatchedRun {ε γ α β : Type} (R : α → β → Prop) : EStateM.Result ε γ α → EStateM.Result ε γ β → Prop
  | ok {a : α} {b : β} (connection : γ) : R a b → MatchedRun R (.ok a connection) (.ok b connection)
  | error (e : ε) (connection : γ) : MatchedRun R (.error e connection) (.error e connection)

namespace Adapter
variable {γ : Type} {A : Adapter γ} {s t : State}

/-- What the adapter executes for a change is the same against schemas that are alike. -/
def Indifferent (A : Adapter γ) : Prop := ∀ c s t, State.Alike s t → A.apply c s = A.apply c t

theorem indifferent_script : scriptAdapter.Indifferent := by
  intro c s t hst
  simp only [scriptAdapter, Ddl.Script.issue, hst.render_eq c]

theorem Indifferent.matched_applyFrom (hA : A.Indifferent) (hst : s.Alike t) (migration : String) (index : Nat)
    (cs : List Change) (connection : γ) :
    MatchedRun State.Alike (A.applyFrom migration index cs s connection)
      (A.applyFrom migration index cs t connection) := by
  induction cs generalizing s t index connection with
  | nil => exact .ok connection hst
  | cons c rest ih =>
    have happly := Change.matched_apply (.refl c) hst
    simp only [applyFrom, hA c s t hst]
    cases A.apply c t connection with
    | error fault connection' => exact .error _ _
    | ok _ connection' =>
      generalize c.apply s = x at happly
      generalize c.apply t = y at happly
      cases happly with
      | error conflict => exact .error _ _
      | ok hst' => exact ih hst' _ _

theorem Indifferent.matched_run (hA : A.Indifferent) (hst : s.Alike t) (m : Migration) (connection : γ) :
    MatchedRun State.Alike (A.run m s connection) (A.run m t connection) := by
  simp only [run, bind, EStateM.bind]
  cases A.transact A.begin m.name 0 connection with
  | error failure connection' => exact .error _ _
  | ok _ opened =>
    have hchanges := hA.matched_applyFrom hst m.name 0 m.changes opened
    dsimp only
    generalize A.applyFrom m.name 0 m.changes s opened = x at hchanges
    generalize A.applyFrom m.name 0 m.changes t opened = y at hchanges
    cases hchanges with
    | error failure connection' => exact .error _ _
    | ok connection' hst' =>
      dsimp only
      cases A.transact A.commit m.name m.changes.length connection' with
      | error failure connection'' => exact .error _ _
      | ok _ closed => exact .ok closed hst'

end Adapter

/-! ### Schemas that are the same -/

/-- The two schemas cannot be told apart by what changes make of them. -/
structure Interchangeable (s t : State) : Prop where
  /-- A change applies to both, or to neither for the same reason. -/
  applied : ∀ c : Change, Matched State.Alike (c.apply s) (c.apply t)
  /-- What it leaves is the same exactly when every default that it brings in equals itself. -/
  same : ∀ (c : Change) (s' t' : State), c.apply s = .ok s' → c.apply t = .ok t' →
    (s'.same t' = true ↔ ∀ f ∈ c.brought, f.Comparable)
  /-- It has the same statements against both, or cannot be rendered against either for the same reason. -/
  rendered : ∀ c : Change, Ddl.render c s = Ddl.render c t
  /-- Changes in a row apply to both, or the same one of them does not and for the same reason. -/
  replayed : ∀ cs : List Change, Matched State.Alike (Change.applyAll cs s) (Change.applyAll cs t)
  /-- What they leave is the same exactly when no default is left that differs from itself. -/
  same_replayed : ∀ (cs : List Change) (s' t' : State), Change.applyAll cs s = .ok s' → Change.applyAll cs t = .ok t' →
    (s'.same t' = true ↔ s'.Comparable) ∧ ((∀ c ∈ cs, ∀ f ∈ c.brought, f.Comparable) → s'.same t' = true)
  /-- Changes in a row leave the same script, from whatever script they are carried out on, with a transaction open
  or not. -/
  written : ∀ (migration : String) (index : Nat) (cs : List Change) (script : Ddl.Script),
    MatchedRun State.Alike (scriptAdapter.applyFrom migration index cs s script)
      (scriptAdapter.applyFrom migration index cs t script)
  /-- So do migrations. -/
  migrated : ∀ (m : Migration) (script : Ddl.Script),
    MatchedRun State.Alike (scriptAdapter.run m s script) (scriptAdapter.run m t script)

/-- **Schemas that are the same cannot be told apart**, in whatever order their fields stand. -/
theorem interchangeable_of_same {s t : State} (h : s.same t = true) : Interchangeable s t := by
  obtain ⟨hst, hcomp⟩ := State.same_iff_alike.1 h
  have happlied (c : Change) := Change.matched_apply (.refl c) hst
  have hreplayed (cs : List Change) := Change.matched_applyFrom (List.forall₂_same.2 fun c (_ : c ∈ cs) => .refl c) hst 0
  have hsame {s' t' : State} (halike : s'.Alike t') : s'.same t' = true ↔ s'.Comparable :=
    State.same_iff_alike.trans (and_iff_right halike)
  exact
    { applied := happlied
      same := fun c s' t' hs ht =>
        (hsame ((happlied c).of_ok hs ht)).trans (Change.comparable_of_apply_iff hcomp hs)
      rendered := hst.render_eq
      replayed := hreplayed
      same_replayed := fun cs s' t' hs ht =>
        have hiff := hsame ((hreplayed cs).of_ok hs ht)
        ⟨hiff, fun hbrought => hiff.2 (Change.comparable_of_brought hcomp hs hbrought)⟩
      written := Adapter.indifferent_script.matched_applyFrom hst
      migrated := Adapter.indifferent_script.matched_run hst }

/-- A model and the same with its fields in another order. -/
def sampleOrders : State × State :=
  (.ofModels [.ofFields "post" [.autoKey "id", { name := "title", type := .text }]],
    .ofModels [.ofFields "post" [{ name := "title", type := .text }, .autoKey "id"]])

theorem interchangeable_sampleOrders : sampleOrders.1.same sampleOrders.2 = true ∧
    (sampleOrders.1.model? "post").map (·.fields.keys) = some ["id", "title"] ∧
    (sampleOrders.2.model? "post").map (·.fields.keys) = some ["title", "id"] ∧
    Interchangeable sampleOrders.1 sampleOrders.2 :=
  ⟨by decide, by decide, by decide, interchangeable_of_same (by decide)⟩

/-- A new model whose default is no number. -/
def sampleUnequal : Change :=
  .createModel "tag" [.autoKey "id", { name := "rate", type := .float, default := some (.float ⟨0x7FF8000000000000⟩) }]

/-- **What a change leaves is not always the same.** A model with a default that is no number, made twice of nothing. -/
theorem exists_unequal : ∃ s t s' t', State.same s t = true ∧ sampleUnequal.apply s = .ok s' ∧
    sampleUnequal.apply t = .ok t' ∧ s'.same t' = false :=
  ⟨Ascending.empty, Ascending.empty, _, _, by decide, rfl, rfl, by decide⟩

end Schemata.Engine
