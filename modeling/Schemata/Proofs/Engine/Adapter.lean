import Schemata.Engine.Migrate

/-! Adapters on a part of a state.

An adapter for one kind of connection is one for any state that has such a connection as a part (`Adapter.onPart`), and
what it does to a migration there is what it does to the part (`applyFrom_onPart`, `run_onPart`). -/
namespace Schemata.Engine

variable {σ τ ε α β : Type}

/-- A part of a state that can be seen and replaced. -/
structure Part (σ τ : Type) where
  get : σ → τ
  set : σ → τ → σ
  get_set : ∀ s p, get (set s p) = p
  set_set : ∀ s p q, set (set s p) q = set s q
  set_get : ∀ s, set s (get s) = s

/-- Work on the part alone. -/
def Part.work (part : Part σ τ) (work : EStateM ε τ α) : EStateM ε σ α := fun s =>
  match work (part.get s) with
  | .ok a p => .ok a (part.set s p)
  | .error e p => .error e (part.set s p)

namespace Part
variable (part : Part σ τ)

theorem work_pure (a : α) : part.work (pure a : EStateM ε τ α) = pure a := by
  funext s
  exact congrArg (EStateM.Result.ok a) (part.set_get s)

theorem work_bind (work : EStateM ε τ α) (next : α → EStateM ε τ β) :
    part.work (work >>= next) = part.work work >>= fun a => part.work (next a) := by
  funext s
  simp only [Part.work, bind, EStateM.bind]
  cases hwork : work (part.get s) with
  | error e p => rfl
  | ok a p =>
    simp only [part.get_set]
    cases next a p <;> simp only [part.set_set]

end Part

namespace Adapter
variable (A : Adapter τ) (part : Part σ τ)

/-- The adapter for states that the connection is a part of. -/
def onPart : Adapter σ where
  transactional := A.transactional
  begin := part.work A.begin
  commit := part.work A.commit
  rollback := part.work A.rollback
  apply c schema := part.work (A.apply c schema)

theorem transact_work (work : Exchange τ Unit) (migration : String) (index : Nat) :
    (A.onPart part).transact (part.work work) migration index = part.work (A.transact work migration index) := by
  funext s
  have hsame : (A.onPart part).transactional = A.transactional := rfl
  simp only [transact, hsame, Part.work]
  split
  · cases work (part.get s) <;> rfl
  · exact congrArg (EStateM.Result.ok ()) (part.set_get s).symm

theorem abort_onPart (index : Nat) (s : σ) :
    (A.onPart part).abort index s =
      ((A.abort index (part.get s)).1, part.set s (A.abort index (part.get s)).2) := by
  have hsame : (A.onPart part).transactional = A.transactional := rfl
  have hrollback : (A.onPart part).rollback s = part.work A.rollback s := rfl
  simp only [abort, hsame, hrollback, Part.work]
  split
  · cases A.rollback (part.get s) <;> rfl
  · rw [part.set_get]

theorem applyFrom_onPart (migration : String) (index : Nat) (cs : List Change) (schema : State) :
    (A.onPart part).applyFrom migration index cs schema = part.work (A.applyFrom migration index cs schema) := by
  induction cs generalizing index schema with
  | nil => exact (part.work_pure schema).symm
  | cons c rest ih =>
    funext s
    have happly : (A.onPart part).apply c schema s = part.work (A.apply c schema) s := rfl
    simp only [applyFrom, happly, Part.work]
    cases A.apply c schema (part.get s) with
    | error fault p => simp only [abort_onPart, part.get_set, part.set_set]
    | ok _ p =>
      cases c.apply schema with
      | error conflict => rfl
      | ok after =>
        simp only [ih, Part.work, part.get_set]
        cases A.applyFrom migration (index + 1) rest after p <;> simp only [part.set_set]

/-- **On a part of a state** a migration comes to what it comes to for the part. -/
theorem run_onPart (m : Migration) (schema : State) : (A.onPart part).run m schema = part.work (A.run m schema) := by
  have hbegin := A.transact_work part A.begin m.name 0
  have hcommit := A.transact_work part A.commit m.name m.changes.length
  have hb : (A.onPart part).begin = part.work A.begin := rfl
  have hc : (A.onPart part).commit = part.work A.commit := rfl
  simp only [run, hb, hc, hbegin, hcommit, applyFrom_onPart, part.work_bind, part.work_pure]

end Adapter

/-! ### Sessions -/

/-- The connection of a session. -/
def connectionPart (γ : Type) : Part (Session γ) γ where
  get := Session.connection
  set t connection := { t with connection }
  get_set _ _ := rfl
  set_set _ _ _ := rfl
  set_get _ := rfl

namespace Adapter
variable {γ : Type} (A : Adapter γ)

theorem run_inSession (m : Migration) (schema : State) : A.inSession.run m schema = onConnection (A.run m schema) :=
  A.run_onPart (connectionPart γ) m schema

end Adapter

end Schemata.Engine
