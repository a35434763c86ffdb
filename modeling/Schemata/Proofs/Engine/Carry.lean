import Schemata.Proofs.Change.Paired
import Schemata.Proofs.Engine.Standing

/-! Migrations carried out over a connection.

When the ledger takes every entry, what comes of migrations in a row depends on the connection alone
(`Adapter.carry`), and it does not matter whether they are carried out at once or a first part before the
rest (`carry_append`). An adapter may be watched while it works (`Adapter.watched`): that changes nothing, and
what is seen are calls that follow the changes and the schemas before them (`Change.paired`). -/
namespace Schemata

namespace Engine
open Ddl Ledger

/-! ### Without the ledger -/

/-- What comes of migrations in a row: those that were carried out, why the one behind them was not, and the
connection. -/
structure Carried (γ : Type) where
  done : List Migration
  failure? : Option Failure
  connection : γ

namespace Adapter
variable {γ : Type} {A : Adapter γ}

/-- Executes migrations one after the other, up to the first that fails. -/
def carry (A : Adapter γ) : List Migration → State → γ → Carried γ
  | [], _, connection => ⟨[], none, connection⟩
  | m :: rest, schema, connection =>
    match A.run m schema connection with
    | .ok next connection =>
      let r := carry A rest next connection
      { r with done := m :: r.done }
    | .error failure connection => ⟨[], some failure, connection⟩

theorem applyAll_of_applyFrom {name : String} {index : Nat} {cs : List Change} {schema next : State}
    {connection connection' : γ} (h : A.applyFrom name index cs schema connection = .ok next connection') :
    Change.applyAll cs schema = .ok next := by
  induction cs generalizing index schema connection with
  | nil =>
    cases h
    rfl
  | cons c rest ih =>
    simp only [applyFrom] at h
    split at h
    · cases h
    · split at h
      · cases h
      · exact Change.applyAll_cons_eq_ok_iff.2 ⟨_, ‹_›, ih h⟩

/-- An adapter that is done with a migration gives the schema that the changes lead to. -/
theorem applyAll_of_run {m : Migration} {schema next : State} {connection connection' : γ}
    (h : A.run m schema connection = .ok next connection') : Change.applyAll m.changes schema = .ok next := by
  simp only [run, bind, EStateM.bind] at h
  split at h
  · split at h
    · rename_i happly
      split at h
      · cases h
        exact applyAll_of_applyFrom happly
      · cases h
    · cases h
  · cases h

section Append
variable {a b : List Migration} {schema reached : State} {connection : γ}

/-- Behind a migration that fails nothing is carried out. -/
theorem carry_append_of_failure {failure : Failure}
    (h : (A.carry a schema connection).failure? = some failure) :
    A.carry (a ++ b) schema connection = A.carry a schema connection := by
  induction a generalizing schema connection with
  | nil => cases h
  | cons m rest ih =>
    simp only [List.cons_append, carry] at h ⊢
    cases hrun : A.run m schema connection with
    | ok next connection' =>
      simp only [hrun] at h ⊢
      rw [ih h]
    | error failure connection' => rfl

/-- Migrations are carried out at once as they are one part after the other. -/
theorem carry_append (ha : a.foldlM Replay.step schema = .ok reached)
    (h : (A.carry a schema connection).failure? = none) :
    A.carry (a ++ b) schema connection =
      { A.carry b reached (A.carry a schema connection).connection with
        done := a ++ (A.carry b reached (A.carry a schema connection).connection).done } := by
  induction a generalizing schema connection with
  | nil =>
    obtain rfl : schema = reached := Except.ok.inj ha
    rfl
  | cons m rest ih =>
    obtain ⟨next, hm, hrest⟩ := Replay.foldlM_cons_eq_ok_iff.1 ha
    simp only [List.cons_append, carry] at h ⊢
    cases hrun : A.run m schema connection with
    | ok next' connection' =>
      obtain rfl : next' = next := Except.ok.inj ((applyAll_of_run hrun).symm.trans hm)
      simp only [hrun] at h ⊢
      rw [ih hrest h]
    | error failure connection' => simp [hrun] at h

end Append

end Adapter

/-- How the migrations end when the ledger takes every entry. -/
def Carried.result {γ : Type} (r : Carried γ) (report : Report) (w : World) :
    EStateM.Result Failure (Session γ) Report :=
  match r.failure? with
  | none => .ok (r.done.foldl Report.add report) ⟨w, r.connection⟩
  | some failure => .error failure ⟨w, r.connection⟩

/-- Each migration that is carried out is recorded, and the ledger stands in the way of none. -/
theorem applyAll_carry {γ : Type} (A : Adapter γ) {l : LedgerPlace} {engine : String} (ms : List Migration)
    (schema : State) {w : World} {entries : List Entry} (hl : l.Holds w engine entries) (connection : γ)
    (report : Report) :
    ∃ w', l.Holds w' engine (entries ++ (A.carry ms schema connection).done.map (entryOf engine w.now)) ∧
      applyAll l A.inSession engine ms schema report ⟨w, connection⟩ =
        (A.carry ms schema connection).result report w' := by
  induction ms generalizing schema w entries connection report with
  | nil => exact ⟨w, by simpa [Adapter.carry] using hl, rfl⟩
  | cons m rest ih =>
    simp only [applyAll, bind, EStateM.bind, Adapter.run_inSession, onConnection, Adapter.carry]
    cases A.run m schema connection with
    | error failure connection' => exact ⟨w, by simpa using hl, rfl⟩
    | ok next connection' =>
      obtain ⟨w', hrecord, hnow, hl'⟩ := hl.record_eq m.name m.checksum
      obtain ⟨w'', hl'', hrun⟩ := ih next hl' connection' (report.add m)
      refine ⟨w'', ?_, ?_⟩
      · rw [hnow, List.append_assoc] at hl''
        exact hl''
      · simp only [onWorld, hrecord, hrun, Carried.result, List.foldl_cons]

/-! ### Through a script -/

section Script
variable {committed : List Statement} {schema : State}

/-- A migration that replays is written to the script as one block, or leaves the script as it was. -/
theorem Adapter.run_script_cases {m : Migration} {next : State} (h : Change.applyAll m.changes schema = .ok next)
    (committed : List Statement) :
    (∃ own, statements? m.changes schema = some (own, next) ∧
      scriptAdapter.run m schema ⟨committed, none⟩ = .ok next ⟨committed ++ block own, none⟩) ∨
    ∃ index fault, statements? m.changes schema = none ∧
      scriptAdapter.run m schema ⟨committed, none⟩ =
        .error (.adapter m.name index false fault) ⟨committed, none⟩ := by
  have hrun (w : World) : scriptAdapter.inSession.run m schema ⟨w, ⟨committed, none⟩⟩ =
      onConnection (scriptAdapter.run m schema) ⟨w, ⟨committed, none⟩⟩ := by
    rw [Adapter.run_inSession]
  simp only [onConnection] at hrun
  rcases Adapter.run_script h ⟨.empty, ⟨0, 0⟩, {}⟩ committed with ⟨own, hs, hm⟩ | ⟨index, fault, hs, hm⟩
  · refine .inl ⟨own, hs, ?_⟩
    rw [hrun] at hm
    split at hm
    · rename_i heq
      cases hm
      exact heq
    · cases hm
  · refine .inr ⟨index, fault, hs, ?_⟩
    rw [hrun] at hm
    split at hm
    · cases hm
    · rename_i heq
      cases hm
      exact heq

/-- Why migrations in a row stopped where `rest` was left: because nothing was left, or because the next one
cannot be rendered. -/
def Stops (rest : List Migration) (reached : State) (failure? : Option Failure) : Prop :=
  rest = [] ∧ failure? = none ∨
    ∃ m more index fault, rest = m :: more ∧ statements? m.changes reached = none ∧
      failure? = some (.adapter m.name index false fault)

/-- Migrations that replay are written to the script one after the other, up to the first that cannot be
rendered. Those that are written would be written without the others too. -/
theorem carry_script {ms : List Migration} {head : State} (h : ms.foldlM Replay.step schema = .ok head)
    (committed : List Statement) :
    ∃ done rest blocks reached failure?, ms = done ++ rest ∧ blocks? done schema = some (blocks, reached) ∧
      done.foldlM Replay.step schema = .ok reached ∧ Stops rest reached failure? ∧
      scriptAdapter.carry done schema ⟨committed, none⟩ = ⟨done, none, ⟨committed ++ blocks, none⟩⟩ ∧
      scriptAdapter.carry ms schema ⟨committed, none⟩ = ⟨done, failure?, ⟨committed ++ blocks, none⟩⟩ := by
  induction ms generalizing schema committed with
  | nil =>
    refine ⟨[], [], [], schema, none, rfl, rfl, rfl, .inl ⟨rfl, rfl⟩, ?_, ?_⟩ <;>
      rw [List.append_nil] <;> rfl
  | cons m rest ih =>
    obtain ⟨next, hm, hrest⟩ := Replay.foldlM_cons_eq_ok_iff.1 h
    rcases Adapter.run_script_cases hm committed with ⟨own, hs, hrun⟩ | ⟨index, fault, hs, hrun⟩
    · obtain ⟨done, left, blocks, reached, failure?, rfl, hblocks, hdone, hstops, hcarry, hall⟩ :=
        ih hrest (committed ++ block own)
      refine ⟨m :: done, left, block own ++ blocks, reached, failure?, rfl, ?_,
        Replay.foldlM_cons_eq_ok_iff.2 ⟨next, hm, hdone⟩, hstops, ?_, ?_⟩
      · simp [blocks?, hs, hblocks]
      · simp only [Adapter.carry, hrun, hcarry, List.append_assoc]
      · simp only [Adapter.carry, hrun, hall, List.append_assoc]
    · refine ⟨[], m :: rest, [], schema, some (.adapter m.name index false fault), rfl, rfl, rfl,
        .inr ⟨m, rest, index, fault, rfl, hs, rfl⟩, ?_, ?_⟩
      · rw [List.append_nil]
        rfl
      · rw [List.append_nil]
        simp only [Adapter.carry, hrun]

end Script

/-! ### Watching an adapter -/

/-- A connection, and the calls that an adapter got for it: each change with the schema that it came with. -/
structure Watched (γ : Type) where
  connection : γ
  calls : List (Change × State) := []

section Watching
variable {γ : Type}

/-- Work on a watched connection of which nothing is written down. -/
def unseen {ε α : Type} (work : EStateM ε γ α) : EStateM ε (Watched γ) α := fun t =>
  mapState (⟨·, t.calls⟩) (work t.connection)

/-- The adapter, with its calls written down. -/
def Adapter.watched (A : Adapter γ) : Adapter (Watched γ) where
  transactional := A.transactional
  begin := unseen A.begin
  commit := unseen A.commit
  rollback := unseen A.rollback
  apply c schema t := unseen (A.apply c schema) { t with calls := t.calls ++ [(c, schema)] }

variable (A : Adapter γ)

namespace Adapter

theorem transact_watched (work : Exchange γ Unit) (name : String) (index : Nat) (c : γ)
    (calls : List (Change × State)) :
    A.watched.transact (unseen work) name index ⟨c, calls⟩ = mapState (⟨·, calls⟩) (A.transact work name index c) := by
  have ht : A.watched.transactional = A.transactional := rfl
  simp only [transact, ht, unseen]
  split
  · cases work c <;> rfl
  · rfl

theorem abort_watched (index : Nat) (c : γ) (calls : List (Change × State)) :
    A.watched.abort index ⟨c, calls⟩ = ((A.abort index c).1, ⟨(A.abort index c).2, calls⟩) := by
  have ht : A.watched.transactional = A.transactional := rfl
  have hrollback : A.watched.rollback ⟨c, calls⟩ = mapState (⟨·, calls⟩) (A.rollback c) := rfl
  simp only [abort, ht, hrollback]
  split
  · cases A.rollback c <;> rfl
  · rfl

/-- The calls for changes in a row follow the changes, as far as they get, and there is one if there is a change. -/
theorem applyFrom_watched (name : String) (index : Nat) (cs : List Change) (schema : State) (c : γ)
    (calls : List (Change × State)) :
    ∃ more, A.watched.applyFrom name index cs schema ⟨c, calls⟩ =
        mapState (⟨·, calls ++ more⟩) (A.applyFrom name index cs schema c) ∧
      more <+: Change.paired cs schema ∧
      (∀ next c', A.applyFrom name index cs schema c = .ok next c' → more = Change.paired cs schema) ∧
      (more = [] → cs = []) := by
  induction cs generalizing index schema c calls with
  | nil => exact ⟨[], by rw [List.append_nil]; rfl, List.prefix_rfl, fun _ _ _ => rfl, fun _ => rfl⟩
  | cons change rest ih =>
    have happly : A.watched.apply change schema ⟨c, calls⟩ =
        mapState (⟨·, calls ++ [(change, schema)]⟩) (A.apply change schema c) := rfl
    have hfirst : [(change, schema)] <+: Change.paired (change :: rest) schema := ⟨_, rfl⟩
    simp only [applyFrom, happly]
    cases A.apply change schema c with
    | error fault c' =>
      exact ⟨[(change, schema)], by simp only [mapState_error, abort_watched], hfirst, fun _ _ he => (by cases he),
        fun hnil => by cases hnil⟩
    | ok _ c' =>
      simp only [mapState_ok]
      cases hc : change.apply schema with
      | error conflict =>
        exact ⟨[(change, schema)], rfl, hfirst, fun _ _ he => (by cases he), fun hnil => by cases hnil⟩
      | ok next =>
        obtain ⟨more, hrun, hmore, hall, -⟩ := ih (index + 1) next c' (calls ++ [(change, schema)])
        rw [Change.paired_cons hc]
        refine ⟨(change, schema) :: more, ?_, (List.prefix_cons_inj _).2 hmore, fun after c'' he => ?_,
          fun hnil => by cases hnil⟩
        · simp only [hrun, List.append_assoc, List.singleton_append]
        · rw [hall after c'' he]

theorem run_watched (m : Migration) (schema : State) (c : γ) (calls : List (Change × State)) :
    ∃ more, A.watched.run m schema ⟨c, calls⟩ = mapState (⟨·, calls ++ more⟩) (A.run m schema c) ∧
      more <+: Change.paired m.changes schema ∧
      (∀ next c', A.run m schema c = .ok next c' → more = Change.paired m.changes schema) ∧
      ∀ u c', A.transact A.begin m.name 0 c = .ok u c' → more = [] → m.changes = [] := by
  have hbegin := A.transact_watched A.begin m.name 0 c calls
  have hb : A.watched.begin = unseen A.begin := rfl
  have hc : A.watched.commit = unseen A.commit := rfl
  simp only [run, bind, EStateM.bind, hb, hc, hbegin]
  cases A.transact A.begin m.name 0 c with
  | error failure c' =>
    exact ⟨[], by rw [List.append_nil]; rfl, List.nil_prefix, fun _ _ he => (by cases he), fun _ _ he => by cases he⟩
  | ok _ c' =>
    obtain ⟨more, hrun, hmore, hall, hnone⟩ := A.applyFrom_watched m.name 0 m.changes schema c' calls
    refine ⟨more, ?_, hmore, fun next c'' he => ?_, fun _ _ _ => hnone⟩
    · simp only [mapState_ok, hrun]
      cases A.applyFrom m.name 0 m.changes schema c' with
      | error failure c'' => rfl
      | ok next c'' =>
        simp only [mapState_ok, transact_watched]
        cases A.transact A.commit m.name m.changes.length c'' <;> rfl
    · dsimp only at he
      split at he
      · rename_i happly
        exact hall _ _ happly
      · cases he

end Adapter

/-- The session of a run, with the calls that were seen. -/
def Session.watch (calls : List (Change × State)) (t : Session γ) : Session (Watched γ) :=
  ⟨t.world, ⟨t.connection, calls⟩⟩

theorem applyAll_watched (l : LedgerPlace) (engine : String) (ms : List Migration) (schema : State) (report : Report)
    (t : Session γ) (calls : List (Change × State)) :
    ∃ more, applyAll l A.watched.inSession engine ms schema report (t.watch calls) =
        mapState (Session.watch (calls ++ more)) (applyAll l A.inSession engine ms schema report t) ∧
      more <+: Change.paired (ms.flatMap (·.changes)) schema := by
  induction ms generalizing schema report t calls with
  | nil => exact ⟨[], by rw [List.append_nil]; rfl, List.prefix_rfl⟩
  | cons m rest ih =>
    obtain ⟨more, hrun, hmore, hall, -⟩ := A.run_watched m schema t.connection calls
    simp only [applyAll, bind, EStateM.bind, Adapter.run_inSession, onConnection, Session.watch, hrun,
      List.flatMap_cons]
    cases hm : A.run m schema t.connection with
    | error failure c =>
      exact ⟨more, rfl, hmore.trans (Change.paired_prefix ..)⟩
    | ok next c =>
      obtain rfl := hall next c hm
      rw [Change.paired_append (Adapter.applyAll_of_run hm)]
      simp only [mapState_ok, onWorld]
      cases l.record m.name engine m.checksum t.world with
      | error failure w =>
        exact ⟨_, rfl, List.prefix_append _ _⟩
      | ok _ w =>
        obtain ⟨more', hrest, hmore'⟩ := ih next (report.add m) ⟨w, c⟩ (calls ++ Change.paired m.changes schema)
        refine ⟨Change.paired m.changes schema ++ more', ?_, (List.prefix_append_right_inj _).2 hmore'⟩
        rw [← List.append_assoc]
        exact hrest

/-- **Watching makes no difference.** A run does the same, and what is seen are calls for the changes that were
outstanding, in their order, each with the schema right before it. -/
theorem migrate_watched (s : Settings) (engine : String) (t : Session γ) (calls : List (Change × State)) :
    ∃ more, migrate s A.watched engine (t.watch calls) =
        mapState (Session.watch (calls ++ more)) (migrate s A engine t) ∧
      more <+: Change.paired ((outstanding s t.world engine).1.flatMap (·.changes))
        (outstanding s t.world engine).2 := by
  obtain ⟨w, connection⟩ := t
  have hnothing (r : EStateM.Result Failure (Session γ) Report) :
      mapState (Session.watch (calls ++ [])) r = mapState (Session.watch calls) r := by rw [List.append_nil]
  simp only [Session.watch, outstanding, start]
  cases hacquire : s.ledger.acquire engine w with
  | error failure held =>
    refine ⟨[], ?_, List.nil_prefix⟩
    rw [hnothing, migrate_of_acquire_error hacquire, migrate_of_acquire_error hacquire]
    rfl
  | ok _ held =>
    simp only [migrate_of_acquire hacquire]
    cases hprepare : prepare s held engine with
    | error failure =>
      refine ⟨[], ?_, List.nil_prefix⟩
      rw [hnothing, migrateLocked_of_prepare_error hprepare, migrateLocked_of_prepare_error hprepare]
      rfl
    | ok found =>
      obtain ⟨pending, schema⟩ := found
      cases hdry : s.dryRun with
      | true =>
        refine ⟨[], ?_, List.nil_prefix⟩
        rw [hnothing, migrateLocked_of_dry hprepare hdry, migrateLocked_of_dry hprepare hdry]
        rfl
      | false =>
        obtain ⟨more, hrun, hmore⟩ :=
          applyAll_watched A s.ledger engine pending schema { engine } ⟨held, connection⟩ calls
        refine ⟨more, ?_, hmore⟩
        simp only [Session.watch] at hrun
        rw [migrateLocked_of_prepare hprepare hdry, migrateLocked_of_prepare hprepare hdry, hrun]
        cases applyAll s.ledger A.inSession engine pending schema { engine } ⟨held, connection⟩ <;> rfl

end Watching

end Engine

end Schemata
