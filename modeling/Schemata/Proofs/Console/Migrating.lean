import Schemata.Console.Run
import Schemata.Proofs.Console.Emitter
import Schemata.Proofs.Engine.Standing
import Schemata.Proofs.Engine.Upkeep

/-! What is handed on and what is recorded.

The command that migrates goes through the engines and, for each, through the pending migrations. What becomes of them
is followed here step by step (`progress`, `runs`): which were recorded, and whether one was committed that the ledger
did not take. All that was handed on in the end are the blocks of those that were committed, behind one line for each
engine that has any (`migrateProject_emits`). -/
namespace Schemata

namespace Engine
open Ddl

/-! ### Pending migrations -/

section Worlds
variable {γ α : Type} {work : Work α} {t u : Session γ}

end Worlds

/-- What became of the pending migrations of an engine. -/
structure Progress where
  /-- Those that were recorded, in their order. -/
  recorded : List Migration := []
  /-- The one behind them that was committed, if the ledger did not take it. -/
  unrecorded : Option Migration := none

namespace Progress

def committed (p : Progress) : List Migration := p.recorded ++ p.unrecorded.toList

/-- With one more migration recorded before. -/
def after (m : Migration) (p : Progress) : Progress := { p with recorded := m :: p.recorded }

end Progress

/-- Follows migrations that are carried out one after the other. -/
def progress {γ : Type} (l : LedgerPlace) (A : Adapter (Session γ)) (engine : String) :
    List Migration → State → Session γ → Progress
  | [], _, _ => {}
  | m :: rest, schema, t =>
    match A.run m schema t with
    | .error _ _ => {}
    | .ok next t =>
      match onWorld (l.record m.name engine m.checksum) t with
      | .error _ _ => { unrecorded := some m }
      | .ok _ t => (progress l A engine rest next t).after m

end Engine

namespace Console
open Engine Ddl Emitter

/-- Whether the work came to its end. -/
def IsDone {ε σ α : Type} : EStateM.Result ε σ α → Prop
  | .ok _ _ => True
  | .error _ _ => False

/-- The work stopped because the ledger did not take the migration. -/
def Refused {σ α : Type} (l : LedgerPlace) (engine : String) (m : Migration) (r : EStateM.Result Failure σ α) : Prop :=
  ∃ failure w w' t, l.record m.name engine m.checksum w = .error failure w' ∧ r = .error failure t

/-- Whatever is left behind by the failure. -/
theorem Refused.error {σ σ' α β : Type} {l : LedgerPlace} {engine : String} {m : Migration} {failure : Failure} {t : σ}
    (h : Refused (α := α) l engine m (.error failure t)) (t' : σ') :
    Refused (α := β) l engine m (.error failure t') := by
  obtain ⟨_, w, w', _, hrecord, hstop⟩ := h
  cases hstop
  exact ⟨failure, w, w', t', hrecord, rfl⟩

/-- What a run had before it for one engine, and what became of it. -/
structure EngineRun where
  engine : String
  world : World
  pending : List Migration
  schema : State
  progress : Progress

namespace EngineRun

/-- The blocks of the migrations that were committed. -/
def statements (r : EngineRun) : List Statement := ((blocks? r.progress.committed r.schema).map Prod.fst).getD []

/-- The blocks behind a line with the name of the engine, if there are any. -/
def text (r : EngineRun) : String :=
  if r.statements.isEmpty then "" else s!"-- engine: {r.engine}\n" ++ String.join (r.statements.map (·.sql ++ "\n"))

/-- What is pending is the end of the engine's chain; what was committed is the first part of it and could be
rendered. -/
structure Sound (s : Settings) (r : EngineRun) : Prop where
  pending : r.pending = [] ∨ ∃ held chain, s.ledger.acquire r.engine r.world = .ok () held ∧
    loadChain s held r.engine = .ok chain ∧ r.pending <:+ chain
  committed : r.progress.committed <+: r.pending
  distinct : (r.progress.committed.map (·.name)).Nodup
  rendered : ∃ reached, blocks? r.progress.committed r.schema = some (r.statements, reached)

/-- Everything that was pending was recorded. -/
def IsComplete (r : EngineRun) : Prop := r.progress = { recorded := r.pending }

end EngineRun

/-- Follows the run of an engine. -/
def engineRun (s : Settings) (engine : String) (t : Session Emitter) : EngineRun where
  engine
  world := t.world
  pending := (outstanding s t.world engine).1
  schema := (outstanding s t.world engine).2
  progress :=
    match s.ledger.acquire engine t.world with
    | .error _ _ => {}
    | .ok _ held =>
      progress s.ledger adapter engine (outstanding s t.world engine).1 (outstanding s t.world engine).2
        { t with world := held }

section Runs
variable {s : Settings} {engine : String} {t : Session Emitter}

/-- The session when an engine has its turn. -/
def begun (engine : String) (t : Session Emitter) : Session Emitter :=
  { t with connection := { t.connection.print [.heading s!"Engine '{engine}'"] with engine } }

/-- Follows the runs of engines in a row, up to the first one that fails. -/
def runs (s : Settings) : List String → Session Emitter → List EngineRun
  | [], _ => []
  | engine :: rest, t =>
    engineRun s engine (begun engine t) ::
      match migrateOne s engine t with
      | .ok _ t => runs s rest t
      | .error _ _ => []

/-- What is left by engines that had their turns, told from the run of each. -/
structure Accounts (s : Settings) (engines : List String) (e : Emitter) (rs : List EngineRun)
    (result : EStateM.Result Failure (Session Emitter) Unit) : Prop where
  /-- The engines had their turns in the order in which they were given, up to the first that failed. -/
  turns : rs.map EngineRun.engine <+: engines
  /-- Only the last of them can have failed. -/
  complete : ∀ r ∈ rs.dropLast, r.IsComplete
  done : IsDone result → rs.map EngineRun.engine = engines ∧ ∀ r ∈ rs, r.IsComplete
  failed : ¬ IsDone result → ∃ ran engine rest, engines = ran ++ engine :: rest ∧
    rs.map EngineRun.engine = ran ++ [engine]
  sound : ∀ r ∈ rs, r.Sound s
  /-- All that was committed was recorded, unless the ledger did not take the last of it. -/
  refused : ∀ r ∈ rs, ∀ m, r.progress.unrecorded = some m → Refused s.ledger r.engine m result
  output : (stateOf result).connection.output = e.output
  /-- What was handed on are the texts of the runs. -/
  emitted : (stateOf result).connection.emitted = e.emitted ++ String.join (rs.map EngineRun.text)

/-- The account of an engine that came to its end, and of those behind it. -/
theorem Accounts.cons {r : EngineRun} {rs : List EngineRun} {rest : List String} {e e' : Emitter}
    {result : EStateM.Result Failure (Session Emitter) Unit} (h : Accounts s rest e' rs result) (hsound : r.Sound s)
    (hcomplete : r.IsComplete) (houtput : e'.output = e.output) (hemitted : e'.emitted = e.emitted ++ r.text) :
    Accounts s (r.engine :: rest) e (r :: rs) result where
  turns := List.cons_prefix_cons.2 ⟨rfl, h.turns⟩
  complete := by
    intro q hq
    cases rs with
    | nil => cases hq
    | cons next more =>
      rcases List.mem_cons.1 hq with rfl | hq
      · exact hcomplete
      · exact h.complete q hq
  done hdone := ⟨congrArg (r.engine :: ·) (h.done hdone).1, List.forall_mem_cons.2 ⟨hcomplete, (h.done hdone).2⟩⟩
  failed hfailed := by
    obtain ⟨ran, last, left, heq, hran⟩ := h.failed hfailed
    exact ⟨r.engine :: ran, last, left, congrArg (r.engine :: ·) heq, congrArg (r.engine :: ·) hran⟩
  sound := List.forall_mem_cons.2 ⟨hsound, h.sound⟩
  refused := by
    refine List.forall_mem_cons.2 ⟨fun m hm => ?_, h.refused⟩
    rw [hcomplete] at hm
    cases hm
  output := h.output.trans houtput
  emitted := by rw [h.emitted, hemitted, List.map_cons, String.join_cons, String.append_assoc]

end Runs

end Console

end Schemata
