import Schemata.Change.Apply
import Schemata.Ddl.Script
import Schemata.History.Migration

/-! Adapters: how changes reach a database.

An adapter works on a connection of its own kind `γ`. When it can undo changes, a migration is carried out
in one transaction, and a change that fails takes the ones before it back; otherwise they stay, and the
failure says so. -/
namespace Schemata.Engine

/-- Work on a connection. When it fails, what it did before stays done. -/
abbrev Exchange (γ α : Type) := EStateM AdapterFault γ α

structure Adapter (γ : Type) where
  /-- Whether changes of the schema can be undone. -/
  transactional : Bool
  begin : Exchange γ Unit := pure ()
  commit : Exchange γ Unit := pure ()
  rollback : Exchange γ Unit := pure ()
  /-- Executes a change; the schema is that right before it. -/
  apply : Change → State → Exchange γ Unit

namespace Adapter
variable {γ : Type}

/-- Takes back what a migration did before its change at `index` failed, where that is possible, and
tells whether something of it stays. -/
def abort (A : Adapter γ) (index : Nat) (connection : γ) : Bool × γ :=
  if A.transactional then
    match A.rollback connection with
    | .ok _ connection => (false, connection)
    | .error _ connection => (decide (0 < index), connection)
  else (decide (0 < index), connection)

/-- Executes changes from the one at `index` on, and gives the schema after them. -/
def applyFrom (A : Adapter γ) (migration : String) (index : Nat) :
    List Change → State → EStateM Failure γ State
  | [], schema => pure schema
  | c :: rest, schema => fun connection =>
    match A.apply c schema connection with
    | .error fault connection =>
      let (partially, connection) := A.abort index connection
      .error (.adapter migration index partially fault) connection
    | .ok _ connection =>
      match c.apply schema with
      | .error conflict => .error (.replay migration index conflict) connection
      | .ok schema => applyFrom A migration (index + 1) rest schema connection

/-- Part of a migration that concerns the transaction. -/
def transact (A : Adapter γ) (work : Exchange γ Unit) (migration : String) (index : Nat) :
    EStateM Failure γ Unit := fun connection =>
  if A.transactional then
    match work connection with
    | .ok _ connection => .ok () connection
    | .error fault connection => .error (.adapter migration index false fault) connection
  else .ok () connection

/-- Executes a migration, and gives the schema after it. -/
def run (A : Adapter γ) (m : Migration) (schema : State) : EStateM Failure γ State := do
  A.transact A.begin m.name 0
  let after ← A.applyFrom m.name 0 m.changes schema
  A.transact A.commit m.name m.changes.length
  return after

end Adapter

/-! ### Scripts -/

/-- Work on a script as work on a connection that holds one. -/
def onScript (work : Ddl.Script → Except Ddl.Fault Ddl.Script) : Exchange Ddl.Script Unit := fun s =>
  match work s with
  | .ok s => .ok () s
  | .error fault => .error fault.report s

/-- The adapter that writes the statements of changes to a script. -/
def scriptAdapter : Adapter Ddl.Script where
  transactional := true
  begin := onScript Ddl.Script.begin
  commit := onScript Ddl.Script.commit
  rollback := onScript fun s => .ok s.rollback
  apply change schema := onScript fun s => s.issue change schema

end Schemata.Engine
