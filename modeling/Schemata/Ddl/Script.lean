import Schemata.Ddl.Render

/-! A script of statements, with one level of transactions.

Statements issued in a transaction are held back until it is committed, and are then written between
`BEGIN` and `COMMIT`; a rollback drops them. A transaction without statements leaves no trace. -/
namespace Schemata.Ddl

structure Script where
  committed : List Statement := []
  /-- The statements of the open transaction, if there is one. -/
  pending : Option (List Statement) := none

namespace Script

def empty : Script := {}

def isEmpty (s : Script) : Bool := s.committed.isEmpty

def lines (s : Script) : List String := s.committed.map Statement.sql

/-- The committed statements, one after the other. -/
def sql (s : Script) : String :=
  if s.isEmpty then "" else "\n".intercalate s.lines ++ "\n"

def push (s : Script) (statements : List Statement) : Script :=
  match s.pending with
  | some held => { s with pending := some (held ++ statements) }
  | none => { s with committed := s.committed ++ statements }

/-- The script with the statements of a change, all of them or none. -/
def issue (s : Script) (change : Change) (schema : State) : Except Fault Script :=
  (render change schema).map s.push

def begin (s : Script) : Except Fault Script :=
  if s.pending.isSome then .error .transactionOpen else .ok { s with pending := some [] }

def commit (s : Script) : Except Fault Script :=
  match s.pending with
  | none => .error .noTransaction
  | some [] => .ok { s with pending := none }
  | some held => .ok { committed := s.committed ++ .begin :: held ++ [.commit], pending := none }

def rollback (s : Script) : Script := { s with pending := none }

/-- The committed statements, and the script without them. -/
def drain (s : Script) : List Statement × Script := (s.committed, { s with committed := [] })

end Script

end Schemata.Ddl
