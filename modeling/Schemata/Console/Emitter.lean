import Schemata.Console.Page
import Schemata.Engine.Migrate

/-! Where the statements of migrations go: to the page, or to a file.

Statements are handed on when their migration is committed, so what is handed on is what the ledger will
say was applied. The first ones of an engine follow a line with its name. A file is made when there is
something to put into it. -/
namespace Schemata.Console
open Store Engine

structure Emitter where
  /-- The file for the statements; without one they go to the page. -/
  output : Option Path
  /-- The engine that is migrated now. -/
  engine : String := ""
  script : Ddl.Script := .empty
  /-- What was written to the file so far; none before it was made. -/
  written : Option String := none
  /-- The engine whose name was written last. -/
  announced : Option String := none
  page : Page := []

namespace Emitter

def print (elements : Page) (e : Emitter) : Emitter := { e with page := e.page ++ elements }

/-- Statements as they are handed on. -/
def textOf (e : Emitter) (statements : List Ddl.Statement) : String :=
  let heading := if e.announced = some e.engine then "" else s!"-- engine: {e.engine}\n"
  heading ++ String.join (statements.map (·.sql ++ "\n"))

/-- Puts a text at the end of the file, in place of what was there before it was opened. What is written
to a file that was removed meanwhile is lost. -/
def append? (d : Disk) (isOpen : Bool) (path : Path) (text : String) : Option Disk :=
  if isOpen then
    match d.look path with
    | .found place (.text content) => some (d.put place (.text (content ++ text)))
    | _ => some d
  else d.write? path (.text text)

/-- Hands statements on. -/
def emit (text : String) : Exchange (Session Emitter) Unit := fun t =>
  match t.connection.output with
  | none => .ok () { t with connection := t.connection.print [.code text] }
  | some path =>
    match append? t.world.disk t.connection.written.isSome path text with
    | some d =>
      .ok () { t with world.disk := d, connection.written := some (t.connection.written.getD "" ++ text) }
    | none =>
      let fault := AccessFault.ofPath path
      .error ⟨.other, fault.explain "cannot emit SQL", fault.words?.isNone⟩ t

/-- Hands on what was committed, if anything was. -/
def flush : Exchange (Session Emitter) Unit := fun t =>
  let e := t.connection
  match e.script.drain with
  | ([], _) => .ok () t
  | (statements, script) =>
    emit (e.textOf statements)
      { t with connection := { e with script, announced := some e.engine } }

def onScript (work : Exchange Ddl.Script Unit) : Exchange (Session Emitter) Unit := fun t =>
  match work t.connection.script with
  | .ok _ script => .ok () { t with connection.script := script }
  | .error fault script => .error fault { t with connection.script := script }

/-- The adapter that writes a script, and hands on what is committed. -/
def adapter : Adapter (Session Emitter) where
  transactional := scriptAdapter.transactional
  begin := onScript scriptAdapter.begin
  commit := do
    onScript scriptAdapter.commit
    flush
  rollback := onScript scriptAdapter.rollback
  apply change schema := onScript (scriptAdapter.apply change schema)

end Emitter

end Schemata.Console
