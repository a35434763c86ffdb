import Schemata.Console.Arguments
import Schemata.Console.Emitter
import Schemata.Console.Fault
import Schemata.Console.Json
import Schemata.Document.Model
import Schemata.Engine.Status
import Schemata.Schema.Normal

/-! Carrying out commands.

A command works on a world and prints a page. When it fails, what it printed before stays printed, and
what it did before stays done. -/
namespace Schemata.Console
open Store Engine

/-- A world, and what was printed so far. -/
structure Screen where
  world : World
  page : Page := []

abbrev Task (α : Type) := EStateM CommandFault Screen α

def print (elements : Page) : Task Unit := modify fun s => { s with page := s.page ++ elements }

/-- What a look at the world gives. -/
def look {α : Type} (f : World → Except CommandFault α) : Task α := fun s =>
  match f s.world with
  | .ok a => .ok a s
  | .error fault => .error fault s

/-- What the engine finds in the world. -/
def ask {α : Type} (f : World → Except Failure α) : Task α :=
  look fun w => (f w).mapError .ofEngine

/-! ### Files -/

/-- The settings in the file at the path; the usual ones when there is no file. -/
def ProjectSettings.load (d : Disk) (path : Path) : Except CommandFault ProjectSettings :=
  if d.exists? path = some true then
    match d.read? path with
    | none => .error .unreadSettings
    | some text =>
      match (Toml.read? text).bind (ofDatum? (Path.parent path)) with
      | some p => .ok p
      | none => .error .malformedSettings
  else .ok { root := Path.parent path }

/-- The normalized models that the text of the file at the path lists. -/
def readModels (path : Path) (text : String) : Except CommandFault (List Model) :=
  match (Toml.read? text).bind Model.listOfDatum? with
  | none => .error (.malformedModels path)
  | some models =>
    (models.mapM Model.normalize).mapError fun fault => .ofEngine (.invalidModel fault)

/-- The live models of an engine. -/
def loadModels (p : ProjectSettings) (engine : String) (w : World) :
    Except CommandFault (List Model) :=
  match p.modelsPath? engine with
  | none => .error (.noModels engine)
  | some path =>
    match w.disk.readText path with
    | .ok text => readModels path text
    | .error fault => .error (.unreadModels path fault)

def ProjectSettings.forEngine (p : ProjectSettings) : Settings where
  directory := p.migrationsDirectory
  ledger := .directory p.ledgersDirectory

/-! ### Making migrations -/

def planPage (engine : String) (p : Plan) : Page :=
  match p.migration with
  | none => []
  | some m =>
    let outcome : Element := match p.path with
      | some path => .success ("Created " ++ path)
      | none => .faint "[DRY RUN] Migration not written"
    .heading s!"{m.name} ({engine})" :: p.diff.changes.map (.change none) ++
      p.warnings.map .warning ++ [outcome, .blank]

/-- Writes the migration of one engine. That nothing changed is no reason to stop. -/
def makeOne (p : ProjectSettings) (s : Settings) (label : Option String) (engine : String) :
    Task Unit := do
  let models ← look (loadModels p engine)
  fun screen =>
    match make s engine models label screen.world with
    | .ok plan w => print (planPage engine plan) { screen with world := w }
    | .error .noChanges w =>
      print [.info s!"No changes detected for engine '{engine}'"] { screen with world := w }
    | .error failure w => .error (.ofEngine failure) { screen with world := w }

def makeMigrations (settings : Path) (engine label : Option String)
    (dryRun allowDestructive : Bool) : Task Unit := do
  print [.title "Make Migrations"]
  let p ← look fun w => ProjectSettings.load w.disk settings
  print [.pair "Migrations" p.migrationsDirectory, .blank]
  (p.selectEngines engine).forM (makeOne p { p.forEngine with dryRun, allowDestructive } label)

/-! ### Migrating -/

def reportPage (r : Report) : Page :=
  r.applied.map (fun name => .item (green "applied" ++ " " ++ name)) ++
    r.planned.map (fun name => .item (yellow "pending" ++ " " ++ name)) ++
    [.success r.summary, .blank]

/-- Migrates one engine. -/
def migrateOne (s : Settings) (engine : String) : EStateM Failure (Session Emitter) Unit := do
  onConnection (modify fun e => { e.print [.heading s!"Engine '{engine}'"] with engine })
  let report ← migrateIn s Emitter.adapter engine
  onConnection (modify (Emitter.print (reportPage report)))

/-- What is left of a session, and where its statements are. -/
def closeSession (t : Session Emitter) : Screen :=
  let written : Page := match t.connection.output with
    | some path => if t.connection.written.isSome then [.success ("SQL written to " ++ path)] else []
    | none => []
  ⟨t.world, t.connection.page ++ written⟩

def migrateEngines (s : Settings) (output : Option Path) (engines : List String) : Task Unit :=
  fun screen =>
    match engines.forM (migrateOne s) ⟨screen.world, { output, page := screen.page }⟩ with
    | .ok _ t => .ok () (closeSession t)
    | .error failure t => .error (.ofEngine failure) (closeSession t)

def migrateProject (settings : Path) (engine : Option String) (output : Option Path)
    (dryRun : Bool) : Task Unit := do
  print [.title "Migrate"]
  let p ← look fun w => ProjectSettings.load w.disk settings
  print [.pair "Migrations" p.migrationsDirectory, .pair "Ledger" p.ledgersDirectory, .blank]
  migrateEngines { p.forEngine with dryRun } output (p.selectEngines engine)

/-! ### Status -/

def statusJson (s : Status) : Json :=
  let entry (e : Ledger.Entry) : Json :=
    .record [("migration", .text e.migration), ("engine", .text e.engine),
      ("checksum", .text e.checksum), ("applied_at", .text e.appliedAt.rfc3339)]
  .record [("engine", .text s.engine), ("head", (s.head.map Json.text).getD .null),
    ("applied", .list (s.applied.map entry)), ("pending", .ofTexts s.pending)]

def statusPage (s : Status) : Page :=
  let applied (e : Ledger.Entry) : Element :=
    .item (green "✔" ++ s!" {e.migration} ({e.appliedAt.plain})")
  let outcome : Element :=
    if s.isUpToDate then .success "Up to date"
    else .info s!"{s.pending.length} pending migration(s); run `stratum migrate`"
  [.heading s!"Engine '{s.engine}'", .pair "Applied" (toString s.applied.length),
    .pair "Pending" (toString s.pending.length), .blank] ++ s.applied.map applied ++
    s.pending.map (fun name => .item (yellow "…" ++ " " ++ name)) ++ [outcome, .blank]

def showStatus (settings : Path) (engine : Option String) (json : Bool) : Task Unit := do
  let p ← look fun w => ProjectSettings.load w.disk settings
  let all ← ask fun w => (p.selectEngines engine).mapM (status p.forEngine w)
  if json then print [.plain (Json.list (all.map statusJson)).pretty]
  else print (.title "Migration Status" :: all.flatMap statusPage)

/-! ### Single migrations -/

def migrationPage (m : Migration) : Page :=
  [.title m.name, .pair "Engine" m.database, .pair "Depends on" (m.parent.getD "(root)"),
    .pair "Checksum" m.checksum, .blank] ++
  if m.changes.isEmpty then [.faint "No operations"]
  else .heading "Operations" :: m.changes.mapIdx fun i c => .change (some i) c

def showMigration (settings : Path) (name : String) (engine : Option String) : Task Unit := do
  let p ← look fun w => ProjectSettings.load w.disk settings
  let m ← ask fun w =>
    Directory.find w.disk p.migrationsDirectory (engine.getD p.defaultEngine) name
  print (migrationPage m)

/-! ### Checking -/

/-- The engines that have migrations or settings, by name. -/
def ProjectSettings.allEngines (p : ProjectSettings) (w : World) : Except Failure (List String) := do
  let found ← Directory.engines w.disk p.migrationsDirectory
  let named := p.engines.toList.map EngineSettings.name
  return inOrder id (found ++ named.filter (!found.contains ·))

def checkPage (checks : List Check) : Page :=
  checks.map (fun c => .item s!"{c.engine}: {c.migrations} migration(s), {c.models} model(s)") ++
    [.blank, .success "Migration history is consistent"]

def checkProject (settings : Path) (engine : Option String) : Task Unit := do
  print [.title "Check Migrations"]
  let p ← look fun w => ProjectSettings.load w.disk settings
  let engines ← match engine with
    | some name => pure [name]
    | none => ask p.allEngines
  if engines.isEmpty then print [.info "No engines with migrations"]
  else
    let checks ← ask fun w => checkAll p.forEngine w engines
    print (checkPage checks)

/-! ### All commands -/

/-- Carries out a command by the settings in the file at the path. -/
def Command.run (settings : Path) : Command → Task Unit
  | .make engine label dryRun allowDestructive =>
    makeMigrations settings engine label dryRun allowDestructive
  | .migrate engine output dryRun => migrateProject settings engine output dryRun
  | .status engine json => showStatus settings engine json
  | .show migration engine => showMigration settings migration engine
  | .check engine => checkProject settings engine

end Schemata.Console
