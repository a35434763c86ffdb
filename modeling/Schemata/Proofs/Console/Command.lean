import Schemata.Proofs.Console.Entries
import Schemata.Proofs.Console.Output

/-! The command that migrates, from its beginning to its end.

Whatever comes of it, what it handed on and what the ledgers gained are told from the same runs of the engines
(`migrateProject_delivers`). -/
namespace Schemata.Console
open Store Disk Ledger Engine Emitter

/-- The end of the command, told from that of its session. -/
def closed : EStateM.Result Failure (Session Emitter) Unit → EStateM.Result CommandFault Screen Unit
  | .ok _ t => .ok () (closeSession t)
  | .error failure t => .error (.ofEngine failure) (closeSession t)

/-- The session in which engines begin that are migrated from a page. -/
def opening (output : Option Path) (w : World) (p : Page) : Session Emitter := ⟨w, { output, page := p }⟩

/-- What is printed before the first engine has its turn. -/
def openingPage (p : ProjectSettings) : Page :=
  [.title "Migrate", .pair "Migrations" p.migrationsDirectory, .pair "Ledger" p.ledgersDirectory, .blank]

/-- The session in which the engines are migrated. -/
def opened (p : ProjectSettings) (output : Option Path) (screen : Screen) : Session Emitter :=
  opening output screen.world (screen.page ++ openingPage p)

end Schemata.Console
