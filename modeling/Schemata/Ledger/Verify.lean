import Schemata.Document.Migration
import Schemata.Ledger.Entry

/-! Holding a ledger against the history.

The entries of an engine have to be those of the first migrations of its chain, in order, with the digests
that the migrations have now. -/
namespace Schemata.Ledger

/-- The first entry that breaks the rule decides. -/
def verifyEntries (engine : String) : List Migration → List Entry → Except Failure Unit
  | _, [] => .ok ()
  | [], e :: _ => .error (.ledgerMismatch engine e.migration)
  | m :: chain, e :: entries =>
    if m.name ≠ e.migration then .error (.ledgerMismatch engine e.migration)
    else if m.checksum ≠ e.checksum then
      .error (.checksumMismatch e.migration e.checksum m.checksum)
    else verifyEntries engine chain entries

/-- The migration that was applied last, if the ledger fits the chain. -/
def verify (engine : String) (chain : List Migration) (entries : List Entry) :
    Except Failure (Option String) := do
  verifyEntries engine chain entries
  return entries.getLast?.map (·.migration)

end Schemata.Ledger
