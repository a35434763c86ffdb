import Schemata.Ledger.Entry

/-! A ledger that lives as long as the program does. -/
namespace Schemata.Ledger

structure Memory where
  /-- The entries of all engines, in the order in which they were recorded. -/
  entries : List Entry := []
  /-- The engines whose lock is held. -/
  held : List String := []

namespace Memory

def applied (m : Memory) (engine : String) : List Entry := m.entries.filter (·.engine == engine)

def last? (m : Memory) (engine : String) : Option Entry := (m.applied engine).getLast?

def record (m : Memory) (e : Entry) : Memory := { m with entries := m.entries ++ [e] }

/-- Takes the lock of an engine; whoever asks while it is held has to wait. -/
def acquire (m : Memory) (engine : String) : Except Failure Memory :=
  if m.held.contains engine then .error (.waiting engine)
  else .ok { m with held := engine :: m.held }

def release (m : Memory) (engine : String) : Memory :=
  { m with held := m.held.filter (· ≠ engine) }

end Memory

end Schemata.Ledger
