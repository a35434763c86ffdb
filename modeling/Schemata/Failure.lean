import Schemata.Change.Apply
import Schemata.Diff.Between

/-! Why an operation on a history, a ledger or a schema failed.

A failure is a cause. Its kind gives the exit code of the program and the category, and its message the
words; words of the system or of a parser are no part of a failure, and `Failure.isAbridged` tells where
they would have followed. -/
namespace Schemata

/-! ### Failures of the database -/

inductive AdapterFaultKind
  | constraint
  | connectivity
  | timeout
  | unsupported
  | other
  deriving DecidableEq, Repr

def AdapterFaultKind.name : AdapterFaultKind → String
  | .constraint => "Constraint"
  | .connectivity => "Connectivity"
  | .timeout => "Timeout"
  | .unsupported => "Unsupported"
  | .other => "Other"

/-- What an adapter says when it cannot execute a change. -/
structure AdapterFault where
  kind : AdapterFaultKind
  text : String
  /-- Whether words of the system would have followed. -/
  abridged : Bool := false

def AdapterFault.message (f : AdapterFault) : String := f.kind.name ++ ": " ++ f.text

/-! ### Failures of all kinds -/

inductive Failure
  | io
  | unreadable
  | foreignEntry (path engine : String)
  | unreadableFile (path : String)
  | blankName
  | blankDatabase (migration : String)
  | malformedName (name : String)
  | duplicateName (engine name : String)
  | nameMismatch (path name : String)
  | databaseMismatch (path database engine : String)
  | alreadyWritten (path : String)
  | pathWithoutName
  | invalidModel (fault : ModelFault)
  | notFound (migration : String)
  | cycle (engine : String) (path : List String)
  | missingDependency (engine migration dependency : String)
  | multipleHeads (engine : String) (heads : List String)
  | ledgerMismatch (engine migration : String)
  | checksumMismatch (migration expected actual : String)
  | inconsistent (conflict : Conflict)
  | replay (migration : String) (index : Nat) (conflict : Conflict)
  | dangling (model field target : String)
  | noChanges
  | adapter (migration : String) (index : Nat) (partially : Bool) (fault : AdapterFault)
  | locked (engine path : String)
  /-- The lock is held, and whoever asks for it has to wait. -/
  | waiting (engine : String)
  | invalidEngine (name : String)
  /-- A sum is too large for its number. No caller is told: the program itself ends. -/
  | overflow

inductive FailureKind
  | io
  | serialization
  | invalidMigration
  | invalidModel
  | notFound
  | cycle
  | missingDependency
  | multipleHeads
  | ledgerMismatch
  | checksumMismatch
  | inconsistentState
  | replay
  | danglingForeignKey
  | noChanges
  | engine
  | lockFailed
  | other
  /-- The program itself ends, so that nobody asks for the category of this kind. -/
  | panic
  deriving DecidableEq, Repr

/-- The part of the work that a failure belongs to. -/
inductive FailureCategory
  | history
  | replay
  | diff
  | application
  | environment
  deriving DecidableEq, Repr

def FailureKind.name : FailureKind → String
  | .io => "Io"
  | .serialization => "Serialization"
  | .invalidMigration => "InvalidMigration"
  | .invalidModel => "InvalidModel"
  | .notFound => "NotFound"
  | .cycle => "Cycle"
  | .missingDependency => "MissingDependency"
  | .multipleHeads => "MultipleHeads"
  | .ledgerMismatch => "LedgerMismatch"
  | .checksumMismatch => "ChecksumMismatch"
  | .inconsistentState => "InconsistentState"
  | .replay => "Replay"
  | .danglingForeignKey => "DanglingForeignKey"
  | .noChanges => "NoChanges"
  | .engine => "Engine"
  | .lockFailed => "LockFailed"
  | .other => "Other"
  | .panic => "panic"

def FailureKind.category : FailureKind → FailureCategory
  | .cycle | .missingDependency | .multipleHeads | .ledgerMismatch | .checksumMismatch => .history
  | .inconsistentState | .replay => .replay
  | .danglingForeignKey | .invalidModel | .noChanges => .diff
  | .engine | .lockFailed => .application
  | .io | .serialization | .invalidMigration | .notFound | .other | .panic => .environment

def FailureCategory.name : FailureCategory → String
  | .history => "History"
  | .replay => "Replay"
  | .diff => "Diff"
  | .application => "Application"
  | .environment => "Environment"

/-- The exit code of the program. -/
def FailureKind.exitCode : FailureKind → Nat
  | .noChanges => 0
  | .other => 1
  | .cycle => 10
  | .missingDependency => 11
  | .multipleHeads => 12
  | .ledgerMismatch => 13
  | .checksumMismatch => 14
  | .inconsistentState => 20
  | .replay => 20
  | .danglingForeignKey => 30
  | .invalidModel => 31
  | .engine => 40
  | .lockFailed => 41
  | .invalidMigration => 50
  | .notFound => 51
  | .io => 60
  | .serialization => 61
  | .panic => 101

/-- Whether trying again later may succeed without any repair. -/
def FailureKind.isRecoverable : FailureKind → Bool
  | .lockFailed | .noChanges => true
  | _ => false

namespace Failure

def kind : Failure → FailureKind
  | .io => .io
  | .unreadable | .foreignEntry _ _ => .serialization
  | .unreadableFile _ | .blankName | .blankDatabase _ | .malformedName _ | .duplicateName _ _
  | .nameMismatch _ _ | .databaseMismatch _ _ _ | .alreadyWritten _ | .pathWithoutName =>
    .invalidMigration
  | .invalidModel _ => .invalidModel
  | .notFound _ => .notFound
  | .cycle _ _ => .cycle
  | .missingDependency _ _ _ => .missingDependency
  | .multipleHeads _ _ => .multipleHeads
  | .ledgerMismatch _ _ => .ledgerMismatch
  | .checksumMismatch _ _ _ => .checksumMismatch
  | .inconsistent _ => .inconsistentState
  | .replay _ _ _ => .replay
  | .dangling _ _ _ => .danglingForeignKey
  | .noChanges => .noChanges
  | .adapter _ _ _ _ => .engine
  | .locked _ _ | .waiting _ => .lockFailed
  | .invalidEngine _ => .other
  | .overflow => .panic

/-- What a reader of TOML says first when it fails. -/
def parseText : String := "Failed to parse TOML"

def message : Failure → String
  | .io => "I/O error"
  | .unreadable => "Serialization error: " ++ parseText
  | .foreignEntry path engine =>
    s!"Serialization error: ledger file {path} holds an entry for engine '{engine}'"
  | .unreadableFile path => s!"Invalid migration: {path}: " ++ parseText
  | .blankName => "Invalid migration: migration name is empty"
  | .blankDatabase migration =>
    s!"Invalid migration: migration '{migration}' does not name its database"
  | .malformedName name =>
    s!"Invalid migration: invalid migration name format: {name}. " ++
      "Expected: NNNN_YYYYMMDDHHMMSS_label"
  | .duplicateName engine name =>
    s!"Invalid migration: duplicate migration name '{name}' in engine '{engine}'"
  | .nameMismatch path name => s!"Invalid migration: {path} declares name '{name}'"
  | .databaseMismatch path database engine =>
    s!"Invalid migration: {path} declares database '{database}' but lives in the '{engine}' directory"
  | .alreadyWritten path =>
    s!"Invalid migration: {path} already exists; migrations are immutable once written"
  | .pathWithoutName => "Invalid migration: Invalid path"
  | .invalidModel fault => "Invalid model: " ++ fault.message
  | .notFound migration => s!"Migration '{migration}' not found"
  | .cycle engine path => s!"Dependency cycle in engine '{engine}': " ++ " -> ".intercalate path
  | .missingDependency engine migration dependency =>
    s!"Migration '{migration}' depends on unknown migration '{dependency}' (engine '{engine}')"
  | .multipleHeads engine heads =>
    s!"Multiple heads in engine '{engine}': " ++ ", ".intercalate heads ++
      ". Merge the conflicting migrations by hand"
  | .ledgerMismatch engine migration =>
    s!"Ledger for engine '{engine}' records '{migration}', which is not in the migration chain"
  | .checksumMismatch migration expected actual =>
    s!"Checksum mismatch for migration '{migration}': expected {expected}, got {actual}"
  | .inconsistent conflict => "Inconsistent state: " ++ conflict.message
  | .replay migration index conflict =>
    s!"Replay of migration '{migration}' failed at action #{index}: " ++ conflict.message
  | .dangling model field target =>
    s!"Foreign key '{model}.{field}' references model '{target}', which does not exist"
  | .noChanges => "No schema changes detected"
  | .adapter migration index partially fault =>
    s!"Engine error applying '{migration}' at action #{index}: " ++ fault.message ++
      if partially then
        ". The migration was partially applied and could not be rolled back; " ++
          "manual intervention is required before retrying"
      else ""
  | .locked engine path =>
    s!"Failed to acquire migration lock: engine '{engine}' is locked by another process " ++
      s!"(remove {path} if no migration is running)"
  | .waiting engine => s!"Failed to acquire migration lock: engine '{engine}' is locked"
  | .invalidEngine name =>
    s!"Migration error: invalid engine name '{name}': use letters, digits, '_' or '-'"
  | .overflow => "attempt to add with overflow"

/-- Whether words of the system or of a parser would follow the message. -/
def isAbridged : Failure → Bool
  | .io | .unreadable | .unreadableFile _ | .overflow => true
  | .adapter _ _ _ fault => fault.abridged
  | _ => false

def ofLive : LiveFault → Failure
  | .invalid fault => .invalidModel fault
  | .dangling model field target => .dangling model field target

end Failure

end Schemata
