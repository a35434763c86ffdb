import Schemata.Console.Run
import Schemata.Console.Usage
import Std.Time.DateTime.Timestamp

/-! The program.

What a command may look at is read first. The command is carried out on what was read, its page is
printed, and what it changed is written at last. -/
namespace Schemata.Console
open Store Engine

/-! ### Files -/

/-- What there is at a place. -/
def readPlace (place : Place) : IO (Option Node) := do
  let path := (← IO.currentDir) / Disk.pathTo place
  if ← path.isDir then return some .directory
  if !(← path.pathExists) then return none
  match String.fromUTF8? (← IO.FS.readBinFile path) with
  | some content => return some (.text content)
  | none => return some .binary

/-- Takes in what there is at a place, and in directories down to a depth. -/
def takeIn (place : Place) (depth : Nat) (d : Disk) : IO Disk := do
  match ← readPlace place, depth with
  | none, _ => return d
  | some .directory, inner + 1 =>
    let entries ← ((← IO.currentDir) / Disk.pathTo place).readDir
    entries.foldlM (fun d e => takeIn (place ++ [e.fileName]) inner d) (d.put place .directory)
  | some node, _ => return d.put place node

/-- Takes in what a path leads to, and the directories on the way. -/
def takeInPath (path : Path) (depth : Nat) (d : Disk) : IO Disk := do
  let places := Disk.placesFrom [] path.steps
  let d ← places.dropLast.foldlM (fun d place => takeIn place 0 d) d
  match places.getLast? with
  | some place => takeIn place depth d
  | none => return d

/-- Writes what changed from one disk to another. -/
def writeChanges (before after : Disk) : IO Unit := do
  for (place, node) in after.nodes.entries do
    if before.nodes.get? place ≠ some node then
      let path := (← IO.currentDir) / Disk.pathTo place
      match node with
      | .directory => IO.FS.createDirAll path
      | .text content => IO.FS.writeFile path content
      | .binary => pure ()
  for place in before.nodes.keys do
    if !after.nodes.contains place then
      IO.FS.removeFile ((← IO.currentDir) / Disk.pathTo place)

/-! ### Locks -/

/-- Makes a lock that nobody holds, and tells whether that was possible. -/
def takeLock (path : Path) : IO Bool := do
  match ← (IO.FS.Handle.mk ((← IO.currentDir) / path) .writeNew).toBaseIO with
  | .ok _ => return true
  | .error _ => return false

/-- The locks that a command needs. -/
def locksOf (p : ProjectSettings) : Command → List Path
  | .migrate engine _ _ =>
    (p.selectEngines engine).filterMap fun e => (Ledger.Files.lockPath p.ledgersDirectory e).toOption
  | _ => []

/-! ### Commands -/

/-- What a command may look at, and down to which depth. -/
def reach (p : ProjectSettings) (c : Command) : List (Path × Nat) :=
  let output := match c with
    | .migrate _ (some path) _ => [(path, 0)]
    | _ => []
  let models := p.engines.toList.filterMap fun e => (p.modelsPath? e.name).map (·, 0)
  (p.migrationsDirectory, 2) :: (p.ledgersDirectory, 1) :: models ++ output

/-- Carries out a command while the locks in `mine` are held for it. -/
def runLocked (settings : Path) (p : ProjectSettings) (c : Command) (mine : List Path) :
    IO UInt32 := do
  let known ← takeInPath settings 0 .empty
  let all ← (reach p c).foldlM (fun d r => takeInPath r.1 r.2 d) known
  let before := mine.foldl (fun d path => (d.remove? path).getD d) all
  let t ← Std.Time.Timestamp.now
  let now : Calendar.Instant := ⟨t.val.second.val, t.val.nano.val.toNat⟩
  let finish (s : Screen) : IO Unit := do
    IO.print s.page.text
    (← IO.getStdout).flush
    writeChanges before s.world.disk
  match c.run settings ⟨{ disk := before, now }, []⟩ with
  | .ok _ s =>
    finish s
    return 0
  | .error fault s =>
    finish s
    IO.println ""
    IO.eprint fault.page.text
    return fault.exitCode.toUInt32

def runCommand (settings : Path) (c : Command) : IO UInt32 := do
  let p := (ProjectSettings.load (← takeInPath settings 0 .empty) settings).toOption.getD {}
  let locks := locksOf p c
  if !locks.isEmpty then
    discard (IO.FS.createDirAll ((← IO.currentDir) / p.ledgersDirectory)).toBaseIO
  let mine ← locks.filterM takeLock
  try runLocked settings p c mine
  finally mine.forM fun path => do IO.FS.removeFile ((← IO.currentDir) / path)

end Schemata.Console

open Schemata Console in
def main (words : List String) : IO UInt32 := do
  match Invocation.parse words with
  | .ok invocation =>
    let usual := (← IO.getEnv "STRATUM_CONFIG").getD settingsFile
    runCommand (invocation.settings.getD usual) invocation.command
  | .error fault =>
    if fault.exitCode = 0 then IO.print fault.message else IO.eprint fault.message
    return fault.exitCode.toUInt32
