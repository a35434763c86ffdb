import Schemata.Collection.Keyed
import Schemata.Store.Path

/-! Files and directories.

A disk is a table of what there is at each place; a place is the list of the names that lead there from
the working directory. Following a path (`Disk.look`) finds what is at its end, or tells whether something
could be put there. What an operation cannot do changes nothing. -/
namespace Schemata.Store

inductive Node
  | directory
  | text (content : String)
  /-- A file whose bytes are no text. -/
  | binary
  deriving DecidableEq

/-- The names that lead to a place from the working directory. -/
abbrev Place := List String

structure Disk where
  nodes : Keyed Place Node

inductive Lookup
  | found (place : Place) (node : Node)
  /-- Nothing is there, but its directory is. -/
  | free (place : Place)
  /-- A directory on the way is missing. -/
  | missing
  /-- The way leads through a file, or by a name that no file can have. -/
  | refused
  deriving DecidableEq

/-- Why a file cannot be read or written. -/
inductive AccessFault
  | refused
  | zeroByte
  | notText
  deriving DecidableEq

namespace AccessFault

/-- Why nothing can be opened at a path that leads to no file. -/
def ofPath (p : Path) : AccessFault := if p.toList.contains '\x00' then .zeroByte else .refused

/-- The reason in words, unless those are the words of the system. -/
def words? : AccessFault → Option String
  | .refused => none
  | .zeroByte => some "file name contained an unexpected NUL byte"
  | .notText => some "stream did not contain valid UTF-8"

/-- What could not be done, and the reason where there are words for it. -/
def explain (f : AccessFault) (what : String) : String :=
  match f.words? with
  | some words => what ++ ": " ++ words
  | none => what

end AccessFault

namespace Disk

def empty : Disk := ⟨.empty⟩

/-- Names have at most 255 bytes, none of them zero. -/
def isName (name : String) : Bool := name.utf8ByteSize ≤ 255 && !name.toList.contains '\x00'

/-- Whether the place is the working directory or one that it lies in. -/
def isOutside (place : Place) : Bool := place.all fun name => name == ".." || name == "/"

def node? (d : Disk) (place : Place) : Option Node :=
  if isOutside place then some .directory else d.nodes.get? place

/-- The directory that a directory lies in. -/
def above (place : Place) : Place :=
  match place.getLast? with
  | none | some ".." => place ++ [".."]
  | some "/" => place
  | some _ => place.dropLast

/-- Follows the steps from a directory. -/
def walk (d : Disk) (place : Place) : List Path.Step → Lookup
  | [] => .found place .directory
  | .root :: rest => walk d ["/"] rest
  | .up :: rest => walk d (above place) rest
  | .into name :: rest =>
    if !isName name then .refused
    else
      match d.node? (place ++ [name]) with
      | some .directory => walk d (place ++ [name]) rest
      | some node => if rest.isEmpty then .found (place ++ [name]) node else .refused
      | none => if rest.isEmpty then .free (place ++ [name]) else .missing

def look (d : Disk) (p : Path) : Lookup :=
  if p.isEmpty then .missing
  else
    match d.walk [] p.steps with
    | .found place .directory => .found place .directory
    | .found place node => if p.isDirectoryForm then .refused else .found place node
    | .free place => if p.isDirectoryForm then .missing else .free place
    | other => other

/-- Where a step leads from a place. -/
def stepFrom (place : Place) : Path.Step → Place
  | .root => ["/"]
  | .up => above place
  | .into name => place ++ [name]

/-- The places that a path leads through from a place, the one where it ends at last. -/
def placesFrom (place : Place) : List Path.Step → List Place
  | [] => []
  | step :: rest => stepFrom place step :: placesFrom (stepFrom place step) rest

/-- A path that leads to a place. -/
def pathTo (place : Place) : Path := place.foldl Path.join ""

/-! ### Reading -/

/-- Whether there is something at the path; none when that cannot be told. -/
def exists? (d : Disk) (p : Path) : Option Bool :=
  match d.look p with
  | .found _ _ => some true
  | .free _ | .missing => some false
  | .refused => none

/-- The text of the file at the path. -/
def read? (d : Disk) (p : Path) : Option String :=
  match d.look p with
  | .found _ (.text content) => some content
  | _ => none

/-- The text of the file at the path, or why there is none. -/
def readText (d : Disk) (p : Path) : Except AccessFault String :=
  match d.look p with
  | .found _ (.text content) => .ok content
  | .found _ .binary => .error .notText
  | _ => .error (.ofPath p)

/-- The name of an entry of the directory at `place`. -/
def entryName? (place : Place) (entry : Place) : Option String :=
  match entry.getLast? with
  | some name => if entry = place ++ [name] then some name else none
  | none => none

/-- What is in the directory at the path. -/
def list? (d : Disk) (p : Path) : Option (List (String × Node)) :=
  match d.look p with
  | .found place .directory =>
    some (d.nodes.entries.filterMap fun e => (entryName? place e.1).map fun name => (name, e.2))
  | _ => none

/-- The places of all files. -/
def files (d : Disk) : List Place :=
  (d.nodes.entries.filter fun e => e.2 ≠ .directory).map Prod.fst

/-! ### Writing -/

def put (d : Disk) (place : Place) (node : Node) : Disk := ⟨d.nodes.put place node⟩

def erase (d : Disk) (place : Place) : Disk := ⟨d.nodes.erase place⟩

/-- Puts a file at the path, in place of the one that is there. -/
def write? (d : Disk) (p : Path) (node : Node) : Option Disk :=
  match d.look p with
  | .found _ .directory => none
  | .found place _ => some (d.put place node)
  | .free place => some (d.put place node)
  | _ => none

/-- Removes the file at the path. -/
def remove? (d : Disk) (p : Path) : Option Disk :=
  match d.look p with
  | .found _ .directory => none
  | .found place _ => some (d.erase place)
  | _ => none

/-- Follows the steps from a directory, and makes the directories that are missing. -/
def walkMaking (d : Disk) (place : Place) : List Path.Step → Option Disk
  | [] => some d
  | .root :: rest => walkMaking d ["/"] rest
  | .up :: rest => walkMaking d (above place) rest
  | .into name :: rest =>
    if !isName name then none
    else
      match d.node? (place ++ [name]) with
      | some .directory => walkMaking d (place ++ [name]) rest
      | some _ => none
      | none => walkMaking (d.put (place ++ [name]) .directory) (place ++ [name]) rest

/-- Makes the directory at the path, and those that it lies in. -/
def makeDirectory? (d : Disk) (p : Path) : Option Disk := d.walkMaking [] p.steps

end Disk

end Schemata.Store
