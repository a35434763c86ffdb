import Schemata.Text.Pieces

/-! Paths of files and directories.

A path is kept as it was written, since that is how it is shown. Names that are empty or a single point
do not lead anywhere; a path that starts with a slash starts at the root, and any other at the working
directory. -/
namespace Schemata.Store
open Text

abbrev Path := String

namespace Path

def isAbsolute (p : Path) : Bool := p.startsWith "/"

/-- The path `q` as seen from the directory `p`. -/
def join (p q : Path) : Path :=
  if isAbsolute q || p.isEmpty then q
  else if p.endsWith "/" then p ++ q
  else p ++ "/" ++ q

/-- What a path says to do next. -/
inductive Step
  | root
  | up
  | into (name : String)
  deriving DecidableEq, Repr

def stepOf? (piece : List Char) : Option Step :=
  match piece with
  | [] | ['.'] => none
  | ['.', '.'] => some .up
  | name => some (.into (String.ofList name))

def steps (p : Path) : List Step :=
  (if isAbsolute p then [.root] else []) ++ (pieces '/' p.toList).filterMap stepOf?

/-- Whether the path is written as that of a directory. -/
def isDirectoryForm (p : Path) : Bool :=
  match (pieces '/' p.toList).getLast? with
  | some [] | some ['.'] => true
  | _ => false

/-! ### Parts of a path -/

def fileName? (p : Path) : Option String :=
  match p.steps.getLast? with
  | some (.into name) => some name
  | _ => none

/-- The name before its last point, and what is behind it. A point in front of a name belongs to it. -/
def cutName (name : String) : String × Option String :=
  let behind := (name.toList.reverse.takeWhile (· ≠ '.')).reverse
  let before := name.toList.take (name.toList.length - behind.length)
  match before.dropLast with
  | [] => (name, none)
  | stem => (String.ofList stem, some (String.ofList behind))

def stem? (p : Path) : Option String := p.fileName?.map fun name => (cutName name).1

def extension? (p : Path) : Option String := p.fileName?.bind fun name => (cutName name).2

/-- The pieces without those at the end that lead nowhere. The first piece stays, when it is the root or
the working directory. -/
def dropIdle : List (List Char) → List (List Char)
  | [] => []
  | first :: rest =>
    let kept := (rest.reverse.dropWhile fun piece => (stepOf? piece).isNone).reverse
    first :: kept

/-- The directory that the path is in. -/
def parent (p : Path) : Path :=
  match dropIdle (pieces '/' p.toList) with
  | [] | [_] => ""
  | first :: rest =>
    match dropIdle (first :: rest.dropLast) with
    | [[]] => "/"
    | kept => String.ofList (['/'].intercalate kept)

end Path

end Schemata.Store
