import Schemata.Toml.Assembly
import Schemata.Toml.Number
import Schemata.Toml.Quoted
import Schemata.Toml.Writer

/-! Reading the text of a document.

The text is read into items line by line, and the items are put together to a tree. Lists and inline
tables nest no deeper than `deepest`, and no path has more keys than that. -/
namespace Schemata.Toml

def deepest : Nat := 79

/-- The text with one kind of line end. -/
def unifyLineEnds : List Char → List Char
  | '\r' :: '\n' :: rest => '\n' :: unifyLineEnds rest
  | c :: rest => c :: unifyLineEnds rest
  | [] => []

def skipSpaces (cs : List Char) : List Char := cs.dropWhile isSpace

/-- The characters behind the end of a line, with a comment before it or none. -/
def endLine? (cs : List Char) : Option (List Char) :=
  let behind :=
    match skipSpaces cs with
    | '#' :: rest => rest.dropWhile isPlain
    | rest => rest
  match behind with
  | [] => some []
  | c :: rest => if c = '\n' then some rest else none

/-- The characters behind spaces, line ends and comments. -/
def skipFill? (inComment : Bool) : List Char → Option (List Char)
  | [] => some []
  | c :: rest =>
    if c = '\n' then skipFill? false rest
    else if inComment then if isPlain c then skipFill? true rest else none
    else if c = '#' then skipFill? true rest
    else if isSpace c then skipFill? false rest
    else some (c :: rest)

/-! ### Keys -/

def key? : Reader String := fun cs =>
  match cs.takeWhile isBareKeyChar with
  | [] => (readLineQuoted? cs).map fun r => (String.ofList r.1, r.2)
  | name => some (String.ofList name, cs.drop name.length)

/-- A path of `most` keys at most, with points between them. -/
def path? : (most : Nat) → Reader (List String)
  | 0, _ => none
  | most + 1, cs => do
    let (key, cs) ← key? (skipSpaces cs)
    match skipSpaces cs with
    | '.' :: rest => (path? most rest).map fun r => (key :: r.1, r.2)
    | rest => some ([key], rest)

/-! ### Values -/

/-- The items of a list up to its closing bracket. -/
def items? (read : Reader Datum) : (most : Nat) → Reader (List Datum)
  | 0, _ => none
  | most + 1, cs => do
    match ← skipFill? false cs with
    | ']' :: rest => some ([], rest)
    | cs =>
      let (d, cs) ← read cs
      match ← skipFill? false cs with
      | ',' :: rest => (items? read most rest).map fun r => (d :: r.1, r.2)
      | ']' :: rest => some ([d], rest)
      | _ => none

/-- A path, an equals sign and a value. -/
def entry? (read : Reader Datum) : Reader (List String × Datum) := fun cs => do
  match ← path? deepest cs with
  | (path, '=' :: rest) =>
    let (d, rest) ← read (skipSpaces rest)
    some ((path, d), rest)
  | _ => none

/-- The entries of an inline table up to its closing brace. -/
def entries? (read : Reader Datum) : (most : Nat) → Reader (List (List String × Datum))
  | 0, _ => none
  | most + 1, cs => do
    let (entry, cs) ← entry? read cs
    match skipSpaces cs with
    | ',' :: rest => (entries? read most rest).map fun r => (entry :: r.1, r.2)
    | '\x7d' :: rest => some ([entry], rest)
    | _ => none

def inlineTable? (read : Reader Datum) : Reader Datum := fun cs => do
  match skipSpaces cs with
  | '\x7d' :: rest => some (.record [], rest)
  | cs =>
    let (entries, rest) ← entries? read cs.length cs
    return (← assembleInline? entries, rest)

/-- A value with lists and inline tables in it, `depth` deep at most. -/
def value? : (depth : Nat) → Reader Datum := fun depth cs =>
  match cs, depth with
  | '"' :: _, _ | '\'' :: _, _ => (readQuoted? cs).map fun r => (.text (String.ofList r.1), r.2)
  | '[' :: rest, depth + 1 => (items? (value? depth) cs.length rest).map fun r => (.list r.1, r.2)
  | '\x7b' :: rest, depth + 1 => inlineTable? (value? depth) rest
  | _, _ => atom? cs

/-! ### Lines -/

/-- One line with an item on it. -/
def itemLine? : Reader Item
  | '[' :: '[' :: cs => do
    match ← path? deepest cs with
    | (path, ']' :: ']' :: rest) => return (.element path, ← endLine? rest)
    | _ => none
  | '[' :: cs => do
    match ← path? deepest cs with
    | (path, ']' :: rest) => return (.table path, ← endLine? rest)
    | _ => none
  | cs => do
    let ((path, d), rest) ← entry? (value? deepest) cs
    return (.entry path d, ← endLine? rest)

/-- The items on the lines of a text, `most` lines at most. -/
def lines? : (most : Nat) → List Char → Option (List Item)
  | 0, _ => none
  | most + 1, cs =>
    match skipSpaces cs with
    | [] => some []
    | c :: rest =>
      if c = '#' ∨ c = '\n' then (endLine? (c :: rest)).bind (lines? most)
      else do
        let (item, rest) ← itemLine? (c :: rest)
        return item :: (← lines? most rest)

/-- The text without the mark that some editors put in front. -/
def dropMark : List Char → List Char
  | '\uFEFF' :: rest => rest
  | cs => cs

/-- The document of a text. -/
def read? (text : String) : Option Datum := do
  let cs := unifyLineEnds (dropMark text.toList)
  return .record (← assemble? (← lines? (cs.length + 1) cs))

end Schemata.Toml
