import Schemata.Text.Digits

/-! Reports for other programs: texts, lists and records in JSON.

A list or a record has each of its parts on lines of its own, two blanks further to the right; an empty
one is on one line. -/
namespace Schemata.Console
open Text

inductive Json
  | null
  | text (value : String)
  | list (items : List Json)
  | record (members : List (String × Json))

namespace Json

/-! ### Strings -/

/-- The escape of a character that has a letter of its own. -/
def escapeLetter? (c : Char) : Option Char :=
  if c = '"' ∨ c = '\\' then some c
  else if c.toNat = 8 then some 'b'
  else if c.toNat = 12 then some 'f'
  else if c = '\n' then some 'n'
  else if c = '\r' then some 'r'
  else if c = '\t' then some 't'
  else none

def escape (c : Char) : List Char :=
  match escapeLetter? c with
  | some letter => ['\\', letter]
  | none => if c.toNat < 0x20 then '\\' :: 'u' :: hexDigits 4 c.toNat else [c]

def quoted (s : String) : String := String.ofList ('"' :: s.toList.flatMap escape ++ ['"'])

/-! ### Values -/

/-- The blanks in front of a line. -/
def margin (depth : Nat) : String := String.ofList (List.replicate (2 * depth) ' ')

/-- Parts between two marks, each on its own line. -/
def enclosed (opening closing : String) (depth : Nat) (parts : List String) : String :=
  if parts.isEmpty then opening ++ closing
  else
    opening ++ "\n" ++ ",\n".intercalate (parts.map (margin (depth + 1) ++ ·)) ++ "\n" ++
      margin depth ++ closing

mutual

/-- The value, with the blanks of `depth` before all lines but the first. -/
def write (depth : Nat) : Json → String
  | .null => "null"
  | .text value => quoted value
  | .list items => enclosed "[" "]" depth (writeItems (depth + 1) items)
  | .record members => enclosed "\x7b" "\x7d" depth (writeMembers (depth + 1) members)

def writeItems (depth : Nat) : List Json → List String
  | [] => []
  | j :: rest => write depth j :: writeItems depth rest

def writeMembers (depth : Nat) : List (String × Json) → List String
  | [] => []
  | (name, j) :: rest => (quoted name ++ ": " ++ write depth j) :: writeMembers depth rest

end

def pretty (j : Json) : String := j.write 0

def ofTexts (texts : List String) : Json := .list (texts.map .text)

end Json

end Schemata.Console
