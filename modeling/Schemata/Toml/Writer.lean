import Schemata.Number.Shortest
import Schemata.Toml.Item
import Schemata.Toml.Quoted

/-! The text of a document.

Each item is one line, and a table's name has an empty line before it unless it comes first. A number
has a point in it, unless it is an integer. -/
namespace Schemata.Toml

/-! ### Values -/

def isBareKeyChar (c : Char) : Bool := c.isAlphanum || c == '_' || c == '-'

def keyText (key : String) : String :=
  if key != "" && key.toList.all isBareKeyChar then key
  else String.ofList ('"' :: escapeLine key.toList ++ ['"'])

/-- A number as it reads back: with a point, or the word for what is no finite number. -/
def floatText (x : Binary64) : String :=
  if x.isNaN then "nan" else if x.isWhole then x.display ++ ".0" else x.display

mutual

/-- The text of a value on one line. What the format has no values for is left out. -/
def valueText : Datum → String
  | .null | .moment => ""
  | .bool b => if b then "true" else "false"
  | .int n => toString n
  | .float x => floatText x
  | .text s => String.ofList (quoted s.toList)
  | .list items => "[" ++ ", ".intercalate (itemTexts items) ++ "]"
  | .record members => "\x7b " ++ ", ".intercalate (memberTexts members) ++ " \x7d"

def itemTexts : List Datum → List String
  | [] => []
  | d :: rest => valueText d :: itemTexts rest

def memberTexts : Members → List String
  | [] => []
  | (key, d) :: rest => (keyText key ++ " = " ++ valueText d) :: memberTexts rest

end

/-! ### Lines -/

def pathText (path : List String) : String := ".".intercalate (path.map keyText)

def Item.line : Item → String
  | .entry path value => pathText path ++ " = " ++ valueText value ++ "\n"
  | .table path => "[" ++ pathText path ++ "]\n"
  | .element path => "[[" ++ pathText path ++ "]]\n"

def Item.isHeader : Item → Bool
  | .entry _ _ => false
  | _ => true

/-- The line of an item behind others. -/
def Item.nextLine (i : Item) : String := if i.isHeader then "\n" ++ i.line else i.line

def writeItems : List Item → String
  | [] => ""
  | first :: rest => first.line ++ String.join (rest.map Item.nextLine)

/-- The text of the document with these members. -/
def write (members : Members) : String := writeItems (Item.ofMembers members)

end Schemata.Toml
