import Schemata.Datum

/-! A document as a list of items: what the lines of its text say, before they are put together to a tree.

An item gives a value to a key of the current table, or makes another table current. A tree is laid out as
items (`Item.ofMembers`) with the plain values of a table before its parts, depth first; a table that
holds nothing but parts is not named on a line of its own. -/
namespace Schemata.Toml

inductive Item
  /-- A value for a key, given by its path from the current table. -/
  | entry (path : List String) (value : Datum)
  /-- The table at the path is the current one from here on. -/
  | table (path : List String)
  /-- A new table at the end of the list at the path is the current one from here on. -/
  | element (path : List String)
  deriving Inhabited

namespace Item

def isRecord : Datum → Bool
  | .record _ => true
  | _ => false

/-- Whether the value has lines of its own: a table, or a list of tables. -/
def isPart : Datum → Bool
  | .record _ => true
  | .list items => !items.isEmpty && items.all isRecord
  | _ => false

/-- The values that are written on the lines of their table. -/
def entries (members : Members) : List Item :=
  (members.filter fun m => !isPart m.2).map fun m => .entry [m.1] m.2

/-- Whether a table is named although it has no lines. -/
def isNamed (members : Members) : Bool :=
  members.isEmpty || members.any fun m => !isPart m.2

mutual

/-- The items of the parts among the members of the table at `path`. -/
def ofParts (path : List String) : Members → List Item
  | [] => []
  | (key, value) :: rest => ofPart (path ++ [key]) value ++ ofParts path rest

def ofPart (path : List String) : Datum → List Item
  | .record members =>
    (if isNamed members then [.table path] else []) ++ entries members ++ ofParts path members
  | .list items => if isPart (.list items) then ofElements path items else []
  | _ => []

def ofElements (path : List String) : List Datum → List Item
  | [] => []
  | d :: rest => ofElement path d ++ ofElements path rest

def ofElement (path : List String) : Datum → List Item
  | .record members => .element path :: (entries members ++ ofParts path members)
  | _ => []

end

/-- The items of the document with these members. -/
def ofMembers (members : Members) : List Item := entries members ++ ofParts [] members

end Item

end Schemata.Toml
