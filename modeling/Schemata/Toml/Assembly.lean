import Schemata.Toml.Item

/-! The tree that the items of a document make.

A table comes to be by its own line, as a part of the path to another, or by a path of keys within a
table. It may be named by a line once, and not after keys made it; keys do not reach into a table that
has a line of its own. A value that is written out is complete, and nothing is added to it. -/
namespace Schemata.Toml

/-- How a table came to be. -/
inductive Origin
  | header
  /-- As a part of the path of a header. -/
  | implied
  /-- As a part of the path of a key. -/
  | dotted
  deriving DecidableEq

mutual

/-- What a key stands for while the document is put together. -/
inductive Node
  | value (d : Datum)
  | table (t : Table)
  | elements (first : List Table) (last : Table)

inductive Table
  | mk (origin : Origin) (members : List (String × Node))

end

namespace Table

def origin : Table → Origin
  | .mk o _ => o

def members : Table → List (String × Node)
  | .mk _ ms => ms

def empty (origin : Origin) : Table := .mk origin []

def get? (t : Table) (key : String) : Option Node := Keyed.find key t.members

def put (t : Table) (key : String) (n : Node) : Table := .mk t.origin (Keyed.place key n t.members)

/-- The table with `f` applied to the one at the path; of a list of tables, the last one is on the path.
What is missing on the way is made as of `missing`, and a path of keys avoids tables with a header. -/
def update (missing : Origin) (f : Table → Option Table) : (path : List String) → Table → Option Table
  | [], t => f t
  | key :: path, t =>
    match t.get? key with
    | none => (update missing f path (.empty missing)).map fun u => t.put key (.table u)
    | some (.value _) => none
    | some (.table u) =>
      if missing = .dotted ∧ u.origin = .header then none
      else (update missing f path u).map fun u => t.put key (.table u)
    | some (.elements first last) =>
      (update missing f path last).map fun u => t.put key (.elements first u)

/-- The table with a value for a new key. -/
def addValue (path : List String) (key : String) (d : Datum) (t : Table) : Option Table :=
  t.update .dotted (fun u =>
    if (u.origin == .dotted) == path.isEmpty then none
    else if (u.get? key).isSome then none
    else some (u.put key (.value d))) path

/-- The table with a header for `key`. -/
def addHeader (key : String) (t : Table) : Option Table :=
  match t.get? key with
  | none => some (t.put key (.table (.empty .header)))
  | some (.table (.mk .implied ms)) => some (t.put key (.table (.mk .header ms)))
  | some _ => none

/-- The table with a new element in the list for `key`. -/
def addElement (key : String) (t : Table) : Option Table :=
  match t.get? key with
  | none => some (t.put key (.elements [] (.empty .header)))
  | some (.elements first last) => some (t.put key (.elements (first ++ [last]) (.empty .header)))
  | some _ => none

end Table

/-! ### Items in a row -/

/-- The document so far, and the path of the current table. -/
structure Assembly where
  root : Table
  current : List String

namespace Assembly

def empty : Assembly := ⟨.empty .header, []⟩

def add (a : Assembly) : Item → Option Assembly
  | .entry path d =>
    match path.getLast? with
    | none => none
    | some key =>
      (a.root.update .implied (Table.addValue path.dropLast key d) a.current).map (⟨·, a.current⟩)
  | .table path =>
    match path.getLast? with
    | none => none
    | some key => (a.root.update .implied (Table.addHeader key) path.dropLast).map (⟨·, path⟩)
  | .element path =>
    match path.getLast? with
    | none => none
    | some key => (a.root.update .implied (Table.addElement key) path.dropLast).map (⟨·, path⟩)

end Assembly

/-! ### The finished tree -/

mutual

def Node.toDatum : Node → Datum
  | .value d => d
  | .table t => .record t.toMembers
  | .elements first last => .list (Table.listToDatum first ++ [.record last.toMembers])

def Table.toMembers : Table → Members
  | .mk _ ms => Table.membersToDatum ms

def Table.membersToDatum : List (String × Node) → Members
  | [] => []
  | (key, n) :: rest => (key, n.toDatum) :: Table.membersToDatum rest

def Table.listToDatum : List Table → List Datum
  | [] => []
  | t :: rest => .record t.toMembers :: Table.listToDatum rest

end

/-- The members of the document that the items make, if they fit together. -/
def assemble? (items : List Item) : Option Members :=
  (items.foldlM Assembly.add Assembly.empty).map fun a => a.root.toMembers

/-- The record that keys and values within braces make. -/
def assembleInline? (entries : List (List String × Datum)) : Option Datum :=
  (assemble? (entries.map fun e => .entry e.1 e.2)).map .record

end Schemata.Toml
