import Schemata.Failure
import Schemata.History.Migration

/-! Chains: the migrations of an engine in the order in which they were made.

A history is sound when its migrations form one chain, each built on the one before. `Chain.resolve` gives
that chain, the first migration first, or the first of these faults that it finds: a name that occurs
twice, a parent that is missing, a circle of parents, more than one migration that none is built on. -/
namespace Schemata.Chain

/-! ### Migrations by name -/

abbrev Migrations := Ascending Migration.name

/-- The migrations by name, if no name occurs twice. -/
def byName (engine : String) (migrations : List Migration) : Except Failure Migrations :=
  migrations.foldlM (fun known m =>
    if known.contains m.name then .error (.duplicateName engine m.name) else .ok (known.insert m))
    Ascending.empty

/-- The parent of the migration with that name. -/
def parentOf (known : Migrations) (name : String) : Option String :=
  (known.find? name).bind (·.parent)

/-- The parent of a migration, if it is missing. -/
def missingParent? (known : Migrations) (m : Migration) : Option String :=
  m.parent.filter fun parent => !known.contains parent

/-- The first migration by name whose parent is missing. -/
def firstMissing? (engine : String) (known : Migrations) : Option Failure :=
  known.toList.findSome? fun m =>
    (missingParent? known m).map fun parent => .missingDependency engine m.name parent

/-! ### Circles -/

/-- The names from `name` on, parent by parent, over `steps` migrations at most. -/
def lineage (known : Migrations) : (steps : Nat) → (name : String) → List String
  | 0, _ => []
  | steps + 1, name =>
    name :: match parentOf known name with
      | some parent => lineage known steps parent
      | none => []

/-- The way from the first name that comes again to where it comes again. -/
def firstLoop? : List String → Option (List String)
  | [] => none
  | name :: rest =>
    if rest.contains name then some (name :: rest.takeWhile (· ≠ name) ++ [name]) else firstLoop? rest

/-- The circle that the parents of a migration run into. -/
def loopFrom? (known : Migrations) (name : String) : Option (List String) :=
  firstLoop? (lineage known (known.size + 1) name)

def firstCycle? (engine : String) (known : Migrations) : Option Failure :=
  (known.toList.findSome? fun m => loopFrom? known m.name).map (.cycle engine)

/-! ### The chain -/

/-- The migrations that none is built on, by name. -/
def heads (known : Migrations) : List Migration :=
  known.toList.filter fun m => !known.toList.any (·.parent == some m.name)

/-- The migration `m` and those it is built on, the first one first, over `steps` migrations at most. -/
def ancestry (known : Migrations) : (steps : Nat) → (m : Migration) → List Migration
  | 0, _ => []
  | steps + 1, m =>
    (match m.parent.bind known.find? with
      | some parent => ancestry known steps parent
      | none => []) ++ [m]

/-- The chain of migrations of one engine with distinct names. -/
def ofKnown (engine : String) (known : Migrations) : Except Failure (List Migration) :=
  match firstMissing? engine known <|> firstCycle? engine known with
  | some failure => .error failure
  | none =>
    match heads known with
    | [] => .ok []
    | [head] => .ok (ancestry known known.size head)
    | several => .error (.multipleHeads engine (several.map (·.name)))

/-- The chain of an engine's migrations, whatever their order; those of other engines are passed over. -/
def resolve (engine : String) (migrations : List Migration) : Except Failure (List Migration) := do
  let known ← byName engine (migrations.filter (·.database == engine))
  ofKnown engine known

/-- The part of the chain behind the migration that was applied last. -/
def pending (engine : String) (chain : List Migration) (last : Option String) :
    Except Failure (List Migration) :=
  match last with
  | none => .ok chain
  | some name =>
    match chain.dropWhile (·.name ≠ name) with
    | [] => .error (.ledgerMismatch engine name)
    | _ :: rest => .ok rest

end Schemata.Chain
