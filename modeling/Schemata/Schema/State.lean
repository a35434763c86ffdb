import Schemata.Schema.Model

/-! The schema of one engine: its models, ordered by name.

A state is what replaying a history gives, or what a list of live models implies. Both are compared by
`State.same`, which looks neither at the order of models nor at that of fields. -/
namespace Schemata

/-- Models under distinct names, in the order of the names. -/
abbrev State := Ascending Model.name

namespace State

def model? (s : State) (name : String) : Option Model := s.find? name

/-- The state that a list of models implies: of equal names the last model counts. -/
def ofModels (models : List Model) : State := .ofList models

def names (s : State) : List String := s.toList.map Model.name

def same (s t : State) : Bool :=
  s.toList.length == t.toList.length && (s.toList.zip t.toList).all fun p => p.1.same p.2

end State

end Schemata
