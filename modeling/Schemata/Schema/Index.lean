import Schemata.Collection.Ascending
import Schemata.Text.Lowercase

/-! Indexes over the fields of a model.

Indexes are ordered by their fields, name by name, a plain index before a unique one. Their names in
the database follow from the model and the fields alone (`Index.nameFor`), and so are never stored. -/
namespace Schemata

/-- An index over one or more fields, in index order. -/
structure Index where
  fields : List String
  unique : Bool
  deriving DecidableEq, Repr

namespace Index

instance : Ord Index where
  compare := compareLex (compareOn Index.fields) (compareOn Index.unique)

instance : Std.TransOrd Index :=
  inferInstanceAs (Std.TransCmp (compareLex (compareOn Index.fields) (compareOn Index.unique)))

instance : Std.LawfulEqOrd Index where
  eq_of_compare {a b} h := by
    obtain ⟨f, u⟩ := a
    obtain ⟨g, v⟩ := b
    have h' : (compare f g).then (compare u v) = .eq := h
    rw [Ordering.then_eq_eq] at h'
    rw [Std.LawfulEqCmp.compare_eq_iff_eq.1 h'.1, Std.LawfulEqCmp.compare_eq_iff_eq.1 h'.2]

/-- The name of the index in the database. -/
def nameFor (i : Index) (model : String) : String :=
  Text.lowercase model ++ "_" ++ "_".intercalate i.fields ++ if i.unique then "_key" else "_idx"

def references (i : Index) (field : String) : Bool := i.fields.contains field

/-- The index after the field `source` was renamed to `target`. -/
def renameField (i : Index) (source target : String) : Index :=
  { i with fields := i.fields.map fun f => if f = source then target else f }

/-- The fields as a reader sees them. -/
def fieldList (i : Index) : String := ", ".intercalate i.fields

end Index

/-- A set of indexes, in index order. -/
abbrev Indexes := Ascending (id : Index → Index)

end Schemata
