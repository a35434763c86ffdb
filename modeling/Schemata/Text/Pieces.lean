/-! Texts cut at a separator, and the lines of a text. -/
namespace Schemata.Text

/-- The pieces between the separators; there is one more than there are separators. -/
def pieces (separator : Char) : List Char → List (List Char)
  | [] => [[]]
  | c :: rest =>
    if c = separator then [] :: pieces separator rest
    else
      match pieces separator rest with
      | [] => [[c]]
      | first :: more => (c :: first) :: more

theorem pieces_ne_nil (separator : Char) (cs : List Char) : pieces separator cs ≠ [] := by
  cases cs with
  | nil => simp [pieces]
  | cons c rest =>
    simp only [pieces]
    split
    · simp
    · split <;> simp

/-- The lines of a text whose lines end in a line feed, with or without a carriage return before it. -/
def lines (s : String) : List String :=
  let all := pieces '\n' s.toList
  let ended := all.dropLast.map fun l => if l.getLast? = some '\r' then l.dropLast else l
  let last := all.getLast?.toList.filter (!·.isEmpty)
  (ended ++ last).map String.ofList

end Schemata.Text
