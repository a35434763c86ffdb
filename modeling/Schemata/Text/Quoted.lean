/-! Quoted tokens of SQL: identifiers in double quotes, literals in single ones.

A quote inside a token is written twice; the first quote that stands alone ends the token. Reading a
token (`read?`) gives back what was quoted and leaves the text behind it (`read?_quoteWith`), so no name or
value can break out of its quotes. -/
namespace Schemata.Text

/-- The text with every `mark` doubled. -/
def doubled (mark : Char) : List Char → List Char
  | [] => []
  | c :: rest => if c = mark then mark :: mark :: doubled mark rest else c :: doubled mark rest

def quoteWith (mark : Char) (cs : List Char) : List Char :=
  mark :: doubled mark cs ++ [mark]

/-- Reads up to the first `mark` that is not doubled, and gives the rest behind it. -/
def readBody? (mark : Char) : List Char → Option (List Char × List Char)
  | [] => none
  | c :: rest =>
    if c = mark then
      match rest with
      | [] => some ([], [])
      | d :: rest' =>
        if d = mark then (readBody? mark rest').map fun r => (mark :: r.1, r.2)
        else some ([], d :: rest')
    else (readBody? mark rest).map fun r => (c :: r.1, r.2)

def read? (mark : Char) : List Char → Option (List Char × List Char)
  | [] => none
  | c :: rest => if c = mark then readBody? mark rest else none

theorem readBody?_doubled (mark : Char) (cs rest : List Char) (h : rest.head? ≠ some mark) :
    readBody? mark (doubled mark cs ++ mark :: rest) = some (cs, rest) := by
  induction cs with
  | nil =>
    cases rest with
    | nil => simp [doubled, readBody?]
    | cons d rest' =>
      have hd : ¬ d = mark := by simpa using h
      simp [doubled, readBody?, hd]
  | cons c cs ih =>
    by_cases hc : c = mark
    · subst hc
      simp [doubled, readBody?, ih]
    · rw [doubled, if_neg hc, List.cons_append, readBody?.eq_def]
      simp [hc, ih]

theorem read?_quoteWith (mark : Char) (cs rest : List Char) (h : rest.head? ≠ some mark) :
    read? mark (quoteWith mark cs ++ rest) = some (cs, rest) := by
  simpa [read?, quoteWith] using readBody?_doubled mark cs rest h

/-- An identifier: a table, a column, an index or a constraint. -/
def quote (name : String) : String := String.ofList (quoteWith '"' name.toList)

/-- A string literal. -/
def literal (value : String) : String := String.ofList (quoteWith '\'' value.toList)

end Schemata.Text
