import Mathlib.Data.List.Basic
import Schemata.Ddl.Statement
import Schemata.Proofs.Text.Quoted

/-! Checks that a column holds one of some choices, read back from their text.

A check is read by a grammar of its own (`readCheck?`): a name in double quotes, and in brackets literals with a comma and
a blank between them. The grammar takes from a text exactly what is written as a check (`readCheck?_eq_some_iff`), so no
choice can end its literal, the list or the check early. Together with the tokens that a check is made of, this says that
nothing gets out of its quotes (`quoted_recovered`). -/
namespace Schemata.Ddl
open Text
variable {cs rest : List Char} {values : List String}

/-! ### Lists of literals -/

/-- The values of the literals up to a closing bracket, with a comma and a blank between two of them. -/
def readLiterals? (cs : List Char) : Option (List String × List Char) :=
  match _ : read? '\'' cs with
  | some (value, ')' :: rest) => some ([String.ofList value], rest)
  | some (value, ',' :: ' ' :: rest) =>
    (readLiterals? rest).map fun r => (String.ofList value :: r.1, r.2)
  | _ => none
termination_by cs.length
decreasing_by
  have hlt := length_lt_of_read? ‹_›
  simp only [List.length_cons] at hlt
  omega

/-- The values of a list up to its closing bracket, where there may be none. -/
def readList? : List Char → Option (List String × List Char)
  | ')' :: rest => some ([], rest)
  | cs => readLiterals? cs

theorem readLiterals?_last {value : List Char} (h : read? '\'' cs = some (value, ')' :: rest)) :
    readLiterals? cs = some ([String.ofList value], rest) := by
  -- The token cannot be rewritten in place, because the reader keeps how it was read for its own termination.
  rw [readLiterals?]
  split <;> simp_all

theorem readLiterals?_more {value : List Char} (h : read? '\'' cs = some (value, ',' :: ' ' :: rest)) :
    readLiterals? cs = (readLiterals? rest).map fun r => (String.ofList value :: r.1, r.2) := by
  rw [readLiterals?]
  split <;> simp_all

/-- The characters of a list of literals, with the bracket that closes it. -/
def listed (values : List String) : List Char := (", ".intercalate (values.map literal)).toList ++ [')']

theorem listed_single (value : String) : listed [value] = quoteWith '\'' value.toList ++ [')'] := by
  simp [listed]

theorem listed_cons (value : String) (h : values ≠ []) :
    listed (value :: values) = quoteWith '\'' value.toList ++ ',' :: ' ' :: listed values := by
  have hne : values.map literal ≠ [] := by simpa using h
  rw [listed, listed, List.map_cons, String.intercalate_cons_of_ne_nil hne]
  simp

theorem exists_listed (h : values ≠ []) : ∃ tail, listed values = '\'' :: tail := by
  obtain ⟨value, more, rfl⟩ := List.exists_cons_of_ne_nil h
  by_cases hmore : more = []
  · exact ⟨_, hmore ▸ listed_single value⟩
  · exact ⟨_, listed_cons value hmore⟩

theorem readLiterals?_listed (h : values ≠ []) : readLiterals? (listed values ++ rest) = some (values, rest) := by
  induction values with
  | nil => exact absurd rfl h
  | cons value more ih =>
    by_cases hmore : more = []
    · subst hmore
      have hread := read?_quoteWith '\'' value.toList (')' :: rest) (by simp)
      rw [listed_single, List.append_assoc, List.singleton_append, readLiterals?_last hread, String.ofList_toList]
    · have hread := read?_quoteWith '\'' value.toList (',' :: ' ' :: (listed more ++ rest)) (by simp)
      rw [listed_cons value hmore, List.append_assoc, List.cons_append, List.cons_append, readLiterals?_more hread,
        ih hmore, Option.map_some, String.ofList_toList]

theorem of_readLiterals? (h : readLiterals? cs = some (values, rest)) : values ≠ [] ∧ cs = listed values ++ rest := by
  fun_induction readLiterals? cs generalizing values with
  | case1 cs value tail hread =>
    cases h
    obtain ⟨rfl, -⟩ := read?_eq_some_iff.1 hread
    exact ⟨nofun, by simp [listed_single]⟩
  | case2 cs value tail hread ih =>
    obtain ⟨⟨more, behind⟩, hmore, he⟩ := Option.map_eq_some_iff.1 h
    cases he
    obtain ⟨hne, rfl⟩ := ih hmore
    obtain ⟨rfl, -⟩ := read?_eq_some_iff.1 hread
    exact ⟨nofun, by simp [listed_cons _ hne]⟩
  | case3 => cases h

theorem readList?_eq_some_iff : readList? cs = some (values, rest) ↔ cs = listed values ++ rest := by
  constructor
  · intro h
    unfold readList? at h
    split at h
    · cases h
      rfl
    · exact (of_readLiterals? h).2
  · rintro rfl
    by_cases hvalues : values = []
    · subst hvalues
      rfl
    · -- A list that is not empty begins with a quote, so it is not taken for an empty one.
      obtain ⟨tail, htail⟩ := exists_listed hvalues
      have hread : readLiterals? (listed values ++ rest) = some (values, rest) := readLiterals?_listed hvalues
      rw [htail] at hread ⊢
      exact hread

/-! ### Checks -/

/-- The column and the choices of a check, with the text behind it. -/
def readCheck? (cs : List Char) : Option ((String × List String) × List Char) := do
  let cs ← cs.dropPrefix? "CHECK (".toList
  let (column, cs) ← read? '"' cs
  let cs ← cs.dropPrefix? " IN (".toList
  let (choices, cs) ← readList? cs
  let cs ← cs.dropPrefix? ")".toList
  return ((String.ofList column, choices), cs)

variable {column text behind : String} {choices : List String}

theorem toList_checkSql (column : String) (choices : List String) : (checkSql column choices).toList =
    "CHECK (".toList ++ (quoteWith '"' column.toList ++ (" IN (".toList ++ (listed choices ++ ")".toList))) := by
  simp [checkSql, listed, toString]

theorem dropPrefix?_iff {front : List Char} : cs.dropPrefix? front = some rest ↔ cs = front ++ rest := by
  simp [List.dropPrefix?_eq_some_iff]

theorem readCheck?_eq_some_iff : readCheck? text.toList = some ((column, choices), behind.toList) ↔
    text = checkSql column choices ++ behind := by
  rw [← String.toList_inj, String.toList_append, toList_checkSql]
  simp only [readCheck?, bind, Option.bind_eq_some_iff, dropPrefix?_iff, Prod.exists, read?_eq_some_iff,
    readList?_eq_some_iff, List.append_assoc]
  constructor
  · rintro ⟨_, htext, name, _, ⟨rfl, -⟩, _, rfl, values, _, rfl, _, rfl, h⟩
    cases h
    have hname : (String.ofList name).toList = name := String.toList_ofList
    rw [hname]
    exact htext
  · intro htext
    exact ⟨_, htext, _, _, ⟨rfl, by simp⟩, _, rfl, _, _, rfl, _, rfl, by simp⟩

theorem checkSql_inj {other : String} {others : List String} :
    checkSql column choices = checkSql other others ↔ column = other ∧ choices = others := by
  refine ⟨fun h => ?_, fun ⟨hcolumn, hchoices⟩ => hcolumn ▸ hchoices ▸ rfl⟩
  have hread : readCheck? (checkSql column choices).toList = some ((column, choices), "".toList) :=
    readCheck?_eq_some_iff.2 String.append_empty.symm
  rw [h, readCheck?_eq_some_iff.2 String.append_empty.symm] at hread
  cases hread
  exact ⟨rfl, rfl⟩

/-- **What is quoted stays in its quotes.** A name is read from a text, and a value likewise, exactly if the text begins
with it in its quotes and does not go on with a quote; the column and the choices of a check are read exactly if the text
begins with that check. And different names, different values, as they are or as defaults, and different checks are never
written alike. -/
theorem quoted_recovered :
    (∀ name text behind : String, read? '"' text.toList = some (name.toList, behind.toList) ↔
      text = quote name ++ behind ∧ behind.toList.head? ≠ some '"') ∧
    (∀ value text behind : String, read? '\'' text.toList = some (value.toList, behind.toList) ↔
      text = literal value ++ behind ∧ behind.toList.head? ≠ some '\'') ∧
    (∀ column choices (text behind : String), readCheck? text.toList = some ((column, choices), behind.toList) ↔
      text = checkSql column choices ++ behind) ∧
    (∀ name other, quote name = quote other ↔ name = other) ∧
    (∀ value other, literal value = literal other ↔ value = other) ∧
    (∀ value other, defaultSql (.text value) = defaultSql (.text other) ↔ value = other) ∧
    (∀ name value, quote name ≠ literal value) ∧
    ∀ column choices other others,
      checkSql column choices = checkSql other others ↔ column = other ∧ choices = others :=
  ⟨fun _ _ _ => read?_quote_iff, fun _ _ _ => read?_literal_iff, fun _ _ _ _ => readCheck?_eq_some_iff,
    fun _ _ => quote_inj, fun _ _ => literal_inj, fun _ _ => literal_inj, quote_ne_literal,
    fun _ _ _ _ => checkSql_inj⟩

/-- Of three choices one is empty, and the others look like the ends of a literal and of the check. -/
example : checkSql "state" ["", "'", "'))"] = "CHECK (\"state\" IN ('', '''', '''))'))" := by decide

end Schemata.Ddl
