import Schemata.Text.Quoted

/-! Quoted tokens and the text behind them.

A token is read from a text exactly if the text begins with it and does not go on with its quote (`read?_eq_some_iff`):
what was quoted comes out as it was, whatever quotes are in it and wherever they stand, and nothing behind it is taken
along. A backslash is a character like any other. So no two names are quoted alike, and no two values (`quote_inj`,
`literal_inj`). -/
namespace Schemata.Text
variable {mark : Char} {cs body rest : List Char}

/-! ### Characters -/

/-- What is read up to the closing quote is what stands there with its quotes doubled. -/
theorem of_readBody? (h : readBody? mark cs = some (body, rest)) :
    cs = doubled mark body ++ mark :: rest ∧ rest.head? ≠ some mark := by
  fun_induction readBody? mark cs generalizing body with
  | case1 => cases h
  | case2 =>
    cases h
    exact ⟨rfl, nofun⟩
  | case3 tail ih =>
    obtain ⟨⟨inner, behind⟩, hinner, he⟩ := Option.map_eq_some_iff.1 h
    cases he
    obtain ⟨rfl, hbehind⟩ := ih hinner
    exact ⟨by rw [doubled, if_pos rfl]; rfl, hbehind⟩
  | case4 d tail hd =>
    cases h
    exact ⟨rfl, by simpa using hd⟩
  | case5 c tail hc ih =>
    obtain ⟨⟨inner, behind⟩, hinner, he⟩ := Option.map_eq_some_iff.1 h
    cases he
    obtain ⟨rfl, hbehind⟩ := ih hinner
    exact ⟨by rw [doubled, if_neg hc]; rfl, hbehind⟩

/-- **A token is read exactly where it was quoted**, and ends before whatever does not go on with a quote. -/
theorem read?_eq_some_iff :
    read? mark cs = some (body, rest) ↔ cs = quoteWith mark body ++ rest ∧ rest.head? ≠ some mark := by
  refine ⟨fun h => ?_, fun ⟨hcs, hrest⟩ => hcs ▸ read?_quoteWith mark body rest hrest⟩
  cases cs with
  | nil => cases h
  | cons c tail =>
    rw [read?] at h
    split at h
    · obtain ⟨rfl, hrest⟩ := of_readBody? h
      subst c
      exact ⟨by simp [quoteWith], hrest⟩
    · cases h

theorem length_lt_of_read? (h : read? mark cs = some (body, rest)) : rest.length < cs.length := by
  rw [(read?_eq_some_iff.1 h).1, List.length_append, quoteWith, List.length_append, List.length_cons]
  omega

theorem quoteWith_inj {other : List Char} : quoteWith mark body = quoteWith mark other ↔ body = other := by
  refine ⟨fun h => ?_, congrArg _⟩
  have hbody := read?_quoteWith mark body [] nofun
  rw [h, read?_quoteWith mark other [] nofun] at hbody
  cases hbody
  rfl

/-! ### Texts -/

variable {text name value other behind : String}

theorem read?_toList_iff : read? mark text.toList = some (name.toList, behind.toList) ↔
    text = String.ofList (quoteWith mark name.toList) ++ behind ∧ behind.toList.head? ≠ some mark := by
  rw [read?_eq_some_iff, ← String.toList_inj, String.toList_append, String.toList_ofList]

theorem ofList_quoteWith_inj :
    String.ofList (quoteWith mark name.toList) = String.ofList (quoteWith mark other.toList) ↔ name = other := by
  rw [String.ofList_inj, quoteWith_inj, String.toList_inj]

theorem read?_quote_iff : read? '"' text.toList = some (name.toList, behind.toList) ↔
    text = quote name ++ behind ∧ behind.toList.head? ≠ some '"' := read?_toList_iff

/-- Where a quote stands behind a name, the name goes on. -/
example : read? '"' (quote "a" ++ quote "b").toList = some ("a\"b".toList, []) := by decide +kernel

theorem read?_literal_iff : read? '\'' text.toList = some (value.toList, behind.toList) ↔
    text = literal value ++ behind ∧ behind.toList.head? ≠ some '\'' := read?_toList_iff

theorem quote_inj : quote name = quote other ↔ name = other := ofList_quoteWith_inj

theorem literal_inj : literal value = literal other ↔ value = other := ofList_quoteWith_inj

@[simp]
theorem toList_quote (name : String) : (quote name).toList = quoteWith '"' name.toList := String.toList_ofList

@[simp]
theorem toList_literal (value : String) : (literal value).toList = quoteWith '\'' value.toList := String.toList_ofList

/-- Names and values are told apart by the quotes around them. -/
theorem quote_ne_literal (name value : String) : quote name ≠ literal value := by
  intro h
  have hlist := congrArg String.toList h
  rw [toList_quote, toList_literal, quoteWith, quoteWith, List.cons_append, List.cons_append] at hlist
  exact absurd (List.cons.inj hlist).1 (by decide)

end Schemata.Text
