import Schemata.Proofs.Toml.Quoted
import Schemata.Toml.Reader

/-! The lines of a document, one at a time: a text under a key, and the header of an element of a list. -/
namespace Schemata.Toml

/-! ### Keys -/

/-- A key that is written without quotes. -/
structure IsBare (name : String) : Prop where
  ne_empty : name.toList ≠ []
  all_bare : name.toList.all isBareKeyChar = true

namespace IsBare
variable {name : String}

theorem bare (h : IsBare name) : ∀ c ∈ name.toList, isBareKeyChar c = true :=
  List.all_eq_true.1 h.all_bare

theorem exists_cons (h : IsBare name) : ∃ c cs, name.toList = c :: cs ∧ isBareKeyChar c = true := by
  cases hl : name.toList with
  | nil => exact absurd hl h.ne_empty
  | cons c cs => exact ⟨c, cs, rfl, h.bare c (by simp [hl])⟩

theorem key?_eq (h : IsBare name) {rest : List Char} (hr : rest.takeWhile isBareKeyChar = []) :
    key? (name.toList ++ rest) = some (name, rest) := by
  obtain ⟨c, cs, hl, -⟩ := h.exists_cons
  have htake : (name.toList ++ rest).takeWhile isBareKeyChar = name.toList := by
    rw [List.takeWhile_append_of_pos h.bare, hr, List.append_nil]
  have hname : String.ofList (c :: cs) = name := by rw [← hl, String.ofList_toList]
  rw [hl] at htake ⊢
  simp only [key?, htake, hname, List.drop_left]

theorem skipSpaces_eq (h : IsBare name) (rest : List Char) :
    skipSpaces (name.toList ++ rest) = name.toList ++ rest := by
  obtain ⟨c, cs, hl, hc⟩ := h.exists_cons
  have hspace : isSpace c = false := by
    simp only [isSpace, Bool.or_eq_false_iff, beq_eq_false_iff_ne, ne_eq]
    exact ⟨fun he => absurd (he ▸ hc) (by decide), fun he => absurd (he ▸ hc) (by decide)⟩
  rw [hl, List.cons_append]
  simp [skipSpaces, hspace]

/-- A key with no point behind it is a path of its own. -/
theorem path?_eq (h : IsBare name) (most : Nat) {c : Char} {rest behind : List Char}
    (hr : rest.takeWhile isBareKeyChar = []) (hs : skipSpaces rest = c :: behind) (hc : c ≠ '.') :
    path? (most + 1) (name.toList ++ rest) = some ([name], c :: behind) := by
  simp only [path?, h.skipSpaces_eq, h.key?_eq hr, bind, Option.bind, hs]
  split
  · rename_i he; exact absurd (List.cons.inj he).1 hc
  · rfl

theorem keyText_eq (h : IsBare name) : keyText name = name := by
  have hne : name ≠ "" := fun he => h.ne_empty (by simp [he])
  simp [keyText, hne, h.all_bare]

end IsBare

/-! ### Values -/

theorem head_quoted (cs : List Char) : ∃ q tail, quoted cs = q :: tail ∧ (q = '"' ∨ q = '\'') := by
  unfold quoted
  simp only []
  repeat' split
  all_goals first
    | exact ⟨_, _, rfl, .inl rfl⟩
    | exact ⟨_, _, rfl, .inr rfl⟩

/-- A string is read as a value up to the end of its line. -/
theorem value?_quoted (depth : Nat) (cs rest : List Char) :
    value? depth (quoted cs ++ '\n' :: rest) = some (.text (String.ofList cs), '\n' :: rest) := by
  have hread := readQuoted?_quoted cs (show NoQuote ('\n' :: rest) from ⟨by simp, by simp⟩)
  obtain ⟨q, tail, hq, hcases⟩ := head_quoted cs
  rw [hq, List.cons_append] at hread ⊢
  rcases hcases with rfl | rfl
  · unfold value?
    simp only [hread, Option.map_some]
  · unfold value?
    simp only [hread, Option.map_some]

theorem skipSpaces_quoted (cs rest : List Char) :
    skipSpaces (' ' :: (quoted cs ++ rest)) = quoted cs ++ rest := by
  obtain ⟨q, tail, hq, hcases⟩ := head_quoted cs
  have hspace : isSpace q = false := by rcases hcases with rfl | rfl <;> decide
  have hblank : isSpace ' ' = true := by decide
  simp [skipSpaces, hq, hspace, hblank]

/-! ### Lines -/

/-- The line of a text under a bare key. -/
def textLine (name : String) (text : String) : List Char :=
  name.toList ++ ' ' :: '=' :: ' ' :: (quoted text.toList ++ ['\n'])

/-- The header of an element of a list under a bare key. -/
def elementLine (name : String) : List Char := '[' :: '[' :: (name.toList ++ [']', ']', '\n'])

variable {name : String}

theorem toList_line_entry (h : IsBare name) (text : String) :
    (Item.entry [name] (.text text)).line.toList = textLine name text := by
  simp [Item.line, pathText, h.keyText_eq, valueText, textLine]

theorem toList_line_element (h : IsBare name) :
    (Item.element [name]).line.toList = elementLine name := by
  simp [Item.line, pathText, h.keyText_eq, elementLine]

theorem endLine?_feed (rest : List Char) : endLine? ('\n' :: rest) = some rest := by
  have hs : isSpace '\n' = false := by decide
  simp [endLine?, skipSpaces, hs]

theorem entry?_textLine (h : IsBare name) (depth : Nat) (text : String) (rest : List Char) :
    entry? (value? depth) (textLine name text ++ rest) =
      some (([name], .text text), '\n' :: rest) := by
  have hpath : path? deepest (name.toList ++ (' ' :: '=' :: ' ' :: (quoted text.toList ++
      '\n' :: rest))) = some ([name], '=' :: ' ' :: (quoted text.toList ++ '\n' :: rest)) :=
    h.path?_eq 78 rfl rfl (by decide)
  simp only [textLine, List.append_assoc, List.cons_append, List.nil_append, entry?, hpath, bind,
    Option.bind, skipSpaces_quoted, value?_quoted, String.ofList_toList]

theorem itemLine?_textLine (h : IsBare name) (text : String) (rest : List Char) :
    itemLine? (textLine name text ++ rest) = some (.entry [name] (.text text), rest) := by
  have hentry := entry?_textLine h deepest text rest
  obtain ⟨c, cs, hl, hc⟩ := h.exists_cons
  have hbracket : c ≠ '[' := fun he => absurd (he ▸ hc) (by decide)
  have hhead : textLine name text ++ rest = c :: (cs ++ ' ' :: '=' :: ' ' ::
      (quoted text.toList ++ '\n' :: rest)) := by
    simp [textLine, hl]
  rw [hhead] at hentry ⊢
  unfold itemLine?
  split
  · rename_i he; exact absurd (List.cons.inj he).1 hbracket
  · rename_i he; exact absurd (List.cons.inj he).1 hbracket
  · simp only [hentry, bind, Option.bind, endLine?_feed]
    rfl

theorem itemLine?_elementLine (h : IsBare name) (rest : List Char) :
    itemLine? (elementLine name ++ rest) = some (.element [name], rest) := by
  have hpath : path? deepest (name.toList ++ (']' :: ']' :: '\n' :: rest)) =
      some ([name], ']' :: ']' :: '\n' :: rest) :=
    h.path?_eq 78 rfl rfl (by decide)
  simp only [elementLine, List.append_assoc, List.cons_append, List.nil_append, itemLine?, hpath,
    bind, Option.bind, endLine?_feed]
  rfl

/-! ### Several lines -/

/-- A line of an item begins with a character of its own. -/
theorem lines?_item {most : Nat} {item : Item} {c : Char} {cs rest : List Char}
    (hspace : isSpace c = false) (hc : ¬ (c = '#' ∨ c = '\n'))
    (h : itemLine? (c :: cs) = some (item, rest)) :
    lines? (most + 1) (c :: cs) = (lines? most rest).map (item :: ·) := by
  have hskip : skipSpaces (c :: cs) = c :: cs := by simp [skipSpaces, hspace]
  simp only [lines?, hskip, if_neg hc, h, bind, Option.bind]
  cases lines? most rest <;> rfl

theorem lines?_textLine (h : IsBare name) (most : Nat) (text : String) (rest : List Char) :
    lines? (most + 1) (textLine name text ++ rest) =
      (lines? most rest).map (.entry [name] (.text text) :: ·) := by
  have hitem := itemLine?_textLine h text rest
  obtain ⟨c, cs, hl, hc⟩ := h.exists_cons
  have hne (d : Char) (hd : isBareKeyChar d = false) : c ≠ d := fun he => by simp [he, hd] at hc
  have hspace : isSpace c = false := by simp [isSpace, hne ' ' (by decide), hne '\t' (by decide)]
  have hmark : ¬ (c = '#' ∨ c = '\n') := by simp [hne '#' (by decide), hne '\n' (by decide)]
  have hhead : textLine name text ++ rest = c :: (cs ++ ' ' :: '=' :: ' ' ::
      (quoted text.toList ++ '\n' :: rest)) := by
    simp [textLine, hl]
  rw [hhead] at hitem ⊢
  exact lines?_item hspace hmark hitem

theorem lines?_elementLine (h : IsBare name) (most : Nat) (rest : List Char) :
    lines? (most + 1) (elementLine name ++ rest) = (lines? most rest).map (.element [name] :: ·) :=
  lines?_item (by decide) (by decide) (itemLine?_elementLine h rest)

theorem lines?_feed (most : Nat) (rest : List Char) :
    lines? (most + 1) ('\n' :: rest) = lines? most rest := by
  have hskip : skipSpaces ('\n' :: rest) = '\n' :: rest := by
    simp [skipSpaces, (by decide : isSpace '\n' = false)]
  simp [lines?, hskip, endLine?_feed]

/-! ### Line ends -/

theorem Escaped.not_mem {c : Char} {piece : List Char} (h : Escaped c piece) : '\r' ∉ piece := by
  have hhex {d : Char} {v : Nat} (hd : Text.hexValue? d = some v) : '\r' ≠ d :=
    fun he => by subst he; simp [(by decide : Text.hexValue? '\r' = none)] at hd
  cases h with
  | plain hp hb =>
    have hc : '\r' ≠ c := fun he => by subst he; exact absurd hp (by decide)
    simpa using hc
  | letter l hl hs hn =>
    have hl : '\r' ≠ l := fun he => by subst he; simp [unescape?] at hl
    simpa using hl
  | code a b d e va vb vd ve ha hb hd he hv => simp [hhex ha, hhex hb, hhex hd, hhex he]

theorem not_mem_escapeLine (cs : List Char) : '\r' ∉ escapeLine cs := by
  induction cs with
  | nil => simp [escapeLine]
  | cons c cs ih =>
    rw [escapeLine, List.mem_append, not_or]
    refine ⟨?_, ih⟩
    by_cases hn : c = '\n'
    · simp [hn]
    · by_cases hq : c = '"'
      · simp [hq]
      · rw [if_neg hn, if_neg hq]
        exact (escaped_escapeChar hn).not_mem

theorem not_mem_escapeBlock (run : Nat) (cs : List Char) : '\r' ∉ escapeBlock run cs := by
  induction cs generalizing run with
  | nil => simp [escapeBlock]
  | cons c cs ih =>
    rw [escapeBlock]
    by_cases hq : c = '"'
    · rw [if_pos hq]
      split <;> simp [ih]
    · rw [if_neg hq]
      by_cases hn : c = '\n'
      · simp [hn, ih]
      · rw [if_neg hn, List.mem_append, not_or]
        exact ⟨(escaped_escapeChar hn).not_mem, ih 0⟩

theorem not_mem_triple {mark : Char} {lines : Bool} {cs : List Char} (hm : '\r' ≠ mark)
    (h : '\r' ∉ cs) : '\r' ∉ triple mark lines cs := by
  cases lines <;> simp [triple, hm, h]

/-- A carriage return is always written as an escape. -/
theorem not_mem_quoted (cs : List Char) : '\r' ∉ quoted cs := by
  have hplain (hc : (!cs.any isControl) = true) : '\r' ∉ cs := fun hmem => by
    simp only [Bool.not_eq_true', List.any_eq_false] at hc
    exact hc _ hmem (by decide)
  have hdouble : '\r' ∉ triple '"' (cs.contains '\n') (escapeBlock 0 cs) :=
    not_mem_triple (by decide) (not_mem_escapeBlock 0 cs)
  have hline : '\r' ∉ '"' :: escapeLine cs ++ ['"'] := by simp [not_mem_escapeLine]
  unfold quoted
  simp only []
  split
  · exact hline
  split
  · rename_i hc
    simp only [Bool.and_eq_true] at hc
    simp [hplain hc.1.1]
  split
  · exact hdouble
  split
  · rename_i hc
    simp only [Bool.and_eq_true] at hc
    exact not_mem_triple (by decide) (hplain hc.1)
  split
  · exact hdouble
  · exact hline

theorem not_mem_textLine (h : IsBare name) (text : String) : '\r' ∉ textLine name text := by
  have hname : '\r' ∉ name.toList := fun hmem => absurd (h.bare _ hmem) (by decide)
  simp [textLine, hname, not_mem_quoted]

theorem not_mem_elementLine (h : IsBare name) : '\r' ∉ elementLine name := by
  have hname : '\r' ∉ name.toList := fun hmem => absurd (h.bare _ hmem) (by decide)
  simp [elementLine, hname]

theorem unifyLineEnds_of_not_mem {cs : List Char} (h : '\r' ∉ cs) : unifyLineEnds cs = cs := by
  induction cs with
  | nil => rfl
  | cons c cs ih =>
    rw [List.mem_cons, not_or] at h
    rw [unifyLineEnds, ih h.2]
    intro rest he
    exact absurd he.symm h.1

end Schemata.Toml
