import Schemata.Text.CaseTable

/-! Lowercase of a text, by the full mapping of Unicode.

Every character maps on its own, apart from two: a capital I with a dot becomes two characters, and a
capital sigma at the end of a word becomes a final one. A sigma ends a word when a cased character
stands before it and none after it, ignorable characters being passed over. -/
namespace Schemata.Text

/-- The lowercase of a single character. -/
def lowerChar (c : Char) : List Char :=
  if c.toNat < 128 then [c.toLower]
  else if c = 'İ' then ['i', '\u0307']
  else
    match lowercaseRuns.find? (·.covers c.toNat) with
    | some r => [Char.ofNat (c.toNat + r.offset).toNat]
    | none => [c]

/-- Whether the first character that is not ignorable is a cased one. -/
def meetsCased (cs : List Char) : Bool :=
  match cs.dropWhile isCaseIgnorable with
  | [] => false
  | c :: _ => isCased c

/-- Lowercase of what follows `before`, which is held in reverse. -/
def lowerFrom : List Char → List Char → List Char
  | _, [] => []
  | before, c :: rest =>
    let mapped :=
      if c = 'Σ' then (if meetsCased before && !meetsCased rest then ['ς'] else ['σ'])
      else lowerChar c
    mapped ++ lowerFrom (c :: before) rest

def lowercase (s : String) : String := String.ofList (lowerFrom [] s.toList)

end Schemata.Text
