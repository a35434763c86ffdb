import Schemata.Change.Basic

/-! Labels: the part of a migration's name that tells what it does.

A label is made of lowercase letters, digits and single underscores between them, at most
`longestLabel` in all. -/
namespace Schemata.Label

def longestLabel : Nat := 48

/-- The label of an engine's first migration. -/
def initial : String := "initial"

/-- The label where there is nothing to say. -/
def auto : String := "auto"

/-- Words of letters and digits in lowercase, one underscore for what stands between them. Whether a
word stands right before is told by `inWord`: only then an underscore follows. -/
def joinWords (inWord : Bool) : List Char → List Char
  | [] => []
  | c :: rest =>
    if c.isAlphanum then c.toLower :: joinWords true rest
    else if inWord then '_' :: joinWords false rest
    else joinWords false rest

def dropTrailing (cs : List Char) : List Char :=
  (cs.reverse.dropWhile (· == '_')).reverse

def cleanChars (cs : List Char) : List Char :=
  dropTrailing ((joinWords false cs).take longestLabel)

/-- The label that a text makes, which may be empty. -/
def clean (text : String) : String := String.ofList (cleanChars text.toList)

/-- The label that a text makes, or `auto`. -/
def ofText (text : String) : String :=
  let label := clean text
  if label.isEmpty then auto else label

/-- What a single change would be called. -/
def wording : Change → String
  | .createModel name _ => s!"create_{name}"
  | .deleteModel name => s!"delete_{name}"
  | .addField model field => s!"{model}_{field.name}"
  | .removeField model field => s!"remove_{model}_{field.name}"
  | .changeField model field _ _ => s!"alter_{model}_{field}"
  | .renameField model source target => s!"rename_{model}_{source}_{target}"
  | .addIndex model index => s!"{model}_" ++ "_".intercalate index.fields ++ "_idx"
  | .removeIndex model index => s!"remove_{model}_" ++ "_".intercalate index.fields ++ "_idx"
  | .runData name _ => name

/-- A label for changes that nobody named. -/
def suggest (changes : List Change) (first : Bool) : String :=
  if first then initial
  else
    match changes with
    | [change] => ofText (wording change)
    | _ => auto

end Schemata.Label
