import Schemata.Change.Basic
import Schemata.Console.Style
import Schemata.Text.Pieces

/-! What a command prints: a page of elements, each of one line or a few. -/
namespace Schemata.Console

inductive Element
  | blank
  | title (text : String)
  | heading (text : String)
  | pair (key value : String)
  | success (text : String)
  | info (text : String)
  | warning (text : String)
  | error (text : String)
  /-- What to do about an error. -/
  | hint (text : String)
  | item (text : String)
  /-- A change, with its position in a list where it matters. -/
  | change (position : Option Nat) (change : Change)
  | faint (text : String)
  /-- Lines of a script. -/
  | code (text : String)
  | plain (text : String)

namespace Element

/-- A change in words, those that drop data in red. -/
def changeText (c : Change) : String :=
  if c.isDestructive then red c.describe else c.describe

def lines : Element → List String
  | .blank => [""]
  | .title text =>
    ["", cyan (bold text), dimmed (String.ofList (List.replicate text.length '─')), ""]
  | .heading text => [white (bold text)]
  | .pair key value => [s!"  {dimmed key}: {value}"]
  | .success text => [bold (green "✔") ++ " " ++ green text]
  | .info text => [bold (blue "ℹ") ++ " " ++ text]
  | .warning text => [bold (yellow "⚠") ++ " " ++ yellow text]
  | .error text => [bold (red "✖") ++ " " ++ red text]
  | .hint text => ["  " ++ cyan "help:" ++ " " ++ text]
  | .item text => ["  " ++ dimmed "•" ++ " " ++ text]
  | .change none c => ["  " ++ dimmed "•" ++ " " ++ changeText c]
  | .change (some n) c => [s!"  {dimmed (toString n)}. {changeText c}"]
  | .faint text => [dimmed text]
  | .code text => "" :: (Text.lines text).map (fun l => "  " ++ brightWhite l) ++ [""]
  | .plain text => [text]

def text (e : Element) : String := String.join (e.lines.map (· ++ "\n"))

end Element

/-- The elements, the first one on top. -/
abbrev Page := List Element

def Page.text (p : Page) : String := String.join (p.map Element.text)

end Schemata.Console
