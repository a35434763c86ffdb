/-! Text styles of a terminal.

A style is switched on before a text and off behind it; of nested styles the outer one stands outside. -/
namespace Schemata.Console

/-- The text with a style switched on before it and off behind it. -/
def styled (on off : Nat) (text : String) : String := s!"\x1b[{on}m{text}\x1b[{off}m"

def bold : String → String := styled 1 0
def dimmed : String → String := styled 2 0
def red : String → String := styled 31 39
def green : String → String := styled 32 39
def yellow : String → String := styled 33 39
def blue : String → String := styled 34 39
def cyan : String → String := styled 36 39
def white : String → String := styled 37 39
def brightWhite : String → String := styled 97 39

end Schemata.Console
