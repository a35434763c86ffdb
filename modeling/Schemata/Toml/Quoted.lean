import Schemata.Text.Digits

/-! Strings between quotes: in one line or in a block of lines, with escapes or as they stand.

A string is written in the first of five forms that can hold it (`quoted`): in double quotes or in single
quotes, in three of either, and at last with escapes. Reading goes through the characters once
(`readQuoted?`), and keeps in a mode what the characters before mean for the next one. -/
namespace Schemata.Toml
open Text

/-! ### Writing -/

/-- The length of the longest run of `c`, `run` being the length of the one that is under way. -/
def longestRunFrom (c : Char) (run : Nat) : List Char → Nat
  | [] => run
  | d :: rest => if d = c then longestRunFrom c (run + 1) rest else max run (longestRunFrom c 0 rest)

def longestRun (c : Char) (cs : List Char) : Nat := longestRunFrom c 0 cs

/-- Control characters other than a tab and a line feed. -/
def isControl (c : Char) : Bool := (c.toNat < 0x20 && c != '\t' && c != '\n') || c.toNat == 0x7F

/-- The escape of a control character that has a letter of its own. -/
def escapeLetter? (c : Char) : Option Char :=
  if c.toNat = 8 then some 'b'
  else if c = '\t' then some 't'
  else if c.toNat = 12 then some 'f'
  else if c = '\r' then some 'r'
  else if c = '\\' then some '\\'
  else none

def escapeControl (c : Char) : List Char :=
  '\\' :: 'u' :: (hexDigits 4 c.toNat).map Char.toUpper

/-- A character, as it stands between double quotes, when it is neither a quote nor a line feed. -/
def escapeChar (c : Char) : List Char :=
  match escapeLetter? c with
  | some letter => ['\\', letter]
  | none => if isControl c then escapeControl c else [c]

/-- The characters between two double quotes on one line. -/
def escapeLine : List Char → List Char
  | [] => []
  | c :: rest =>
    (if c = '\n' then ['\\', 'n'] else if c = '"' then ['\\', '"'] else escapeChar c) ++
      escapeLine rest

/-- The characters between two marks of three double quotes; `run` quotes stand right before. -/
def escapeBlock (run : Nat) : List Char → List Char
  | [] => []
  | c :: rest =>
    if c = '"' then
      if run < 2 then '"' :: escapeBlock (run + 1) rest else '\\' :: '"' :: escapeBlock 0 rest
    else if c = '\n' then '\n' :: escapeBlock 0 rest
    else escapeChar c ++ escapeBlock 0 rest

/-- The mark three times on both sides, with a line feed in front that is no part of a text of lines. -/
def triple (mark : Char) (lines : Bool) (cs : List Char) : List Char :=
  List.replicate 3 mark ++ (if lines then ['\n'] else []) ++ cs ++ List.replicate 3 mark

/-- A string in the first form that can hold it. -/
def quoted (cs : List Char) : List Char :=
  let plain : Bool := !cs.any isControl
  let lines := cs.contains '\n'
  let doubles := longestRun '"' cs
  let singles := longestRun '\'' cs
  let backslash := cs.contains '\\'
  if plain && !backslash && !lines && doubles == 0 then '"' :: escapeLine cs ++ ['"']
  else if plain && !lines && singles == 0 then '\'' :: cs ++ ['\'']
  else if plain && !backslash && doubles ≤ 2 then triple '"' lines (escapeBlock 0 cs)
  else if plain && singles ≤ 2 then triple '\'' lines cs
  else if lines then triple '"' lines (escapeBlock 0 cs)
  else '"' :: escapeLine cs ++ ['"']

/-! ### Reading -/

/-- Characters that may stand in a comment or a string. -/
def isPlain (c : Char) : Bool := c == '\t' || (0x20 ≤ c.toNat && c.toNat != 0x7F)

def isSpace (c : Char) : Bool := c == ' ' || c == '\t'

/-- What a letter behind a backslash stands for. -/
def unescape? : Char → Option Char
  | 'b' => some '\x08'
  | 't' => some '\t'
  | 'n' => some '\n'
  | 'f' => some '\x0c'
  | 'r' => some '\r'
  | '"' => some '"'
  | '\\' => some '\\'
  | _ => none

/-- How many hexadecimal digits follow a letter behind a backslash. -/
def codeLength? : Char → Option Nat
  | 'u' => some 4
  | 'U' => some 8
  | _ => none

/-- The character with that code, which is not half of a pair. -/
def scalar? (code : Nat) : Option Char :=
  if code < 0xD800 ∨ (0xDFFF < code ∧ code < 0x110000) then some (Char.ofNat code) else none

/-- What the next character is part of. -/
inductive LineMode
  | plain
  | escape
  /-- The code of a character, with so many digits to come. -/
  | code (left value : Nat)

/-- The characters up to the closing mark, and those behind it. -/
def readLine? (mark : Char) (escapes : Bool) : LineMode → List Char → Option (List Char × List Char)
  | _, [] => none
  | .plain, c :: rest =>
    if c = mark then some ([], rest)
    else if escapes && c == '\\' then readLine? mark escapes .escape rest
    else if isPlain c then (readLine? mark escapes .plain rest).map fun r => (c :: r.1, r.2)
    else none
  | .escape, c :: rest =>
    match unescape? c with
    | some d => (readLine? mark escapes .plain rest).map fun r => (d :: r.1, r.2)
    | none => (codeLength? c).bind fun n => readLine? mark escapes (.code n 0) rest
  | .code left value, c :: rest =>
    (hexValue? c).bind fun digit =>
      if left ≤ 1 then (scalar? (16 * value + digit)).bind fun d =>
        (readLine? mark escapes .plain rest).map fun r => (d :: r.1, r.2)
      else readLine? mark escapes (.code (left - 1) (16 * value + digit)) rest

/-- What the next character of a block is part of. -/
inductive BlockMode
  /-- The text, with so many marks right before; in the margin, blanks are passed over. -/
  | text (margin : Bool) (marks : Nat)
  | escape
  | code (left value : Nat)
  /-- The rest of a line that ends in a backslash. -/
  | lineEnd

/-- The characters up to the closing marks, and those behind them. Two marks at most belong to the text
when more than three come at the end. -/
def readBlock? (mark : Char) (escapes : Bool) : BlockMode → List Char → Option (List Char × List Char)
  | .text _ marks, [] => if 3 ≤ marks then some (List.replicate (marks - 3) mark, []) else none
  | _, [] => none
  | .text margin marks, c :: rest =>
    if margin && (isSpace c || c == '\n') then readBlock? mark escapes (.text true 0) rest
    else if c = mark && decide (marks < 5) then readBlock? mark escapes (.text false (marks + 1)) rest
    else if 3 ≤ marks then some (List.replicate (marks - 3) mark, c :: rest)
    else
      let before := List.replicate marks mark
      if escapes && c == '\\' then
        (readBlock? mark escapes .escape rest).map fun r => (before ++ r.1, r.2)
      else if isPlain c || c == '\n' then
        (readBlock? mark escapes (.text false 0) rest).map fun r => (before ++ c :: r.1, r.2)
      else none
  | .escape, c :: rest =>
    if c = '\n' then readBlock? mark escapes (.text true 0) rest
    else if isSpace c then readBlock? mark escapes .lineEnd rest
    else
      match unescape? c with
      | some d => (readBlock? mark escapes (.text false 0) rest).map fun r => (d :: r.1, r.2)
      | none => (codeLength? c).bind fun n => readBlock? mark escapes (.code n 0) rest
  | .code left value, c :: rest =>
    (hexValue? c).bind fun digit =>
      if left ≤ 1 then (scalar? (16 * value + digit)).bind fun d =>
        (readBlock? mark escapes (.text false 0) rest).map fun r => (d :: r.1, r.2)
      else readBlock? mark escapes (.code (left - 1) (16 * value + digit)) rest
  | .lineEnd, c :: rest =>
    if c = '\n' then readBlock? mark escapes (.text true 0) rest
    else if isSpace c then readBlock? mark escapes .lineEnd rest
    else none

/-- A line feed right behind the opening marks is no part of the text. -/
def dropLineFeed : List Char → List Char
  | '\n' :: rest => rest
  | cs => cs

/-- A string in any of its forms, and the characters behind it. -/
def readQuoted? : List Char → Option (List Char × List Char)
  | '"' :: '"' :: '"' :: rest => readBlock? '"' true (.text false 0) (dropLineFeed rest)
  | '\'' :: '\'' :: '\'' :: rest => readBlock? '\'' false (.text false 0) (dropLineFeed rest)
  | '"' :: rest => readLine? '"' true .plain rest
  | '\'' :: rest => readLine? '\'' false .plain rest
  | _ => none

/-- A string on one line, and the characters behind it. -/
def readLineQuoted? : List Char → Option (List Char × List Char)
  | '"' :: rest => readLine? '"' true .plain rest
  | '\'' :: rest => readLine? '\'' false .plain rest
  | _ => none

end Schemata.Toml
