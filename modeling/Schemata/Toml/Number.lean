import Schemata.Calendar.Date
import Schemata.Datum
import Schemata.Text.Digits

/-! Values of a document that are neither strings nor made of other values.

Numbers may have underscores between their digits, integers may be given in base two, eight or sixteen,
and a number with a point or an exponent is taken to the nearest binary one. Of dates and times only the
form and the ranges are checked. -/
namespace Schemata.Toml
open Text

/-- A reader gives a value and the characters behind it. -/
abbrev Reader (α : Type) := List Char → Option (α × List Char)

/-! ### Digits -/

/-- Digits behind a first one, each with an underscore before it or none. -/
def moreDigits (isDigit : Char → Bool) : List Char → List Char × List Char
  | '_' :: c :: rest =>
    if isDigit c then
      let (digits, behind) := moreDigits isDigit rest
      (c :: digits, behind)
    else ([], '_' :: c :: rest)
  | c :: rest =>
    if isDigit c then
      let (digits, behind) := moreDigits isDigit rest
      (c :: digits, behind)
    else ([], c :: rest)
  | [] => ([], [])

def digits? (isDigit : Char → Bool) : Reader (List Char)
  | c :: rest =>
    if isDigit c then
      let (digits, behind) := moreDigits isDigit rest
      some (c :: digits, behind)
    else none
  | [] => none

/-- The value of digits in a base. -/
def valueIn (base : Nat) (digits : List Char) : Nat :=
  digits.foldl (fun n c => base * n + (hexValue? c).getD 0) 0

/-! ### Numbers -/

/-- Whether there is a minus, whether there is a sign at all, and what is behind it. -/
def sign : List Char → Bool × Bool × List Char
  | '-' :: rest => (true, true, rest)
  | '+' :: rest => (false, true, rest)
  | cs => (false, false, cs)

/-- An integer of 64 bits. -/
def wordInt? (n : Int) : Option Datum :=
  if -0x8000000000000000 ≤ n ∧ n < 0x8000000000000000 then some (.int n) else none

def based? (base : Nat) (isDigit : Char → Bool) : Reader Datum := fun cs => do
  let (digits, rest) ← digits? isDigit cs
  return (← wordInt? (valueIn base digits), rest)

/-- The digits before the point: a zero, or digits without a zero in front. -/
def wholeDigits? : Reader (List Char)
  | '0' :: rest => some (['0'], rest)
  | cs => digits? isDigit cs

/-- The exponent, if there is one. -/
def exponent? : Reader Int
  | c :: cs =>
    if c == 'e' || c == 'E' then
      let (negative, _, cs) := sign cs
      (digits? isDigit cs).map fun r => ((if negative then -1 else 1) * (digitsValue r.1 : Int), r.2)
    else some (0, c :: cs)
  | [] => some (0, [])

/-- The number nearest to a numeral; one that is too large above is refused. -/
def nearest? (negative : Bool) (digits : List Char) (exponent : Int) : Option Datum :=
  let x := Binary64.ofDecimal negative (digitsValue digits) exponent
  if x = Binary64.infinity false then none else some (.float x)

/-- What is behind the digits before the point: a fraction, an exponent, or nothing. -/
def decimal? (negative : Bool) (whole : List Char) : Reader Datum
  | '.' :: cs => do
    let (fraction, cs) ← digits? isDigit cs
    let (exponent, rest) ← exponent? cs
    return (← nearest? negative (whole ++ fraction) (exponent - fraction.length), rest)
  | cs =>
    if cs.head? = some 'e' ∨ cs.head? = some 'E' then do
      let (exponent, rest) ← exponent? cs
      return (← nearest? negative whole exponent, rest)
    else do
      let n : Int := digitsValue whole
      return (← wordInt? (if negative then -n else n), cs)

def number? : Reader Datum := fun cs =>
  let (negative, signed, unsigned) := sign cs
  match unsigned with
  | 'i' :: 'n' :: 'f' :: rest => some (.float (.infinity negative), rest)
  | 'n' :: 'a' :: 'n' :: rest => some (.float (.nan negative), rest)
  | '0' :: 'x' :: rest => if signed then none else based? 16 (fun c => (hexValue? c).isSome) rest
  | '0' :: 'o' :: rest => if signed then none else based? 8 (fun c => '0' ≤ c && c ≤ '7') rest
  | '0' :: 'b' :: rest => if signed then none else based? 2 (fun c => c == '0' || c == '1') rest
  | _ => (wholeDigits? unsigned).bind fun r => decimal? negative r.1 r.2

/-! ### Dates and times -/

/-- Two digits with a value in the range. -/
def pair? (low high : Nat) : Reader Nat
  | a :: b :: rest =>
    let n := digitsValue [a, b]
    if isDigit a && isDigit b && decide (low ≤ n) && decide (n ≤ high) then some (n, rest) else none
  | _ => none

def mark? (mark : Char) : Reader Unit
  | c :: rest => if c = mark then some ((), rest) else none
  | [] => none

def year? : Reader Int
  | a :: b :: c :: d :: rest =>
    if [a, b, c, d].all isDigit then some ((digitsValue [a, b, c, d] : Nat), rest) else none
  | _ => none

def date? : Reader Unit := fun cs => do
  let (year, cs) ← year? cs
  let (_, cs) ← mark? '-' cs
  let (month, cs) ← pair? 1 12 cs
  let (_, cs) ← mark? '-' cs
  let (_, cs) ← pair? 1 (Calendar.daysInMonth year month) cs
  return ((), cs)

/-- The fraction of a second, if there is one. -/
def fraction? : Reader Unit
  | '.' :: rest =>
    match rest.dropWhile isDigit with
    | behind => if behind.length < rest.length then some ((), behind) else none
  | cs => some ((), cs)

def time? : Reader Unit := fun cs => do
  let (_, cs) ← pair? 0 23 cs
  let (_, cs) ← mark? ':' cs
  let (_, cs) ← pair? 0 59 cs
  let (_, cs) ← mark? ':' cs
  let (_, cs) ← pair? 0 60 cs
  fraction? cs

/-- The offset from universal time, if there is one. -/
def offset? : Reader Unit
  | 'Z' :: rest | 'z' :: rest => some ((), rest)
  | '+' :: rest | '-' :: rest => do
    let (_, cs) ← pair? 0 23 rest
    let (_, cs) ← mark? ':' cs
    let (_, cs) ← pair? 0 59 cs
    return ((), cs)
  | cs => some ((), cs)

/-- A time of day behind a date, if there is one. -/
def timeBehind (cs : List Char) : List Char :=
  match cs with
  | 'T' :: rest | 't' :: rest | ' ' :: rest =>
    match (time? rest).bind fun r => offset? r.2 with
    | some (_, behind) => behind
    | none => cs
  | _ => cs

def moment? : Reader Datum := fun cs =>
  match date? cs with
  | some (_, rest) => some (.moment, timeBehind rest)
  | none => (time? cs).map fun r => (.moment, r.2)

/-! ### All of them -/

def atom? : Reader Datum
  | 't' :: 'r' :: 'u' :: 'e' :: rest => some (.bool true, rest)
  | 'f' :: 'a' :: 'l' :: 's' :: 'e' :: rest => some (.bool false, rest)
  | cs => moment? cs <|> number? cs

end Schemata.Toml
