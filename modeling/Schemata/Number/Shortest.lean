import Schemata.Number.Binary64

/-! The shortest decimal numeral that reads back as a given binary number.

The numbers that round to a finite `x` form an interval around it, ends included exactly when the
significand is even. `shortest` looks for a decimal in that interval on grids that get ten times finer
from one to the next: the first grid that has one decides, of two on it the nearer, of two equally near
the larger. On each grid only the two neighbours of `x` can lie nearest, so no others are tried. -/
namespace Schemata.Binary64

/-- The numeral `digits * 10 ^ exponent`. -/
structure Numeral where
  digits : Nat
  exponent : Int
  deriving DecidableEq

/-- A number `value / scale` with the ends of the interval of what rounds to it, over the same scale. -/
structure Rounding where
  low : Nat
  value : Nat
  high : Nat
  scale : Nat
  inclusive : Bool

/-- The lower half of the interval is half as wide where the next number below has a finer spacing. -/
def rounding (x : Binary64) : Rounding :=
  let m := x.significand
  let e := x.exponent - 2
  let narrow : Bool := m == Nat.pow 2 52 && decide (e + 2 > -1074)
  let up := Nat.pow 2 e.toNat
  { low := (4 * m - if narrow then 1 else 2) * up
    value := 4 * m * up
    high := (4 * m + 2) * up
    scale := Nat.pow 2 (-e).toNat
    inclusive := m % 2 == 0 }

/-- Whether `point / scale` rounds to the number, `low` and `high` being scaled by `factor`. -/
def Rounding.covers (r : Rounding) (factor : Nat) (point : Nat) : Bool :=
  if r.inclusive then decide (r.low * factor ≤ point ∧ point ≤ r.high * factor)
  else decide (r.low * factor < point ∧ point < r.high * factor)

/-- The neighbour of the number on the grid `10 ^ k` that rounds to it, if there is one. -/
def Rounding.onGrid? (r : Rounding) (k : Int) : Option Numeral :=
  let finer := Nat.pow 10 (-k).toNat
  let unit := r.scale * Nat.pow 10 k.toNat
  let value := r.value * finer
  let below := value / unit
  let hitBelow := r.covers finer (below * unit) && below != 0
  let hitAbove := r.covers finer ((below + 1) * unit)
  if hitBelow && hitAbove then
    if value - below * unit < (below + 1) * unit - value then some ⟨below, k⟩ else some ⟨below + 1, k⟩
  else if hitBelow then some ⟨below, k⟩
  else if hitAbove then some ⟨below + 1, k⟩
  else none

/-- The first hit on the grids `10 ^ k`, `10 ^ (k - 1)`, … -/
def Rounding.search (r : Rounding) : Nat → Int → Numeral
  | 0, k => ⟨r.value * Nat.pow 10 (-k).toNat / (r.scale * Nat.pow 10 k.toNat), k⟩
  | tries + 1, k =>
    match r.onGrid? k with
    | some n => n
    | none => r.search tries (k - 1)

/-- An exponent of ten at least that of the leading digit: three tenths of the binary one, rounded up. -/
def Rounding.coarsest (r : Rounding) : Int :=
  let l : Int := (Nat.log2 r.value : Int) - Nat.log2 r.scale + 1
  (l * 30103) / 100000 + 1

/-- The shortest numeral of a finite number other than zero: seventeen digits are always enough. -/
def shortest (x : Binary64) : Numeral :=
  let r := x.rounding
  r.search 20 r.coarsest

/-- A numeral in positional notation, without an exponent. -/
def Numeral.positional (n : Numeral) : String :=
  let ds := (toString n.digits).toList
  let places := (-n.exponent).toNat
  if 0 ≤ n.exponent then String.ofList (ds ++ List.replicate n.exponent.toNat '0')
  else if places < ds.length then
    String.ofList (ds.take (ds.length - places) ++ '.' :: ds.drop (ds.length - places))
  else String.ofList ('0' :: '.' :: List.replicate (places - ds.length) '0' ++ ds)

/-- Whether the number has no digits behind the point. -/
def isWhole (x : Binary64) : Bool :=
  !x.isNaN && !x.isInfinite && (x.isZero || decide (0 ≤ x.shortest.exponent))

/-- The number in the fewest digits that read back, always positional; `-0` keeps its sign, NaN has
none. -/
def display (x : Binary64) : String :=
  let sign := if x.isNegative then "-" else ""
  if x.isNaN then "NaN"
  else if x.isInfinite then sign ++ "inf"
  else if x.isZero then sign ++ "0"
  else sign ++ x.shortest.positional

end Schemata.Binary64
