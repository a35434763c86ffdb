/-! Binary floating point numbers of 64 bits, by their bits.

A default value of a field may be such a number, so two of them are compared as numbers (`same`): the
two zeros are the same, a NaN is the same as nothing. `ofDecimal` is the number nearest to a decimal
numeral, a half going to the even neighbour. All arithmetic is on natural numbers. -/
namespace Schemata

structure Binary64 where
  bits : UInt64
  deriving DecidableEq, Inhabited

namespace Binary64

/-- The bits below the sign: they order the numbers of one sign by size. -/
def magnitude (x : Binary64) : Nat := x.bits.toNat % Nat.pow 2 63

def isNegative (x : Binary64) : Bool := decide (Nat.pow 2 63 ≤ x.bits.toNat)

/-- The magnitude of the infinities; what lies above is not a number. -/
def infinityMagnitude : Nat := 2047 * Nat.pow 2 52

def ofMagnitude (negative : Bool) (magnitude : Nat) : Binary64 :=
  ⟨UInt64.ofNat (magnitude + if negative then Nat.pow 2 63 else 0)⟩

def infinity (negative : Bool) : Binary64 := ofMagnitude negative infinityMagnitude

def nan (negative : Bool) : Binary64 := ofMagnitude negative (infinityMagnitude + Nat.pow 2 51)

def isNaN (x : Binary64) : Bool := decide (infinityMagnitude < x.magnitude)

def isInfinite (x : Binary64) : Bool := x.magnitude == infinityMagnitude

def isZero (x : Binary64) : Bool := x.magnitude == 0

/-- Equality as numbers. -/
def same (x y : Binary64) : Bool :=
  !x.isNaN && !y.isNaN && (x == y || (x.isZero && y.isZero))

theorem same_self (x : Binary64) : x.same x = !x.isNaN := by
  cases h : x.isNaN <;> simp [same, h]

theorem same_comm (x y : Binary64) : x.same y = y.same x := by
  have hxy : (x == y) = (y == x) := by
    rw [Bool.eq_iff_iff, beq_iff_eq, beq_iff_eq]
    exact eq_comm
  simp only [same, hxy]
  cases x.isNaN <;> cases y.isNaN <;> cases x.isZero <;> cases y.isZero <;> simp

theorem same_trans {x y z : Binary64} (h : x.same y = true) (h' : y.same z = true) :
    x.same z = true := by
  simp only [same, Bool.and_eq_true, Bool.or_eq_true, beq_iff_eq, Bool.not_eq_eq_eq_not,
    Bool.not_true] at h h' ⊢
  refine ⟨⟨h.1.1, h'.1.2⟩, ?_⟩
  rcases h.2 with h1 | h1 <;> rcases h'.2 with h2 | h2
  · exact .inl (h1.trans h2)
  · exact .inr ⟨h1 ▸ h2.1, h2.2⟩
  · exact .inr ⟨h1.1, h2 ▸ h1.2⟩
  · exact .inr ⟨h1.1, h2.2⟩

/-! ### The value

A finite number is `significand * 2 ^ exponent`, its sign apart. -/

def significand (x : Binary64) : Nat :=
  if x.magnitude < Nat.pow 2 52 then x.magnitude else Nat.pow 2 52 + x.magnitude % Nat.pow 2 52

def exponent (x : Binary64) : Int :=
  if x.magnitude < Nat.pow 2 52 then -1074 else (x.magnitude / Nat.pow 2 52 : Nat) - 1075

/-! ### Reading -/

/-- `n / d` to the nearest natural number, a half to the even one. -/
def divideToEven (n d : Nat) : Nat :=
  let q := n / d
  let r := n % d
  if 2 * r > d || (2 * r == d && q % 2 == 1) then q + 1 else q

/-- The binary exponent that leaves 53 digits before the point of `n / d`, or the least one there is. -/
def exponentFor (n d : Nat) : Int :=
  let l : Int := (Nat.log2 n : Int) - Nat.log2 d
  let atLeast : Bool := decide (d * Nat.pow 2 l.toNat ≤ n * Nat.pow 2 (-l).toNat)
  max (-1074) (if atLeast then l - 52 else l - 53)

/-- The magnitude of the number nearest to `n / d`. -/
def magnitudeOfRatio (n d : Nat) : Nat :=
  if n = 0 then 0 else
    let e := exponentFor n d
    let q := divideToEven (n * Nat.pow 2 (-e).toNat) (d * Nat.pow 2 e.toNat)
    min infinityMagnitude ((e + 1074).toNat * Nat.pow 2 52 + q)

/-- The number nearest to `digits * 10 ^ exponent`. Exponents that are far out of range are settled
by the count of the digits, so that no large power is formed. -/
def ofDecimal (negative : Bool) (digits : Nat) (exponent : Int) : Binary64 :=
  let leading : Int := (Nat.log2 digits : Int) / 4 + exponent
  if digits = 0 then ofMagnitude negative 0
  else if leading > 400 then infinity negative
  else if (Nat.log2 digits : Int) + exponent < -400 then ofMagnitude negative 0
  else ofMagnitude negative
    (magnitudeOfRatio (digits * Nat.pow 10 exponent.toNat) (Nat.pow 10 (-exponent).toNat))

end Binary64

end Schemata
