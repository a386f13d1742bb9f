/-
WordMachine/Binary64.lean

Arithmetic with numbers of 53 significant bits, exactly.  A number is a whole
multiple of a power of two; the quotient of two whole numbers is rounded to
the nearest number of 53 bits, and of two that are equally near to the one
whose last bit is zero.  Only positive quotients far from the ends of the
exponent range are formed here, so the range is left open.
-/
namespace WordMachine

/-- The quotient of two numbers rounded to the nearest whole number, a half
going to the even neighbour. -/
def roundDiv (num den : Nat) : Nat :=
  let q := num / den
  let r := num % den
  if 2 * r < den then q
  else if den < 2 * r then q + 1
  else q + q % 2

/-- The number `mantissa * 2 ^ exponent`. -/
structure Binary64 where
  mantissa : Nat
  exponent : Int
  deriving DecidableEq

namespace Binary64

/-- Significant bits. -/
def precision : Nat := 53

/-- The quotient `num * 2 ^ e / den` as a pair of whole numbers. -/
def scaled (num den : Nat) (e : Int) : Nat × Nat :=
  (num <<< e.toNat, den <<< (-e).toNat)

/-- The number of 53 bits nearest to a quotient of positive numbers. -/
def ofQuotient (num den : Nat) : Binary64 :=
  let guess : Int := num.log2 - den.log2 - (precision - 1)
  let (n, d) := scaled num den (-guess)
  let exponent := if n / d < 1 <<< (precision - 1) then guess - 1 else guess
  let (n, d) := scaled num den (-exponent)
  ⟨roundDiv n d, exponent⟩

/-- The number nearest to a whole number. -/
def ofNat (n : Nat) : Binary64 := ofQuotient n 1

/-- The number as a quotient of whole numbers. -/
def quotient (x : Binary64) : Nat × Nat := scaled x.mantissa 1 x.exponent

/-- Division. -/
def div (x y : Binary64) : Binary64 :=
  let (xn, xd) := x.quotient
  let (yn, yd) := y.quotient
  ofQuotient (xn * yd) (xd * yn)

/-- Multiplication. -/
def mul (x y : Binary64) : Binary64 :=
  let (xn, xd) := x.quotient
  let (yn, yd) := y.quotient
  ofQuotient (xn * yn) (xd * yd)

/-- The number of tenths nearest to a number. -/
def tenths (x : Binary64) : Nat :=
  let (n, d) := x.quotient
  roundDiv (10 * n) d

end Binary64

end WordMachine
