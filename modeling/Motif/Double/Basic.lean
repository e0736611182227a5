/-!
# Numbers of double precision

A number of double precision has a significand of at most 53 binary digits and an exponent of two
between -1074 and 971. Every decimal has a nearest such number; of two equally near ones it is the
one with the even significand. Beyond the greatest number lie the infinities.
-/

namespace Motif

/-- A number of double precision. -/
inductive Double where
  /-- No number at all. -/
  | undefined
  | infinite (negative : Bool)
  /-- The significand times two to the power of the exponent. -/
  | finite (negative : Bool) (significand : Nat) (exponent : Int)
deriving DecidableEq, Repr, Inhabited

namespace Double

/-- The number of binary digits of a significand. -/
def precision : Nat := 53

/-- The least significand with all its digits. -/
def leastFull : Nat := Nat.pow 2 (precision - 1)

/-- The least exponent. -/
def leastExponent : Int := -1074

/-- The greatest exponent. -/
def greatestExponent : Int := 971

/-- The power of a base as a ratio: numerator and denominator, of which one is 1. -/
def powerRatio (base : Nat) (exponent : Int) : Nat × Nat :=
  let power := base.pow exponent.natAbs
  if exponent < 0 then (1, power) else (power, 1)

/-- The quotient rounded to the nearest integer, and to the even one of two. -/
def roundedQuotient (num den : Nat) : Nat :=
  let quotient := num / den
  let twice := 2 * (num % den)
  if den < twice || (twice = den && quotient % 2 = 1) then quotient + 1 else quotient

/-- The exponent with which the significand of a positive ratio has the full number of digits, as
far as exponents go down. -/
def exponentOf (num den : Nat) : Int :=
  let estimate : Int := (num.log2 : Int) - den.log2
  let (up, down) := powerRatio 2 estimate
  let magnitude := if num * down < den * up then estimate - 1 else estimate
  max leastExponent (magnitude - (precision - 1 : Nat))

/-- The number nearest to a positive ratio. -/
def ofRatio (negative : Bool) (num den : Nat) : Double :=
  let exponent := exponentOf num den
  let (up, down) := powerRatio 2 exponent
  let rounded := roundedQuotient (num * down) (den * up)
  let (significand, exponent) :=
    if rounded = 2 * leastFull then (leastFull, exponent + 1) else (rounded, exponent)
  if greatestExponent < exponent then infinite negative
  else finite negative significand exponent

/-- A decimal with its first digit beyond so many places before the point is infinite, and with
that beyond so many places behind it is nearest to zero. -/
def decimalReach : Int := 400

/-- The number nearest to `digits` times ten to the power of `scale`. -/
def ofDecimal (negative : Bool) (digits : Nat) (scale : Int) : Double :=
  let size : Int := (toString digits).length + scale
  if digits = 0 || size < -decimalReach then finite negative 0 leastExponent
  else if decimalReach < size then infinite negative
  else
    let (up, down) := powerRatio 10 scale
    ofRatio negative (digits * up) down

/-- The greatest integer up to a finite number. -/
def floor? : Double → Option Int
  | finite negative significand exponent =>
    let (up, down) := powerRatio 2 exponent
    let magnitude : Int := significand * up
    some ((if negative then -magnitude else magnitude).fdiv down)
  | _ => none

/-- The least integer from a finite number on. -/
def ceil? : Double → Option Int
  | finite negative significand exponent =>
    (floor? (finite (!negative) significand exponent)).map (- ·)
  | _ => none

end Double

end Motif
