import Motif.Double.Basic

/-!
# The shortest decimal of a number

A number of double precision is written with the fewest digits that lead back to it. Of several
such decimals the nearest one is taken, and of two equally near ones the even one. Numbers from
0.0001 up to below 10 to the power of 16 are written in positions, others with an exponent.
-/

namespace Motif.Double

/-- A decimal: an integer times a power of ten. -/
structure Decimal where
  digits : Nat
  scale : Int
deriving DecidableEq, Repr, Inhabited

/-- How a decimal compares with an integer times a power of two. -/
def Decimal.compareTo (decimal : Decimal) (factor : Nat) (exponent : Int) : Ordering :=
  let (tens, tenths) := powerRatio 10 decimal.scale
  let (twos, halves) := powerRatio 2 exponent
  compare (decimal.digits * tens * halves) (factor * twos * tenths)

/-- A decimal leads back to a number if it lies between the midpoints to the neighbours of the
number; a midpoint itself leads to an even significand. Below a power of two the neighbour is only
half as far away. -/
def leadsBack (significand : Nat) (exponent : Int) (decimal : Decimal) : Bool :=
  let isNarrow := significand = leastFull && leastExponent < exponent
  let low := if isNarrow then 4 * significand - 1 else 4 * significand - 2
  let fromLow := decimal.compareTo low (exponent - 2)
  let fromHigh := decimal.compareTo (4 * significand + 2) (exponent - 2)
  let endsCount := significand % 2 = 0
  (fromLow = .gt || (endsCount && fromLow = .eq)) &&
    (fromHigh = .lt || (endsCount && fromHigh = .eq))

/-- The number of decimal digits. -/
def digitCount (value : Nat) : Nat :=
  (toString value).length

/-- The least power of ten above a positive number. -/
def decimalSize (significand : Nat) (exponent : Int) : Int :=
  let (up, down) := powerRatio 2 exponent
  let num := significand * up
  if down ≤ num then digitCount (num / down) else 1 - (digitCount ((down - 1) / num) : Int)

/-- The decimal with a last digit of the given scale that leads back: the nearer one of the two
next to the number. -/
def atScale? (significand : Nat) (exponent scale : Int) : Option Decimal :=
  let (twos, halves) := powerRatio 2 exponent
  let (tens, tenths) := powerRatio 10 scale
  let below : Decimal := ⟨significand * twos * tenths / (halves * tens), scale⟩
  let above : Decimal := ⟨below.digits + 1, scale⟩
  match leadsBack significand exponent below, leadsBack significand exponent above with
  | false, false => none
  | true, false => some below
  | false, true => some above
  | true, true =>
    match Decimal.compareTo ⟨2 * below.digits + 1, scale⟩ (2 * significand) exponent with
    | .gt => some below
    | .lt => some above
    | .eq => some (if below.digits % 2 = 0 then below else above)

/-- The greatest number of digits that may be needed. -/
def mostDigits : Nat := 17

/-- The shortest decimal that leads back to a positive number. -/
def shortest (significand : Nat) (exponent : Int) : Decimal :=
  let size := decimalSize significand exponent
  let found := (List.range mostDigits).findSome? fun count =>
    atScale? significand exponent (size - (count + 1 : Nat))
  found.getD ⟨significand, exponent⟩

/-- The digits of a number without zeros at the end. -/
def significantDigits (value : Nat) : List Char :=
  ((toString value).toList.reverse.dropWhile (· = '0')).reverse

/-- So many zeros. -/
def zeros (count : Int) : List Char :=
  List.replicate count.toNat '0'

/-- Digits with the point after the given number of them; it may also stand before all of them, or
behind them. -/
def positional (digits : List Char) (point : Int) : List Char :=
  if point ≤ 0 then '0' :: '.' :: (zeros (-point) ++ digits)
  else if (digits.length : Int) ≤ point then
    digits ++ zeros (point - digits.length) ++ ['.', '0']
  else digits.take point.toNat ++ '.' :: digits.drop point.toNat

/-- Digits with the point after the first one, and the exponent in at least two digits. -/
def exponential (digits : List Char) (exponent : Int) : List Char :=
  let fraction := if digits.length ≤ 1 then [] else '.' :: digits.drop 1
  let size := (toString exponent.natAbs).toList
  let padding := if size.length < 2 then ['0'] else []
  digits.take 1 ++ fraction ++ 'e' :: (if exponent < 0 then '-' else '+') :: (padding ++ size)

/-- The text of a positive number. -/
def positiveText (significand : Nat) (exponent : Int) : String :=
  let decimal := shortest significand exponent
  let digits := significantDigits decimal.digits
  let point := digitCount decimal.digits + decimal.scale
  String.ofList (if -4 < point && point ≤ 16 then positional digits point
    else exponential digits (point - 1))

/-- The text of a finite number; that of another one is given. -/
def text (undefined infinite : String) : Double → String
  | .undefined => undefined
  | .infinite negative => (if negative then "-" else "") ++ infinite
  | .finite negative significand exponent =>
    (if negative then "-" else "") ++
      if significand = 0 then "0.0" else positiveText significand exponent

end Motif.Double
