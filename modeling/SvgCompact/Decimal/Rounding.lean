import SvgCompact.Decimal.Shortest

/-!
Rounding to decimal places and writing without decoration.
-/

namespace SvgCompact
namespace Decimal

/-- `r · x ^ p` by repeated squaring, from the last binary digit of `p` on. -/
def timesPower (r x : Float) (p : Nat) : Float :=
  let r := if p % 2 = 1 then r * x else r
  if p < 2 then r else timesPower r (x * x) (p / 2)
termination_by p
decreasing_by omega

def tenTo (p : Nat) : Float :=
  timesPower 1.0 10.0 p

/-- Rounds to a number of places, if one is given. -/
def round (places : Option Nat) (x : Float) : Float :=
  match places with
  | some p => nearest (x * tenTo p) / tenTo p
  | none => x

/-- The shortest text of a number, without `.0`.  Both zeros are `0`. -/
def plain (x : Float) : List Char :=
  if x == 0.0 then ['0']
  else
    let text := write x
    if ['.', '0'].isSuffixOf text then text.dropLast.dropLast else text

/-- A number that is not negative, with one decimal place.  A half goes to the even
neighbour. -/
def oneDecimal (x : Float) : List Char :=
  match Binary.ofFloat x with
  | .finite _ mantissa exponent =>
    let tenths :=
      if 0 ≤ exponent then 10 * mantissa * powerOfTwo exponent.toNat
      else Binary.halfToEven (10 * mantissa) (-exponent).toNat
    Nat.toDigits 10 (tenths / 10) ++ '.' :: Nat.toDigits 10 (tenths % 10)
  | .infinite _ => "inf".toList
  | .nan => "NaN".toList

/-- Drops the zero in front of a point. -/
def dropZero : List Char → List Char
  | '0' :: '.' :: cs => '.' :: cs
  | '-' :: '0' :: '.' :: cs => '-' :: '.' :: cs
  | cs => cs

end Decimal
end SvgCompact
