import SvgCompact.Text.Search

/-!
Reading decimal numbers.

`read?` accepts an optional sign followed by digits with an optional point and
an optional exponent, or by one of the words for infinity and for what is not a
number, in any case.  There is at least one digit before the exponent, and at
least one in it.  The result is the nearest double.
-/

namespace SvgCompact
namespace Decimal

def ofDigits (digits : List Char) : Nat :=
  digits.foldl (fun n c => 10 * n + (c.toNat - '0'.toNat)) 0

/-- The sign in front, `true` for minus, and the text after it. -/
def takeSign : List Char → Bool × List Char
  | '-' :: cs => (true, cs)
  | '+' :: cs => (false, cs)
  | cs => (false, cs)

/-- The nearest double to `mantissa · 10 ^ exponent`.  The digits decide early
whether the result overflows or vanishes. -/
def scientific (mantissa : Nat) (exponent : Int) : Float :=
  let size := (Nat.toDigits 10 mantissa).length + exponent
  if mantissa = 0 ∨ size < -330 then 0.0
  else if 310 < size then 1.0 / 0.0
  else Float.ofScientific mantissa (exponent < 0) exponent.natAbs

def readExponent? : List Char → Option Int
  | [] => some 0
  | c :: cs =>
    if c == 'e' || c == 'E' then
      let (negative, digits) := takeSign cs
      if digits.isEmpty || !digits.all Char.isDigit then none
      else some (if negative then -(ofDigits digits : Int) else ofDigits digits)
    else none

/-- Digits, point and exponent without a sign. -/
def readUnsigned? (s : List Char) : Option Float :=
  let ahead := s.takeWhile Char.isDigit
  let (behind, rest) :=
    match s.dropWhile Char.isDigit with
    | '.' :: cs => (cs.takeWhile Char.isDigit, cs.dropWhile Char.isDigit)
    | cs => ([], cs)
  if ahead.isEmpty && behind.isEmpty then none
  else (readExponent? rest).map fun exponent =>
    scientific (ofDigits (ahead ++ behind)) (exponent - behind.length)

def readWord? (s : List Char) : Option Float :=
  let word := String.ofList (Text.lower s)
  if word == "inf" || word == "infinity" then some (1.0 / 0.0)
  else if word == "nan" then some (0.0 / 0.0)
  else none

def read? (s : List Char) : Option Float :=
  let (negative, rest) := takeSign s
  ((readWord? rest).orElse fun _ => readUnsigned? rest).map fun x =>
    if negative then -x else x

end Decimal
end SvgCompact
