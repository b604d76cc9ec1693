import SvgCompact.Decimal.Binary

/-!
The fewest decimal digits that read back as the same number.

`shortest` walks the grids of one digit, two digits and so on.  On each grid it
tests the two neighbours of the number; the first grid with a neighbour inside
the interval that rounds to the number wins, and of two neighbours the nearer.  A
format says which of two neighbours at the same distance is taken.
-/

namespace SvgCompact
namespace Decimal

/-- The number `digits · 10 ^ exponent`. -/
structure Digits where
  digits : Nat
  exponent : Int

/-- The neighbour that stands for a number half-way between two. -/
inductive Tie
  | even
  | greater
deriving DecidableEq, Repr

/-- The number of decimal digits of `n`; zero has one. -/
def digitCount (n : Nat) : Nat :=
  (Nat.toDigits 10 n).length

/-- The `k` with `10 ^ (k - 1) ≤ mantissa · 2 ^ exponent < 10 ^ k`. -/
def magnitude (mantissa : Nat) (exponent : Int) : Int :=
  let above := mantissa * powerOfTwo exponent.toNat
  let below := powerOfTwo (-exponent).toNat
  if below ≤ above then digitCount (above / below)
  else (digitCount (above * Nat.pow 10 400 / below) : Int) - 400

/-- The neighbour of `mantissa · 2 ^ exponent` on the grid `10 ^ place` that
rounds to it, if there is one.  All three ends are measured in quarters of
`2 ^ exponent`; the ends of the interval belong to it when the mantissa is
even, and below a power of two the interval is half as wide. -/
def onGrid? (width : Width) (tie : Tie) (mantissa : Nat) (exponent place : Int) :
    Option Nat :=
  let step := Nat.pow 10 place.toNat * 4 * powerOfTwo (-exponent).toNat
  let unit := powerOfTwo exponent.toNat * Nat.pow 10 (-place).toNat
  let value := 4 * mantissa * unit
  let narrow := mantissa = powerOfTwo (width.precision - 1) ∧ width.least < exponent
  let low := (if narrow then 4 * mantissa - 1 else 4 * mantissa - 2) * unit
  let high := (4 * mantissa + 2) * unit
  let closed := mantissa % 2 = 0
  let inside (n : Nat) : Bool :=
    (low < n * step ∧ n * step < high) ∨ (closed ∧ (low = n * step ∨ n * step = high))
  let floor := value / step
  let below := value - floor * step
  let above := (floor + 1) * step - value
  match inside floor, inside (floor + 1) with
  | true, false => some floor
  | false, true => some (floor + 1)
  | false, false => none
  | true, true =>
    if below < above then some floor
    else if above < below then some (floor + 1)
    else if tie = .even ∧ floor % 2 = 0 then some floor
    else some (floor + 1)

/-- Moves the trailing zeros of the digits into the exponent. -/
def Digits.trimmed : Nat → Digits → Digits
  | 0, d => d
  | n + 1, d =>
    if d.digits ≠ 0 ∧ d.digits % 10 = 0 then trimmed n ⟨d.digits / 10, d.exponent + 1⟩ else d

/-- The first grid with a hit, from `count` digits on, among the next `left`. -/
def firstGrid (width : Width) (tie : Tie) (mantissa : Nat) (exponent size : Int) :
    Nat → Nat → Digits
  | 0, count => ⟨0, size - count⟩
  | left + 1, count =>
    match onGrid? width tie mantissa exponent (size - count) with
    | some digits => Digits.trimmed count ⟨digits, size - count⟩
    | none => firstGrid width tie mantissa exponent size left (count + 1)

/-- The shortest digits of `mantissa · 2 ^ exponent`, a positive number of the
format.  Seventeen digits tell any two doubles apart. -/
def shortest (width : Width) (tie : Tie) (mantissa : Nat) (exponent : Int) : Digits :=
  firstGrid width tie mantissa exponent (magnitude mantissa exponent) 17 1

/-- Numbers whose first digit stands at most `most` places before the point and
less than `least` places behind it are written without an exponent. -/
structure Layout where
  least : Int
  most : Int
  tie : Tie
  /-- Exponents that are not negative carry a sign, too. -/
  plus : Bool

namespace Layout

/-- Doubles take no exponent from `0.00001` up to sixteen digits, and half-way the
even neighbour. -/
def double : Layout :=
  ⟨-5, 16, .even, false⟩

/-- Numbers in single precision take no exponent from `0.0001` up to sixteen digits,
and half-way the greater neighbour. -/
def single : Layout :=
  ⟨-4, 16, .greater, false⟩

def zeros (n : Int) : List Char :=
  List.replicate n.toNat '0'

def power (layout : Layout) (n : Int) : List Char :=
  let digits := (toString n).toList
  if layout.plus ∧ 0 ≤ n then '+' :: digits else digits

/-- Whole numbers end in `.0` when they are written without an exponent. -/
def positive (layout : Layout) (d : Digits) : List Char :=
  let digits := Nat.toDigits 10 d.digits
  let size := (digits.length : Int) + d.exponent
  if 0 ≤ d.exponent ∧ size ≤ layout.most then
    digits ++ zeros d.exponent ++ ['.', '0']
  else if 0 < size ∧ size ≤ layout.most then
    digits.take size.toNat ++ '.' :: digits.drop size.toNat
  else if layout.least < size ∧ size ≤ 0 then
    '0' :: '.' :: zeros (-size) ++ digits
  else
    let power := layout.power (size - 1)
    match digits with
    | [only] => only :: 'e' :: power
    | first :: rest => first :: '.' :: rest ++ 'e' :: power
    | [] => []

def write (layout : Layout) (width : Width) (x : Binary) : List Char :=
  let sign (negative : Bool) : List Char := if negative then ['-'] else []
  match x.fit width with
  | .nan => "NaN".toList
  | .infinite negative => sign negative ++ "inf".toList
  | .finite negative mantissa exponent =>
    sign negative ++
      if mantissa = 0 then "0.0".toList
      else layout.positive (shortest width layout.tie mantissa exponent)

end Layout

def write (x : Float) : List Char :=
  Layout.double.write Width.double (Binary.ofFloat x)

/-- The text of a double narrowed to single precision. -/
def writeSingle (x : Float) : List Char :=
  Layout.single.write Width.single (Binary.ofFloat x)

end Decimal
end SvgCompact
