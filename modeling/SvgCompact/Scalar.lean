import SvgCompact.Decimal.Binary
import SvgCompact.Decimal.Reader

/-!
Numbers that coordinates can be.

Documents hold doubles.  The same definitions run on rationals, where addition
and multiplication are exact.
-/

namespace SvgCompact

class Scalar (α : Type) extends Add α, Sub α, Mul α, Neg α where
  zero : α
  one : α
  /-- Whether two numbers are equal as numbers. -/
  same : α → α → Bool
  lt : α → α → Bool
  /-- A linear order for sorting; it puts smaller numbers first. -/
  sorts : α → α → Bool
  min : α → α → α
  max : α → α → α
  /-- How far a point of an elliptical arc can lie from its start, along each
  axis, given the lengths of the radii and the way from its start to its end. -/
  reach : α → α → α → α → α

namespace Scalar

variable {α : Type} [Scalar α]

def isZero (x : α) : Bool :=
  same x zero

def le (x y : α) : Bool :=
  lt x y || same x y

def abs (x : α) : α :=
  if lt x zero then -x else x

def two : α :=
  one + one

end Scalar

/-! ## Doubles -/

namespace Double

/-- The smaller number; what is not a number loses. -/
def min (x y : Float) : Float :=
  if x.isNaN then y else if y.isNaN then x else if y < x then y else x

/-- The greater number; what is not a number loses. -/
def max (x y : Float) : Float :=
  if x.isNaN then y else if y.isNaN then x else if x < y then y else x

/-- The bits of a double as an integer that grows with it.  Negative zero comes
before zero. -/
def orderKey (x : Float) : Int :=
  let bits := x.toBits.toNat
  if bits < 0x8000000000000000 then bits else 0x7fffffffffffffff - (bits : Int)

/-- The order of doubles.  What is not a number comes out of infinities that
cancel out, with a minus, and stands before all numbers. -/
def sorts (x y : Float) : Bool :=
  x.isNaN || (!y.isNaN && orderKey x ≤ orderKey y)

/-- The length of the hypotenuse over legs `a ≥ b > 0`: the rounded root, and
one step that takes away what squaring it leaves over. -/
def hypotenuse (a b : Float) : Float :=
  let h := Float.sqrt (a * a + b * b)
  if h ≤ 2.0 * b then
    let d := h - b
    let t₁ := a * (2.0 * d - a)
    let t₂ := (d - 2.0 * (a - b)) * d
    h - (t₁ + t₂) / (2.0 * h)
  else
    let d := h - a
    let t₁ := 2.0 * d * (a - 2.0 * b)
    let t₂ := (4.0 * d - b) * b + d * d
    h - (t₁ + t₂) / (2.0 * h)

/-- `2 ^ n` for exponents that doubles have. -/
def twoTo (n : Int) : Float :=
  if 0 ≤ n then Float.ofScientific (Decimal.powerOfTwo n.toNat) false 0
  else 1.0 / Float.ofScientific (Decimal.powerOfTwo (-n).toNat) false 0

/-- The distance of a point from the origin.  Very large and very small legs are
scaled so that their squares stay in range. -/
def distance (x y : Float) : Float :=
  let a := max x.abs y.abs
  let b := min x.abs y.abs
  if x.abs == 1.0 / 0.0 || y.abs == 1.0 / 0.0 then 1.0 / 0.0
  else if x.isNaN || y.isNaN then x + y
  else if twoTo 511 < a then
    if b ≤ a * twoTo (-54) then a + b
    else hypotenuse (a * twoTo (-600)) (b * twoTo (-600)) / twoTo (-600)
  else if b < twoTo (-459) then
    if b / twoTo (-54) ≤ a then a + b
    else hypotenuse (a / twoTo (-600)) (b / twoTo (-600)) * twoTo (-600)
  else if b ≤ a * twoTo (-54) then a + b
  else hypotenuse a b

/-- Every point of an ellipse lies within its major diameter of any other.  Radii
that are too small to span the arc are scaled up first. -/
def reach (rx ry dx dy : Float) : Float :=
  let ratio := distance (dx / 2.0) (dy / 2.0) / min rx ry
  2.0 * (max rx ry * max (Float.sqrt (ratio * ratio)) 1.0)

end Double

instance : Scalar Float where
  zero := 0.0
  one := 1.0
  same x y := x == y
  lt x y := x < y
  sorts := Double.sorts
  min := Double.min
  max := Double.max
  reach := Double.reach

/-! ## Doubles as they are written -/

/-- A double and whether it was written with a minus.  Sorting tells what is not a
number by its sign, which the double itself does not have. -/
structure WrittenNumber where
  value : Float
  negative : Bool

namespace WrittenNumber

/-- The result of an operation. -/
def computed (x : Float) : WrittenNumber := ⟨x, true⟩

def read? (s : List Char) : Option WrittenNumber :=
  (Decimal.read? s).map fun value => ⟨value, (Decimal.takeSign s).1⟩

/-- What is not a number stands before all numbers if it has a minus, and behind
them otherwise. -/
def sorts (x y : WrittenNumber) : Bool :=
  if x.value.isNaN then x.negative || (y.value.isNaN && !y.negative)
  else if y.value.isNaN then !y.negative
  else Double.sorts x.value y.value

end WrittenNumber

instance : Scalar WrittenNumber where
  add x y := .computed (x.value + y.value)
  sub x y := .computed (x.value - y.value)
  mul x y := .computed (x.value * y.value)
  neg x := .computed (-x.value)
  zero := .computed 0.0
  one := .computed 1.0
  same x y := x.value == y.value
  lt x y := x.value < y.value
  sorts := WrittenNumber.sorts
  min x y := .computed (Double.min x.value y.value)
  max x y := .computed (Double.max x.value y.value)
  reach rx ry dx dy := .computed (Double.reach rx.value ry.value dx.value dy.value)

/-! ## Rationals -/

namespace Rational

/-- Over the rationals the scale of the radii is bounded without a root. -/
def reach (rx ry dx dy : Rat) : Rat :=
  let least := if ry < rx then ry else rx
  let greatest := if rx < ry then ry else rx
  let ratio := (dx / 2 * (dx / 2) + dy / 2 * (dy / 2)) / (least * least)
  2 * (greatest * (if 1 < ratio then ratio else 1))

end Rational

instance : Scalar Rat where
  zero := 0
  one := 1
  same x y := x == y
  lt x y := x < y
  sorts x y := x ≤ y
  min x y := if y < x then y else x
  max x y := if x < y then y else x
  reach := Rational.reach

end SvgCompact
