/-!
Finite binary numbers as pairs of integers.

`Binary.ofFloat` reads the bits of a double as `± mantissa · 2 ^ exponent`, so
that rounding, narrowing and printing are integer arithmetic.
-/

namespace SvgCompact
namespace Decimal

def powerOfTwo (n : Nat) : Nat := Nat.pow 2 n

/-- A binary floating point format: the bits of its mantissa, and the exponents
of the last bit of its smallest and of its largest numbers. -/
structure Width where
  precision : Nat
  least : Int
  most : Int

def Width.double : Width := ⟨53, -1074, 971⟩

def Width.single : Width := ⟨24, -149, 104⟩

/-- What the bits of a floating point number say. -/
inductive Binary
  | nan
  | infinite (negative : Bool)
  | finite (negative : Bool) (mantissa : Nat) (exponent : Int)

namespace Binary

/-- A number without exponent bits has no implied leading bit. -/
def ofFloat (x : Float) : Binary :=
  let bits := x.toBits.toNat
  let fraction := bits % powerOfTwo 52
  let biased : Nat := bits / powerOfTwo 52 % powerOfTwo 11
  let negative := bits / powerOfTwo 63 == 1
  if biased == 2047 then
    if fraction == 0 then infinite negative else nan
  else if biased == 0 then finite negative fraction (-1074)
  else finite negative (powerOfTwo 52 + fraction) (biased - 1075)

def bitCount (n : Nat) : Nat :=
  if n = 0 then 0 else n.log2 + 1

/-- `mantissa / 2 ^ shift`, a half going to the even neighbour. -/
def halfToEven (mantissa shift : Nat) : Nat :=
  let unit := powerOfTwo shift
  let floor := mantissa / unit
  let rest := 2 * (mantissa % unit)
  if rest < unit then floor
  else if unit < rest then floor + 1
  else if floor % 2 = 0 then floor else floor + 1

/-- `mantissa / 2 ^ shift`, a half going away from zero. -/
def halfUp (mantissa shift : Nat) : Nat :=
  (2 * mantissa + powerOfTwo shift) / powerOfTwo (shift + 1)

/-- The nearest number of a format.  The mantissa of the result fills the
precision unless the exponent is the least one. -/
def fit (width : Width) : Binary → Binary
  | nan => nan
  | infinite negative => infinite negative
  | finite negative mantissa exponent =>
    if mantissa = 0 then finite negative 0 width.least
    else
      let place := max (exponent + bitCount mantissa - width.precision) width.least
      let rounded :=
        if place ≤ exponent then mantissa * powerOfTwo (exponent - place).toNat
        else halfToEven mantissa (place - exponent).toNat
      let carried := decide (rounded = powerOfTwo width.precision)
      let result := if carried then powerOfTwo (width.precision - 1) else rounded
      let last := if carried then place + 1 else place
      if width.most < last then infinite negative else finite negative result last

/-- Whether the number is an integer.  Infinities are not. -/
def isWhole : Binary → Bool
  | nan => false
  | infinite _ => false
  | finite _ mantissa exponent =>
    decide (0 ≤ exponent) || mantissa % powerOfTwo (-exponent).toNat == 0

end Binary

/-- Whether the number has digits after the point.  Infinities and what is not
a number count as if they had. -/
def hasFraction (x : Float) : Bool :=
  !(Binary.ofFloat x).isWhole

/-- The nearest integer, a half going away from zero.  The sign of a zero stays. -/
def nearest (x : Float) : Float :=
  match Binary.ofFloat x with
  | .finite negative mantissa exponent =>
    if 0 ≤ exponent then x
    else
      let whole := Float.ofNat (Binary.halfUp mantissa (-exponent).toNat)
      if negative then -whole else whole
  | _ => x

def whole (x : Float) : Float :=
  match Binary.ofFloat x with
  | .finite negative mantissa exponent =>
    if 0 ≤ exponent then x
    else
      let floor := Float.ofNat (mantissa / powerOfTwo (-exponent).toNat)
      if negative then -floor else floor
  | _ => x

end Decimal
end SvgCompact
