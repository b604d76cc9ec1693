/-!
Bytes written with percent signs.

Letters, digits and four marks stand for themselves, every other byte is a
percent sign and two hexadecimal digits.
-/

namespace SvgCompact
namespace Percent

/-- Letters, digits and `-`, `.`, `_`, `~`. -/
def isPlain (b : UInt8) : Bool :=
  let n := b.toNat
  (48 ≤ n && n ≤ 57) || (65 ≤ n && n ≤ 90) || (97 ≤ n && n ≤ 122)
    || n == 45 || n == 46 || n == 95 || n == 126

def sign : UInt8 := 37

/-- The upper case digit of a number below 16. -/
def digit (n : Nat) : UInt8 :=
  if n < 10 then UInt8.ofNat (48 + n) else UInt8.ofNat (55 + n)

def digitValue? (b : UInt8) : Option Nat :=
  let n := b.toNat
  if 48 ≤ n ∧ n ≤ 57 then some (n - 48)
  else if 65 ≤ n ∧ n ≤ 70 then some (n - 55)
  else if 97 ≤ n ∧ n ≤ 102 then some (n - 87)
  else none

def encodeByte (b : UInt8) : List UInt8 :=
  if isPlain b then [b] else [sign, digit (b.toNat / 16), digit (b.toNat % 16)]

def encode (bs : List UInt8) : List UInt8 :=
  bs.flatMap encodeByte

/-- The byte of two digits. -/
def pair? (high low : UInt8) : Option UInt8 := do
  pure (UInt8.ofNat (16 * (← digitValue? high) + (← digitValue? low)))

/-- A percent sign without two digits after it stands for itself. -/
def decode : List UInt8 → List UInt8
  | [] => []
  | [b] => [b]
  | [b, c] => [b, c]
  | b :: c :: d :: rest =>
    if b = sign then
      match pair? c d with
      | some e => e :: decode rest
      | none => b :: decode (c :: d :: rest)
    else b :: decode (c :: d :: rest)

end Percent
end SvgCompact
