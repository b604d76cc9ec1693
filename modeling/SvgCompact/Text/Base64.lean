/-!
Bytes written with sixty-four symbols.

Three bytes are four symbols; a last group of one or two bytes is filled up with
signs for padding.  Reading accepts exactly what writing produces.
-/

namespace SvgCompact
namespace Base64

/-- The symbol of a number below 64. -/
def symbol (n : Nat) : UInt8 :=
  if n < 26 then UInt8.ofNat (65 + n)
  else if n < 52 then UInt8.ofNat (71 + n)
  else if n < 62 then UInt8.ofNat (n - 4)
  else if n = 62 then 43
  else 47

/-- The number of a symbol. -/
def value? (b : UInt8) : Option Nat :=
  let n := b.toNat
  if 65 ≤ n ∧ n ≤ 90 then some (n - 65)
  else if 97 ≤ n ∧ n ≤ 122 then some (n - 71)
  else if 48 ≤ n ∧ n ≤ 57 then some (n + 4)
  else if n = 43 then some 62
  else if n = 47 then some 63
  else none

def padding : UInt8 := 61

def encode : List UInt8 → List UInt8
  | a :: b :: c :: rest =>
    let n := (a.toNat * 256 + b.toNat) * 256 + c.toNat
    symbol (n / 0x40000) :: symbol (n / 0x1000 % 64) :: symbol (n / 64 % 64) :: symbol (n % 64)
      :: encode rest
  | [a, b] =>
    let n := (a.toNat * 256 + b.toNat) * 4
    [symbol (n / 0x1000), symbol (n / 64 % 64), symbol (n % 64), padding]
  | [a] =>
    let n := a.toNat * 16
    [symbol (n / 64), symbol (n % 64), padding, padding]
  | [] => []

inductive Error
  | invalidSymbol (b : UInt8) (offset : Nat)
  /-- A single symbol is left over after the given number of symbols. -/
  | invalidLength (length : Nat)
  /-- The last symbol says more than the bytes can hold. -/
  | invalidLast (b : UInt8) (offset : Nat)
  | invalidPadding
deriving DecidableEq, Repr

def Error.message : Error → String
  | invalidSymbol b offset => s!"Invalid symbol {b.toNat}, offset {offset}."
  | invalidLength length => s!"Invalid input length: {length}"
  | invalidLast b offset => s!"Invalid last symbol {b.toNat}, offset {offset}."
  | invalidPadding => "Invalid padding"

def values (offset : Nat) : List UInt8 → Except Error (List Nat)
  | [] => .ok []
  | b :: bs =>
    match value? b with
    | some v => (values (offset + 1) bs).map (v :: ·)
    | none => .error (.invalidSymbol b offset)

/-- The bytes of the numbers of one group, and what the last number says beyond
them. -/
def bytes : List Nat → List UInt8 × Nat
  | [a, b] => ([UInt8.ofNat (a * 4 + b / 16)], b % 16)
  | [a, b, c] =>
    ([UInt8.ofNat (a * 4 + b / 16), UInt8.ofNat (b % 16 * 16 + c / 4)], c % 4)
  | [a, b, c, d] =>
    ([UInt8.ofNat (a * 4 + b / 16), UInt8.ofNat (b % 16 * 16 + c / 4),
      UInt8.ofNat (c % 4 * 64 + d)], 0)
  | _ => ([], 0)

/-- Reads the last group, which may end in padding. -/
def decodeLast (offset : Nat) (group : List UInt8) : Except Error (List UInt8) := do
  let symbols := group.takeWhile (· != padding)
  let signs := group.dropWhile (· != padding)
  let numbers ← values offset symbols
  let stop := offset + symbols.length
  if !signs.isEmpty && (symbols.length < 2 || signs.any (· != padding)) then
    throw (.invalidSymbol padding stop)
  if !group.isEmpty && symbols.length < 2 then throw (.invalidLength stop)
  if group.length % 4 ≠ 0 then throw .invalidPadding
  let (result, surplus) := bytes numbers
  if surplus ≠ 0 then throw (.invalidLast (symbols.getLast?.getD 0) (stop - 1))
  pure result

/-- Reads groups from the given offset on. -/
def decodeGroups (offset : Nat) : List UInt8 → Except Error (List UInt8)
  | a :: b :: c :: d :: e :: rest => do
    let numbers ← values offset [a, b, c, d]
    let others ← decodeGroups (offset + 4) (e :: rest)
    pure ((bytes numbers).1 ++ others)
  | group => decodeLast offset group

/-- A foreign byte that stands alone after the last group, such as a line break,
is named first. -/
def strayLast? (s : List UInt8) : Option UInt8 :=
  if s.length % 4 = 1 then
    s.getLast?.filter fun b => b != padding && (value? b).isNone
  else none

def decode (s : List UInt8) : Except Error (List UInt8) :=
  match strayLast? s with
  | some b => .error (.invalidSymbol b (s.length - 1))
  | none => decodeGroups 0 s

end Base64
end SvgCompact
