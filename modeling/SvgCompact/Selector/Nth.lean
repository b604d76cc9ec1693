import SvgCompact.Selector.Error
import SvgCompact.Css.Component

/-!
Positions of the form `an+b`.
-/

namespace SvgCompact

structure Nth where
  step : Int
  offset : Int
deriving DecidableEq, Repr

namespace Nth

/-- Whether `position = step · n + offset` for some `n ≥ 0`. -/
def selects (nth : Nth) (position : Int) : Bool :=
  let distance := position - nth.offset
  if nth.step = 0 then distance = 0
  else distance % nth.step = 0 ∧ 0 ≤ distance / nth.step

def write (nth : Nth) : List Char :=
  let step := (toString nth.step).toList
  let offset := (toString nth.offset).toList
  if nth.step = 0 then offset
  else if nth.offset = 0 then step ++ ['n']
  else if 0 < nth.offset then step ++ 'n' :: '+' :: offset
  else step ++ 'n' :: offset

/-! ## Reading -/

open Css

/-- The components from the first that is neither blank nor comment on. -/
def skip (cs : List Component) : List Component :=
  cs.dropWhile Component.isSpacing

/-- A number without a sign, which a sign in front of it applies to. -/
def readUnsigned (step sign : Int) (cs : List Component) :
    Except SelectorFault (Nth × List Component) :=
  match skip cs with
  | [] => .error .ended
  | .token ⟨.number ⟨false, _, some n⟩, _⟩ :: rest => .ok (⟨step, sign * n⟩, rest)
  | c :: _ => .error (.unexpected c.head)

/-- What follows the `n` of a step: an offset with its sign, or nothing. -/
def readOffset (step : Int) (cs : List Component) :
    Except SelectorFault (Nth × List Component) :=
  match skip cs with
  | .token ⟨.delim '+', _⟩ :: rest => readUnsigned step 1 rest
  | .token ⟨.delim '-', _⟩ :: rest => readUnsigned step (-1) rest
  | .token ⟨.number ⟨true, _, some n⟩, _⟩ :: rest => .ok (⟨step, n⟩, rest)
  | _ => .ok (⟨step, 0⟩, cs)

/-- The number in a name such as `n-3`. -/
def dashDigits? (name : List Char) : Option Int :=
  match name with
  | n :: '-' :: digits =>
    if n.toLower == 'n' && !digits.isEmpty && digits.all Char.isDigit then
      some (clamp32 (-(Decimal.ofDigits digits : Int)))
    else none
  | _ => none

/-- What a name after a step means: `n`, `n-` or `n-3`. -/
def readName (step : Int) (name full : List Char) (rest : List Component) :
    Except SelectorFault (Nth × List Component) :=
  if Text.sameLetters name ['n'] then readOffset step rest
  else if Text.sameLetters name ['n', '-'] then readUnsigned step (-1) rest
  else match dashDigits? name with
    | some offset => .ok (⟨step, offset⟩, rest)
    | none => .error (.unexpected (.ident (String.ofList full)))

/-- A name with its sign, `even` and `odd`. -/
def readKeyword (name : List Char) (rest : List Component) :
    Except SelectorFault (Nth × List Component) :=
  if Text.sameLetters name "even".toList then .ok (⟨2, 0⟩, rest)
  else if Text.sameLetters name "odd".toList then .ok (⟨2, 1⟩, rest)
  else match name with
    | '-' :: unsigned => readName (-1) unsigned name rest
    | _ => readName 1 name name rest

/-- The position at the front and what follows it. -/
def readFront (cs : List Component) : Except SelectorFault (Nth × List Component) :=
  match skip cs with
  | [] => .error .ended
  | .token ⟨.number ⟨_, _, some n⟩, _⟩ :: rest => .ok (⟨0, n⟩, rest)
  | .token ⟨.dimension ⟨_, _, some n⟩ unit, _⟩ :: rest =>
    readName n unit.toList unit.toList rest
  | .token ⟨.ident name, _⟩ :: rest => readKeyword name.toList rest
  | .token ⟨.delim '+', _⟩ :: rest =>
    match rest.dropWhile Component.isComment with
    | [] => .error .ended
    | .token ⟨.ident name, _⟩ :: rest => readName 1 name.toList name.toList rest
    | c :: _ => .error (.unexpected c.head)
  | c :: _ => .error (.unexpected c.head)

def read (cs : List Component) : Except SelectorFault Nth := do
  let (nth, rest) ← readFront cs
  match skip rest with
  | [] => .ok nth
  | c :: _ => .error (.unexpected c.head)

end Nth
end SvgCompact
