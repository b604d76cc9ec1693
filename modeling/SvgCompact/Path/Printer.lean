import SvgCompact.Path.Basic
import SvgCompact.Decimal.Rounding

/-!
Writing path data.
-/

namespace SvgCompact

structure PathFormat where
  /-- The decimal places to round to; without it numbers keep all their digits. -/
  precision : Option Nat
  /-- Whether `0.5` is written as `.5`. -/
  dropZeros : Bool
  /-- Whether the blank before a minus sign is left out, and the one before a
  point where the number before has a fraction. -/
  dropBlanks : Bool
  /-- Whether the blanks after flags are left out. -/
  joinFlags : Bool
  /-- Whether a letter is left out where the command before it implies it. -/
  dropLetters : Bool
deriving DecidableEq, Repr

def PathFormat.default : PathFormat := ⟨none, true, true, false, true⟩

namespace Path

/-- Whether the letter of `next` is implied after `before`. -/
def implies (before next : Command Float) : Bool :=
  before.relative == next.relative &&
    match before.segment.instruction, next.segment.instruction with
    | .moveTo, .lineTo => true
    | .moveTo, _ => false
    | .closePath, _ => false
    | i, j => i == j

/-- The text of an argument, and the number it stands for. -/
def argumentText (format : PathFormat) : Argument Float → List Char × Float
  | .flag b => (if b then ['1'] else ['0'], if b then 1.0 else 0.0)
  | .number raw =>
    let x := Decimal.round format.precision raw
    let text := Decimal.plain x
    (if format.dropZeros then Decimal.dropZero text else text, x)

/-- Whether an argument needs a blank in front of its text.  `before` is the
argument before it. -/
def needsBlank (format : PathFormat) (before : Argument Float) (text : List Char) (x : Float) :
    Bool :=
  let afterFlag :=
    match before with
    | .flag _ => true
    | .number _ => false
  let parted :=
    x < 0.0 || (text.head? == some '.' && Decimal.hasFraction (argumentText format before).2)
  !(afterFlag && format.joinFlags) && !(format.dropBlanks && parted)

/-- Arguments after the one before them. -/
def writeArguments (format : PathFormat) (before : Option (Argument Float)) :
    List (Argument Float) → List Char
  | [] => []
  | a :: rest =>
    let (text, x) := argumentText format a
    let blank :=
      match before with
      | none => []
      | some b => if needsBlank format b text x then [' '] else []
    blank ++ text ++ writeArguments format (some a) rest

/-- Commands after the one before them.  Where a letter is left out the arguments
go on after those of that command. -/
def writeCommands (format : PathFormat) (before : Option (Command Float)) :
    Path Float → List Char
  | [] => []
  | c :: rest =>
    let goesOn :=
      match before with
      | some b => format.dropLetters && implies b c
      | none => false
    let arguments := c.segment.arguments
    let text :=
      if goesOn then
        writeArguments format (before.bind fun b => b.segment.arguments.getLast?) arguments
      else c.letter :: writeArguments format none arguments
    text ++ writeCommands format (some c) rest

def write (format : PathFormat) (path : Path Float) : String :=
  String.ofList (writeCommands format none path)

end Path
end SvgCompact
