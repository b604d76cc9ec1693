import SvgCompact.Path.Basic
import SvgCompact.Decimal.Reader
import SvgCompact.Text.Blank
import SvgCompact.Text.Measure

/-!
Reading path data.

Numbers need no separator where the next one cannot be part of the number, and a
flag is one character.  Coordinates without a letter repeat the command before
them, a move as a line.
-/

namespace SvgCompact
namespace PathReader

inductive Fault
  | unknownCommand (letter : Char)
  | noMove
  | noCommand
  | noNumber
  | badNumber (text : String)
  | badFlag (c : Char)
  | noFlag
deriving DecidableEq, Repr

def Fault.message : Fault → String
  | unknownCommand letter => "unknown command `" ++ letter.toString ++ "`"
  | noMove => "path data must start with a moveto"
  | noCommand => "expected a command letter"
  | noNumber => "expected a number"
  | badNumber text => "invalid number `" ++ text ++ "`"
  | badFlag c => "expected an arc flag, got `" ++ c.toString ++ "`"
  | noFlag => "expected an arc flag"

/-- A fault and its offset in bytes. -/
structure Error where
  fault : Fault
  offset : Nat
deriving DecidableEq, Repr

def Error.message (e : Error) : String :=
  "invalid path data at byte " ++ toString e.offset ++ ": " ++ e.fault.message

/-- Reading from the front of a text.  A fault comes with the text after it. -/
abbrev Step := StateT (List Char) (Except (Fault × List Char))

def skipBlanks (s : List Char) : List Char :=
  s.dropWhile Text.isSpace

/-- Skips blanks with at most one comma among them. -/
def skipSeparator (s : List Char) : List Char :=
  match skipBlanks s with
  | ',' :: cs => skipBlanks cs
  | cs => cs

/-! ## Arguments -/

def signLength : List Char → Nat
  | '-' :: _ => 1
  | '+' :: _ => 1
  | _ => 0

def digitsLength (s : List Char) : Nat :=
  let ahead := s.takeWhile Char.isDigit
  match s.dropWhile Char.isDigit with
  | '.' :: cs => ahead.length + 1 + (cs.takeWhile Char.isDigit).length
  | _ => ahead.length

/-- The length of an exponent.  Its letter counts even without digits. -/
def exponentLength : List Char → Nat
  | c :: cs =>
    if c == 'e' || c == 'E' then
      1 + signLength cs + ((cs.drop (signLength cs)).takeWhile Char.isDigit).length
    else 0
  | [] => 0

def numberLength (s : List Char) : Nat :=
  let unsigned := s.drop (signLength s)
  let digits := digitsLength unsigned
  signLength s + digits + exponentLength (unsigned.drop digits)

def number : Step Float := fun s =>
  let s := skipBlanks s
  let text := s.take (numberLength s)
  let rest := s.drop (numberLength s)
  if text.isEmpty then .error (.noNumber, s)
  else
    match Decimal.read? text with
    | some x => .ok (x, rest)
    | none => .error (.badNumber (String.ofList text), rest)

def flag : Step Bool := fun s =>
  match skipBlanks s with
  | '0' :: cs => .ok (false, cs)
  | '1' :: cs => .ok (true, cs)
  | c :: cs => .error (.badFlag c, cs)
  | [] => .error (.noFlag, [])

def separator : Step Unit := fun s =>
  .ok ((), skipSeparator s)

def point : Step (Point Float) := do
  let x ← number
  separator
  let y ← number
  return ⟨x, y⟩

def segment : Instruction → Step (Segment Float)
  | .moveTo => return .moveTo (← point)
  | .lineTo => return .lineTo (← point)
  | .horizontalTo => return .horizontalTo (← number)
  | .verticalTo => return .verticalTo (← number)
  | .curveTo => do
    let a ← point
    separator
    let b ← point
    separator
    return .curveTo a b (← point)
  | .smoothCurveTo => do
    let b ← point
    separator
    return .smoothCurveTo b (← point)
  | .quadTo => do
    let a ← point
    separator
    return .quadTo a (← point)
  | .smoothQuadTo => return .smoothQuadTo (← point)
  | .arc => do
    let radii ← point
    separator
    let rotation ← number
    separator
    let large ← flag
    separator
    let sweep ← flag
    separator
    return .arc radii rotation large sweep (← point)
  | .closePath => return .closePath

/-! ## Commands -/

/-- The instruction of the command that begins with `c`, and whether a letter
says so.  `before` is the command before it. -/
def instruction (before : Option (Instruction × Bool)) (c : Char) :
    Except Fault (Instruction × Bool × Bool) :=
  if c.isAlpha then
    match Instruction.ofLetter? c with
    | none => .error (.unknownCommand c)
    | some (i, relative) =>
      if before.isNone && i != .moveTo then .error .noMove else .ok (i, relative, true)
  else
    match before with
    | some (.moveTo, relative) => .ok (.lineTo, relative, false)
    | some (.closePath, _) => .error .noCommand
    | some (i, relative) => .ok (i, relative, false)
    | none => .error .noCommand

/-- The command that begins with `c`, and the text after it. -/
def command (before : Option (Instruction × Bool)) (c : Char) (cs : List Char) :
    Except (Fault × List Char) (Command Float × List Char) :=
  match instruction before c with
  | .error fault => .error (fault, c :: cs)
  | .ok (i, relative, lettered) =>
    (segment i (if lettered then cs else c :: cs)).map fun (segment, rest) =>
      (⟨relative, segment⟩, skipSeparator rest)

/-- The commands up to the end of the text.  Each takes a character at least. -/
def commands (before : Option (Instruction × Bool)) :
    List Char → Except (Fault × List Char) (Path Float)
  | [] => .ok []
  | c :: cs =>
    match command before c cs with
    | .error e => .error e
    | .ok (command, rest) =>
      (commands (some (command.segment.instruction, command.relative))
        (cs.drop (cs.length - rest.length))).map (command :: ·)
termination_by s => s.length

end PathReader

namespace Path

def read (d : String) : Except PathReader.Error (Path Float) :=
  let s := d.toList
  (PathReader.commands none (PathReader.skipBlanks s)).mapError fun (fault, rest) =>
    ⟨fault, Text.byteSize s - Text.byteSize rest⟩

end Path
end SvgCompact
