import SvgCompact.Scalar

/-!
Path data.

A path is a list of commands.  Each kind of segment has as many coordinates as
it needs, and the flags of an arc are truth values.
-/

namespace SvgCompact

structure Point (α : Type) where
  x : α
  y : α
deriving DecidableEq, Repr

namespace Point

variable {α : Type} [Scalar α]

def origin : Point α := ⟨Scalar.zero, Scalar.zero⟩

def add (p q : Point α) : Point α := ⟨p.x + q.x, p.y + q.y⟩

def sub (p q : Point α) : Point α := ⟨p.x - q.x, p.y - q.y⟩

end Point

inductive Segment (α : Type)
  | moveTo (stop : Point α)
  | lineTo (stop : Point α)
  | horizontalTo (x : α)
  | verticalTo (y : α)
  | curveTo (control₁ control₂ stop : Point α)
  | smoothCurveTo (control₂ stop : Point α)
  | quadTo (control stop : Point α)
  | smoothQuadTo (stop : Point α)
  | arc (radii : Point α) (rotation : α) (large sweep : Bool) (stop : Point α)
  | closePath
deriving DecidableEq, Repr

/-- What a command does, apart from its coordinates. -/
inductive Instruction
  | moveTo
  | lineTo
  | horizontalTo
  | verticalTo
  | curveTo
  | smoothCurveTo
  | quadTo
  | smoothQuadTo
  | arc
  | closePath
deriving DecidableEq, Repr

namespace Instruction

def upper : Instruction → Char
  | moveTo => 'M'
  | lineTo => 'L'
  | horizontalTo => 'H'
  | verticalTo => 'V'
  | curveTo => 'C'
  | smoothCurveTo => 'S'
  | quadTo => 'Q'
  | smoothQuadTo => 'T'
  | arc => 'A'
  | closePath => 'Z'

/-- The letter; relative forms are lower case. -/
def letter (i : Instruction) (relative : Bool) : Char :=
  if relative then i.upper.toLower else i.upper

def all : List Instruction :=
  [moveTo, lineTo, horizontalTo, verticalTo, curveTo, smoothCurveTo, quadTo, smoothQuadTo, arc,
    closePath]

/-- The instruction of a letter, and whether it is relative. -/
def ofLetter? (c : Char) : Option (Instruction × Bool) :=
  (all.find? fun i => i.upper == c.toUpper).map fun i => (i, c.isLower)

def arity : Instruction → Nat
  | closePath => 0
  | horizontalTo => 1
  | verticalTo => 1
  | moveTo => 2
  | lineTo => 2
  | smoothQuadTo => 2
  | smoothCurveTo => 4
  | quadTo => 4
  | curveTo => 6
  | arc => 7

end Instruction

/-- An argument as it is written: a number or a flag of an arc. -/
inductive Argument (α : Type)
  | number (x : α)
  | flag (b : Bool)
deriving DecidableEq, Repr

def Point.arguments {α : Type} (p : Point α) : List (Argument α) :=
  [.number p.x, .number p.y]

namespace Segment

variable {α : Type}

def instruction : Segment α → Instruction
  | moveTo _ => .moveTo
  | lineTo _ => .lineTo
  | horizontalTo _ => .horizontalTo
  | verticalTo _ => .verticalTo
  | curveTo _ _ _ => .curveTo
  | smoothCurveTo _ _ => .smoothCurveTo
  | quadTo _ _ => .quadTo
  | smoothQuadTo _ => .smoothQuadTo
  | arc _ _ _ _ _ => .arc
  | closePath => .closePath

/-- The arguments in the order of the text. -/
def arguments : Segment α → List (Argument α)
  | moveTo p => p.arguments
  | lineTo p => p.arguments
  | horizontalTo x => [.number x]
  | verticalTo y => [.number y]
  | curveTo a b p => a.arguments ++ b.arguments ++ p.arguments
  | smoothCurveTo b p => b.arguments ++ p.arguments
  | quadTo a p => a.arguments ++ p.arguments
  | smoothQuadTo p => p.arguments
  | arc radii rotation large sweep p =>
    radii.arguments ++ [.number rotation, .flag large, .flag sweep] ++ p.arguments
  | closePath => []

variable [Scalar α]

/-- The segment with its coordinates moved; radii and rotation stay. -/
def shift (by_ : Point α) : Segment α → Segment α
  | moveTo p => moveTo (p.add by_)
  | lineTo p => lineTo (p.add by_)
  | horizontalTo x => horizontalTo (x + by_.x)
  | verticalTo y => verticalTo (y + by_.y)
  | curveTo a b p => curveTo (a.add by_) (b.add by_) (p.add by_)
  | smoothCurveTo b p => smoothCurveTo (b.add by_) (p.add by_)
  | quadTo a p => quadTo (a.add by_) (p.add by_)
  | smoothQuadTo p => smoothQuadTo (p.add by_)
  | arc radii rotation large sweep p => arc radii rotation large sweep (p.add by_)
  | closePath => closePath

/-- Where an absolute segment ends that begins at `current` in a subpath that
begins at `start`. -/
def finish (current start : Point α) : Segment α → Point α
  | moveTo p => p
  | lineTo p => p
  | horizontalTo x => ⟨x, current.y⟩
  | verticalTo y => ⟨current.x, y⟩
  | curveTo _ _ p => p
  | smoothCurveTo _ p => p
  | quadTo _ p => p
  | smoothQuadTo p => p
  | arc _ _ _ _ p => p
  | closePath => start

/-- Where the subpath begins after an absolute segment. -/
def nextStart (start : Point α) : Segment α → Point α
  | moveTo p => p
  | _ => start

end Segment

structure Command (α : Type) where
  relative : Bool
  segment : Segment α
deriving DecidableEq, Repr

def Command.letter {α : Type} (c : Command α) : Char :=
  c.segment.instruction.letter c.relative

abbrev Path (α : Type) := List (Command α)

namespace Path

variable {α : Type}

/-- Reads a leading move as absolute, as it is at the start of a path. -/
def anchored : Path α → Path α
  | ⟨_, .moveTo p⟩ :: rest => ⟨false, .moveTo p⟩ :: rest
  | path => path

def join (a b : Path α) : Path α :=
  a ++ b.anchored

variable [Scalar α]

/-- The absolute form of commands that begin at `current` in a subpath that
begins at `start`. -/
def absoluteFrom (current start : Point α) : Path α → Path α
  | [] => []
  | c :: rest =>
    let segment := c.segment.shift (if c.relative then current else Point.origin)
    ⟨false, segment⟩
      :: absoluteFrom (segment.finish current start) (segment.nextStart start) rest

def absolute (path : Path α) : Path α :=
  absoluteFrom Point.origin Point.origin path

end Path
end SvgCompact
