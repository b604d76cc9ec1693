import SvgCompact.Geometry.Box
import SvgCompact.Geometry.Hull

/-!
Whether paths may overlap.

`subpaths` lists for each subpath points whose hull contains it.  Answers are on
the safe side: paths that do not overlap here do not overlap when drawn.
-/

namespace SvgCompact
namespace Geometry

variable {α : Type} [Scalar α]

/-- What the next segment of a path depends on: where it begins, where its subpath
began, and the last control point of a cubic or quadratic curve right before. -/
structure Pen (α : Type) where
  current : Point α
  start : Point α
  cubic : Option (Point α)
  quadratic : Option (Point α)

namespace Pen

def initial : Pen α := ⟨Point.origin, Point.origin, none, none⟩

/-- The mirror image of a control point about the current point. -/
def mirror (pen : Pen α) (control : Option (Point α)) : Point α :=
  match control with
  | some c => ⟨Scalar.two * pen.current.x - c.x, Scalar.two * pen.current.y - c.y⟩
  | none => pen.current

/-- The corners of a box around an arc.  An arc without extent is a line. -/
def arcBox (pen : Pen α) (radii stop : Point α) : List (Point α) :=
  let rx := Scalar.abs radii.x
  let ry := Scalar.abs radii.y
  if Scalar.isZero rx || Scalar.isZero ry then []
  else
    let p := pen.current
    let reach := Scalar.reach rx ry (p.x - stop.x) (p.y - stop.y)
    [⟨p.x - reach, p.y - reach⟩, ⟨p.x + reach, p.y - reach⟩, ⟨p.x + reach, p.y + reach⟩,
      ⟨p.x - reach, p.y + reach⟩]

/-- The points of an absolute segment: its end and whatever bends it. -/
def points (pen : Pen α) : Segment α → List (Point α)
  | .moveTo p => [p]
  | .lineTo p => [p]
  | .horizontalTo x => [⟨x, pen.current.y⟩]
  | .verticalTo y => [⟨pen.current.x, y⟩]
  | .curveTo a b p => [a, b, p]
  | .smoothCurveTo b p => [pen.mirror pen.cubic, b, p]
  | .quadTo a p => [a, p]
  | .smoothQuadTo p => [pen.mirror pen.quadratic, p]
  | .arc radii _ _ _ p => pen.arcBox radii p ++ [p]
  | .closePath => []

/-- The pen after an absolute segment. -/
def after (pen : Pen α) (segment : Segment α) : Pen α :=
  let current := segment.finish pen.current pen.start
  let start := segment.nextStart pen.start
  match segment with
  | .curveTo _ b _ => ⟨current, start, some b, none⟩
  | .smoothCurveTo b _ => ⟨current, start, some b, none⟩
  | .quadTo a _ => ⟨current, start, none, some a⟩
  | .smoothQuadTo _ => ⟨current, start, none, some (pen.mirror pen.quadratic)⟩
  | _ => ⟨current, start, none, none⟩

end Pen

/-- The points of the subpaths of an absolute path.  `begun` holds those of the
subpath that is being drawn. -/
def subpathsFrom (pen : Pen α) (begun : List (Point α)) : Path α → List (List (Point α))
  | [] => [begun]
  | c :: rest =>
    let points := pen.points c.segment
    match c.segment with
    | .moveTo _ => begun :: subpathsFrom (pen.after c.segment) points rest
    | _ => subpathsFrom (pen.after c.segment) (begun ++ points) rest

def subpaths (path : Path α) : List (List (Point α)) :=
  (subpathsFrom Pen.initial [] path.absolute).filter (!·.isEmpty)

def boxOf? (path : Path α) : Option (Box α) :=
  Box.around? (subpaths path).flatten

/-- Whether the areas of two paths may overlap. -/
def overlap (a b : Path α) : Bool :=
  match boxOf? a, boxOf? b with
  | some boxA, some boxB =>
    boxA.overlaps boxB &&
      (subpaths a).any fun s => (subpaths b).any fun t => hullsOverlap (hull s) (hull t)
  | _, _ => false

end Geometry
end SvgCompact
