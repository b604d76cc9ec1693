import SvgCompact.Path.Basic

/-!
Convex hulls and separating axes.

Main definitions: `hull` goes round the outermost points counter-clockwise, and
`hullsOverlap` looks for a direction in which two hulls lie apart.
-/

namespace SvgCompact
namespace Geometry

variable {α : Type} [Scalar α]

/-- The area that `o`, `a` and `b` span, negative when they turn clockwise. -/
def cross (o a b : Point α) : α :=
  (a.x - o.x) * (b.y - o.y) - (a.y - o.y) * (b.x - o.x)

/-- The order of points from left to right, then from bottom to top. -/
def pointSorts (p q : Point α) : Bool :=
  if Scalar.sorts p.x q.x then
    if Scalar.sorts q.x p.x then Scalar.sorts p.y q.y else true
  else false

def samePoint (p q : Point α) : Bool :=
  Scalar.same p.x q.x && Scalar.same p.y q.y

/-- Drops points that are the same as the one before them. -/
def distinct : List (Point α) → List (Point α)
  | [] => []
  | p :: ps => p :: distinctAfter p ps
where
  distinctAfter (before : Point α) : List (Point α) → List (Point α)
    | [] => []
    | p :: ps => if samePoint p before then distinctAfter before ps else p :: distinctAfter p ps

/-- Drops the last points of a half hull, which comes in reverse, as long as the
way over them to `p` does not turn counter-clockwise. -/
def dropTurns (p : Point α) : List (Point α) → List (Point α)
  | b :: a :: rest =>
    if Scalar.le (cross a b p) Scalar.zero then dropTurns p (a :: rest) else b :: a :: rest
  | l => l

/-- The half hull over points in order, in reverse. -/
def halfHull (points : List (Point α)) : List (Point α) :=
  points.foldl (fun half p => p :: dropTurns p half) []

/-- The outermost points, counter-clockwise.  One or two points are their own
hull, and so are the ends of points on a line. -/
def hull (points : List (Point α)) : List (Point α) :=
  let sorted := distinct (points.mergeSort pointSorts)
  if sorted.length < 3 then sorted
  else (halfHull sorted).tail.reverse ++ (halfHull sorted.reverse).tail.reverse

def sides : List (Point α) → List (Point α)
  | [] => []
  | p :: ps => (List.zip (p :: ps) (ps ++ [p])).map fun (a, b) => b.sub a

/-- The directions across the sides of a hull.  A hull of two points is also
looked at along its side. -/
def axes (hull : List (Point α)) : List (Point α) :=
  (sides hull).flatMap fun side =>
    if Scalar.isZero side.x && Scalar.isZero side.y then []
    else if hull.length = 2 then [⟨-side.y, side.x⟩, side]
    else [⟨-side.y, side.x⟩]

def project (axis p : Point α) : α :=
  p.x * axis.x + p.y * axis.y

/-- The least and the greatest projection of a point and others. -/
def extent (axis p : Point α) (ps : List (Point α)) : α × α :=
  ps.foldl (fun (low, high) q =>
    (Scalar.min low (project axis q), Scalar.max high (project axis q)))
    (project axis p, project axis p)

/-- Whether no axis separates two hulls. -/
def hullsOverlap : List (Point α) → List (Point α) → Bool
  | p :: ps, q :: qs =>
    let units : List (Point α) := [⟨Scalar.one, Scalar.zero⟩, ⟨Scalar.zero, Scalar.one⟩]
    (units ++ axes (p :: ps) ++ axes (q :: qs)).all fun axis =>
      let (lowA, highA) := extent axis p ps
      let (lowB, highB) := extent axis q qs
      Scalar.lt lowB highA && Scalar.lt lowA highB
  | _, _ => false

end Geometry
end SvgCompact
