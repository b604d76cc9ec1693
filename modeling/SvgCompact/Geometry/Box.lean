import SvgCompact.Path.Basic

/-!
Boxes along the axes.
-/

namespace SvgCompact

structure Box (α : Type) where
  minX : α
  minY : α
  maxX : α
  maxY : α
deriving DecidableEq, Repr

namespace Box

variable {α : Type} [Scalar α]

def ofPoint (p : Point α) : Box α := ⟨p.x, p.y, p.x, p.y⟩

def extend (b : Box α) (p : Point α) : Box α :=
  ⟨Scalar.min b.minX p.x, Scalar.min b.minY p.y, Scalar.max b.maxX p.x, Scalar.max b.maxY p.y⟩

def around? : List (Point α) → Option (Box α)
  | [] => none
  | p :: ps => some (ps.foldl extend (ofPoint p))

def pad (margin : α) (b : Box α) : Box α :=
  ⟨b.minX - margin, b.minY - margin, b.maxX + margin, b.maxY + margin⟩

/-- Whether the interiors of two boxes meet. -/
def overlaps (a b : Box α) : Bool :=
  Scalar.lt a.minX b.maxX && Scalar.lt b.minX a.maxX
    && Scalar.lt a.minY b.maxY && Scalar.lt b.minY a.maxY

end Box
end SvgCompact
