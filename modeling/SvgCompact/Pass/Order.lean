import SvgCompact.Pass.Basic
import SvgCompact.Text.Measure

/-!
Putting like definitions next to each other.
-/

namespace SvgCompact
namespace DefsOrder

/-- The name by which a child is sorted; other nodes have the empty name. -/
def key (d : Document) (id : NodeId) : String :=
  match d.element? id with
  | some e => e.name.full
  | none => ""

/-- Frequent names come first, then longer ones, then later ones in order. -/
def precedes (names : List String) (a b : String) : Bool :=
  if names.count a ≠ names.count b then names.count b < names.count a
  else if Text.byteSize a.toList ≠ Text.byteSize b.toList then
    Text.byteSize b.toList < Text.byteSize a.toList
  else Text.precedes b a

/-- The children of a node in order.  Children of one name keep theirs. -/
def sorted (d : Document) (id : NodeId) : List NodeId :=
  let names := (d.children id).map (key d)
  (d.children id).mergeSort fun a b => precedes names (key d a) (key d b)

end DefsOrder

/-- Sorts the children of definitions, which makes the markup easier to
compress. -/
def Pass.sortDefs : Pass :=
  .topDown fun d id =>
    if d.isNamed id "defs" then (d.setChildren id (DefsOrder.sorted d id), .keep)
    else (d, .keep)

end SvgCompact
