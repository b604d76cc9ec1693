import SvgCompact.Element.Basic

/-!
Presentation attributes that children inherit.
-/

namespace SvgCompact
namespace Inheritance

/-- The attributes whose value an element takes from its parent when it has none
of its own. -/
def names : List String :=
  ["clip-rule", "color", "color-interpolation", "color-interpolation-filters", "color-profile",
    "color-rendering", "cursor", "direction", "dominant-baseline", "fill", "fill-opacity",
    "fill-rule", "font", "font-family", "font-size", "font-size-adjust", "font-stretch",
    "font-style", "font-variant", "font-weight", "glyph-orientation-horizontal",
    "glyph-orientation-vertical", "image-rendering", "letter-spacing", "marker", "marker-end",
    "marker-mid", "marker-start", "paint-order", "pointer-events", "shape-rendering", "stroke",
    "stroke-dasharray", "stroke-dashoffset", "stroke-linecap", "stroke-linejoin",
    "stroke-miterlimit", "stroke-opacity", "stroke-width", "text-anchor", "text-rendering",
    "transform", "visibility", "word-spacing", "writing-mode"]

def isInherited (name : String) : Bool :=
  names.contains name

/-- The inherited attributes that all elements share, in the order of the first. -/
def shared : List Element → List Attribute
  | [] => []
  | e :: rest =>
    e.attributes.filter fun a =>
      a.name.space.isNone && isInherited a.name.stem && rest.all (·.attributes.contains a)

end Inheritance
end SvgCompact
