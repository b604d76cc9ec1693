import SvgCompact.Element.Basic

/-!
What kinds of elements there are.
-/

namespace SvgCompact
namespace Element

/-- The elements that group or define other content. -/
def containerNames : List String :=
  ["a", "clipPath", "defs", "g", "marker", "mask", "pattern", "svg", "switch", "symbol"]

/-- The containers whose content is drawn only where something refers to it. -/
def definitionNames : List String :=
  ["clipPath", "defs", "marker", "mask", "pattern", "symbol"]

/-- The elements whose shape is given by path data. -/
def pathNames : List String :=
  ["path", "glyph", "missing-glyph"]

def isContainer (e : Element) : Bool :=
  e.isAnyOf containerNames

def isDefinition (e : Element) : Bool :=
  e.isAnyOf definitionNames

def hasPathData (e : Element) : Bool :=
  e.isAnyOf pathNames

/-- The value of a property: the inline style comes before the attribute. -/
def property? (e : Element) (name : String) : Option String :=
  (e.style.get? name).orElse fun _ => e.attr? name

end Element
end SvgCompact
