import SvgCompact.Element.Inheritance
import SvgCompact.Element.Kinds
import SvgCompact.Pass.Basic

/-!
Removing values that say what holds anyway.
-/

namespace SvgCompact
namespace Defaults

/-- A property of some elements, and its initial values.  No elements stands for
all. -/
structure Entry where
  elements : List String
  names : List String
  values : List String

def entries : List Entry :=
  [⟨["svg"], ["version"], ["1.1"]⟩,
    ⟨["svg"], ["baseProfile"], ["full", "none"]⟩,
    ⟨["svg"], ["preserveAspectRatio"], ["xMidYMid meet", "xMidYMid"]⟩,
    ⟨["svg"], ["x", "y"], ["0"]⟩,
    ⟨[], ["fill-opacity", "stroke-opacity", "opacity", "stop-opacity"], ["1"]⟩,
    ⟨[], ["stroke-width"], ["1"]⟩,
    ⟨[], ["stroke-linecap"], ["butt"]⟩,
    ⟨[], ["stroke-linejoin"], ["miter"]⟩,
    ⟨[], ["stroke-miterlimit"], ["4"]⟩,
    ⟨[], ["stroke-dashoffset"], ["0"]⟩,
    ⟨[], ["stroke-dasharray"], ["none"]⟩,
    ⟨[], ["fill-rule", "clip-rule"], ["nonzero"]⟩,
    ⟨[], ["font-style"], ["normal"]⟩,
    ⟨[], ["font-weight"], ["normal", "400"]⟩,
    ⟨[], ["text-anchor"], ["start"]⟩,
    ⟨[], ["dominant-baseline"], ["auto"]⟩,
    ⟨[], ["visibility"], ["visible"]⟩,
    ⟨[], ["display"], ["inline"]⟩,
    ⟨["rect"], ["rx", "ry", "x", "y"], ["0"]⟩,
    ⟨["circle", "ellipse"], ["cx", "cy"], ["0"]⟩,
    ⟨["line"], ["x1", "y1", "x2", "y2"], ["0"]⟩]

/-- Whether a value is an initial one of a property of an element.  Blanks around
it do not count. -/
def isDefault (element name value : String) : Bool :=
  let trimmed := String.ofList (Text.trim value.toList)
  entries.any fun entry =>
    (entry.elements.isEmpty || entry.elements.contains element) && entry.names.contains name
      && entry.values.contains trimmed

/-- Whether an element above a node sets a property. -/
def isSetAbove (d : Document) (id : NodeId) (name : String) : Bool :=
  (d.ancestors id).any fun a => (d.element? a).any fun e => (e.property? name).isSome

/-- Whether an initial value can go: nothing above would take its place. -/
def isRemovable (d : Document) (id : NodeId) (element name value : String) : Bool :=
  isDefault element name value && !(Inheritance.isInherited name && isSetAbove d id name)

/-- The names of the attributes that can go. -/
def removableNames (d : Document) (id : NodeId) (e : Element) : List String :=
  (e.attributes.filter fun a =>
    a.name.space.isNone && isRemovable d id e.name.stem a.name.stem a.value).map (·.name.stem)

end Defaults

/-- Removes attributes that restate initial values. -/
def Pass.removeDefaults : Pass :=
  .topDown fun d id =>
    match d.element? id with
    | some e =>
      (d.updateElement id fun e' => (Defaults.removableNames d id e).foldl Element.removeAttr e',
        .keep)
    | none => (d, .keep)

end SvgCompact
