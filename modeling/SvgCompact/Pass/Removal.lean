import SvgCompact.Decimal.Reader
import SvgCompact.Element.Kinds
import SvgCompact.Pass.Basic

/-!
Passes that remove what does not show.
-/

namespace SvgCompact
namespace Pass

/-! ## Around the root element -/

def removeDoctype : Pass :=
  .topDown <| .dropping fun
    | .doctype _ => true
    | _ => false

/-- Removes the declaration at the head; other instructions stay. -/
def removeDeclaration : Pass :=
  .topDown <| .dropping fun
    | .instruction target _ => target == "xml"
    | _ => false

/-- Removes comments but those that begin with an exclamation mark. -/
def removeComments : Pass :=
  .topDown <| .dropping fun
    | .comment s => s.toList.head? != some '!'
    | _ => false

/-! ## Descriptions and notes of editors -/

def isEditorName (n : QName) : Bool :=
  n.space == some "sodipodi" || n.space == some "inkscape"

/-- Elements that describe others or that belong to an editor. -/
def isDescriptive (e : Element) : Bool :=
  e.isAnyOf ["metadata", "title", "desc"] || isEditorName e.name

def withoutNotes (e : Element) : Element :=
  e.filterAttrs fun a => !isEditorName a.name && !a.name.isNamed "data-name"

def removeMetadata : Pass :=
  .topDown fun d id =>
    match d.element? id with
    | some e => if isDescriptive e then (d, .drop) else (d.updateElement id withoutNotes, .keep)
    | none => (d, .keep)

/-! ## Elements that are not drawn -/

/-- Whether an element is not displayed or fully transparent. -/
def isHidden (e : Element) : Bool :=
  let trimmed (name : String) : Option (List Char) :=
    (e.property? name).map fun s => Text.trim s.toList
  trimmed "display" == some "none".toList
    || ((trimmed "opacity").bind Decimal.read?).any (· == 0.0)

def isDefined (d : Document) (id : NodeId) : Bool :=
  (d.ancestors id).any fun a => (d.element? a).any Element.isDefinition

/-- Removes hidden elements.  What can be referred to stays: elements with an
id, definitions and what is inside them. -/
def removeHidden : Pass :=
  .topDown fun d id =>
    match d.element? id with
    | some e =>
      if isHidden e && !e.hasAttr "id" && !e.isDefinition && !isDefined d id then (d, .drop)
      else (d, .keep)
    | none => (d, .keep)

/-- Whether a container matters even when it is empty: it can be referred to, a
pattern can take its content from another, and a filter can draw by itself. -/
def mattersEmpty (e : Element) : Bool :=
  e.hasAttr "id" || (e.isNamed "pattern" && !e.attributes.isEmpty)
    || (e.isNamed "g" && e.hasAttr "filter")

def removeEmptyContainers : Pass :=
  .bottomUp fun d id =>
    match d.element? id with
    | some e =>
      if !e.isNamed "svg" && e.isContainer && d.isEmpty id && !mattersEmpty e then (d, .drop)
      else (d, .keep)
    | none => (d, .keep)

/-! ## Declarations of namespaces -/

/-- The labels that names of elements and attributes carry.  A declaration does
not use its own label. -/
def usedSpaces (e : Element) : List String :=
  e.name.space.toList
    ++ (e.attributes.filter fun a => !a.name.isXmlns).filterMap fun a => a.name.space

def removeUnusedNamespaces : Pass :=
  .whole fun d =>
    let elements := d.elements
    let used := (elements.filterMap d.element?).flatMap usedSpaces
    elements.foldl (fun d id => d.updateElement id <| Element.filterAttrs fun a =>
      a.name.space != some "xmlns" || used.contains a.name.stem) d

/-- Removes the default namespace, which markup inside a page does not need. -/
def removeXmlns : Pass :=
  .topDown <| .rewriting fun e => if e.isNamed "svg" then e.removeAttr "xmlns" else e

end Pass
end SvgCompact
