import SvgCompact.Element.Inheritance
import SvgCompact.Element.Kinds
import SvgCompact.Pass.Basic

/-!
Passes that move attributes between groups and their children.

An inherited attribute means the same on a group as on each of its children.
A `transform` is different: two of them are joined, the outer one first, and it
does not move where clipping, masking or filtering would see the difference.
-/

namespace SvgCompact
namespace Pass

/-- Puts an attribute on an element; a `transform` is joined with the one that is
there by `join`. -/
def putJoined (join : String → String → String) (e : Element) (a : Attribute) : Element :=
  match a.name.isNamed "transform", e.attr? "transform" with
  | true, some held => e.setAttr "transform" (join a.value held)
  | _, _ => e.put a

/-! ## From children to their group -/

/-- The elements that the children of a node are, if each of them is one with
attributes and without classes. -/
def plainElements? (d : Document) (id : NodeId) : Option (List Element) :=
  (d.children id).mapM fun c =>
    (d.element? c).filter fun e => !e.attributes.isEmpty && !e.hasAttr "class"

/-- The shared attributes that may stand on a group.  The style of the group
would hide those that it sets; a `transform` stays on paths, and it does not move
into a clip or a mask. -/
def hoistable (group : Element) (children : List Element) : List Attribute :=
  let keepsTransform :=
    children.all Element.hasPathData || group.hasAttr "clip-path" || group.hasAttr "mask"
  (Inheritance.shared children).filter fun a =>
    !(keepsTransform && a.name.isNamed "transform")
      && (a.name.space.isSome || (group.style.get? a.name.stem).isNone)

/-- Moves attributes from the children of a group to the group. -/
def hoist (d : Document) (id : NodeId) (moved : List Attribute) : Document :=
  let names := moved.map (·.name)
  let d := (d.children id).foldl (fun d c =>
    d.updateElement c <| Element.filterAttrs fun a => !names.contains a.name) d
  d.updateElement id fun group =>
    moved.foldl (putJoined fun own outer => outer ++ " " ++ own) group

/-- The attributes that the children of a node have in common and that can move
to it. -/
def hoistedFrom (d : Document) (id : NodeId) : List Attribute :=
  match d.element? id, plainElements? d id with
  | some group, some children =>
    if group.isNamed "g" && 2 ≤ children.length then hoistable group children else []
  | _, _ => []

def moveSharedToGroup : Pass :=
  .bottomUp fun d id =>
    match hoistedFrom d id with
    | [] => (d, .keep)
    | moved => (hoist d id moved, .keep)

/-! ## From a group to its only child -/

/-- What draws an element in its own coordinates. -/
def isTransformSensitive (e : Element) : Bool :=
  e.hasAttr "clip-path" || e.hasAttr "mask" || e.hasAttr "filter"

/-- Whether an attribute of a group can stand on a child instead. -/
def isLowerable (child : Element) (a : Attribute) : Bool :=
  a.name.space.isNone && Inheritance.isInherited a.name.stem
    && (if a.name.stem == "transform" then !isTransformSensitive child
      else !child.hasAttr a.name.stem)

/-- Moves the attributes of a group to its only child if all of them can. -/
def lower (d : Document) (id : NodeId) : Document :=
  match d.children id with
  | [c] =>
    match d.element? id, d.element? c with
    | some group, some child =>
      if group.attributes.all (isLowerable child) then
        let d := d.updateElement c fun child =>
          group.attributes.foldl (putJoined fun outer own => outer ++ " " ++ own) child
        d.updateElement id (Element.filterAttrs fun _ => false)
      else d
    | _, _ => d
  | _ => d

/-- Whether a node is a child of an element that draws one of its children. -/
def isAlternative (d : Document) (id : NodeId) : Bool :=
  (d.parent id).any (d.isNamed · "switch")

/-- Replaces groups without attributes by their children. -/
def collapseGroups : Pass :=
  .bottomUp fun d id =>
    if !d.isNamed id "g" || d.isEmpty id || isAlternative d id then (d, .keep)
    else
      let d := lower d id
      if (d.element? id).any (·.attributes.isEmpty) then (d.unwrap id, .keep) else (d, .keep)

end Pass
end SvgCompact
