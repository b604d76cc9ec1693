import SvgCompact.Document.Wording
import SvgCompact.Element.Inheritance
import SvgCompact.Element.Kinds
import SvgCompact.Geometry.Overlap
import SvgCompact.Pass.Basic
import SvgCompact.Path.Printer
import SvgCompact.Path.Reader

/-!
Merging adjacent paths.

Neighbours with the same attributes are drawn alike, so that one path can draw
both.  They must not overlap, which filling could show, and their strokes must
not reach over one another, unless merging is forced.
-/

namespace SvgCompact
namespace Merging

structure Options where
  force : Bool
  format : PathFormat
deriving DecidableEq, Repr

def Options.default : Options :=
  ⟨false, { PathFormat.default with joinFlags := true }⟩

/-! ## Which paths can be merged at all -/

def hasReference (value : String) : Bool :=
  Text.occursInWord "url(" value

/-- Whether an element sets a paint or a marker by reference that paths below it
inherit.  It would be laid out over the merged path instead of each part. -/
def passesReference (e : Element) : Bool :=
  (e.attributes.any fun a => Inheritance.isInherited a.name.stem && hasReference a.value)
    || e.style.declarations.any fun declaration =>
      Inheritance.isInherited declaration.property && hasReference declaration.value

/-- Whether an element is a path that draws no markers and refers to nothing. -/
def isSimplePath (e : Element) : Bool :=
  e.isNamed "path" && e.hasAttr "d"
    && !e.attributes.any fun a =>
      hasReference a.value || "marker".toList.isPrefixOf a.name.stem.toList

def isMergeable (d : Document) (id : NodeId) : Bool :=
  (d.element? id).any isSimplePath && d.isEmpty id
    && !(d.ancestors id).any fun a => (d.element? a).any passesReference

/-- Whether two elements have the same attributes apart from their path data. -/
def sameAttributes (a b : Element) : Bool :=
  a.attributes.length == b.attributes.length
    && b.attributes.all fun x => x.name.isNamed "d" || a.attributes.contains x

def pathOf? (d : Document) (id : NodeId) : Option (Path Float) :=
  ((d.element? id).bind (·.attr? "d")).bind fun text => (Path.read text).toOption

/-! ## Strokes -/

/-- The value of a property at a node, its own or the nearest above. -/
def effective? (d : Document) (id : NodeId) (name : String) : Option (List Char) :=
  ((id :: d.ancestors id).findSome? fun a => (d.element? a).bind (·.property? name)).map
    fun value => Text.trim value.toList

/-- The width of the stroke of a path, if it may have one.  Without limit is a
width that style sheets may set or that is no plain number. -/
def strokeWidth? (d : Document) (id : NodeId) : Option Float :=
  if d.styleMentions "stroke" then some (1.0 / 0.0)
  else
    match effective? d id "stroke" with
    | none => none
    | some stroke =>
      if stroke == "none".toList then none
      else
        let width := (effective? d id "stroke-width").getD ['1']
        some ((Decimal.read? width).getD (1.0 / 0.0)).abs

/-- Whether two paths can be drawn as one, both with the stroke of a node. -/
def areApart (d : Document) (id : NodeId) (a b : Path Float) : Bool :=
  if Geometry.overlap a b then false
  else
    match strokeWidth? d id with
    | none => true
    | some width =>
      match Geometry.boxOf? a, Geometry.boxOf? b with
      | some a, some b => !(a.pad (width / 2.0)).overlaps (b.pad (width / 2.0))
      | _, _ => false

/-! ## Runs of paths -/

/-- A path into which those after it are merged. -/
structure Target where
  id : NodeId
  path : Path Float

def begin? (d : Document) (id : NodeId) : Option Target :=
  (pathOf? d id).map fun path => ⟨id, path⟩

/-- Joins a path to a run: the run's path draws it, and its own node goes. -/
def absorb (options : Options) (d : Document) (target : Target) (id : NodeId)
    (path : Path Float) : Document × Option Target :=
  let joined := target.path.join path
  ((d.updateElement target.id (·.setAttr "d" (Path.write options.format joined))).detach id,
    some { target with path := joined })

/-- Takes the next child of a node: it joins the run before it, begins a new one,
or ends it. -/
def advance (options : Options) (d : Document) (run : Option Target) (id : NodeId) :
    Document × Option Target :=
  if !isMergeable d id then (d, none)
  else
    match run with
    | none => (d, begin? d id)
    | some target =>
      match d.element? target.id, d.element? id with
      | some before, some next =>
        if !sameAttributes before next then (d, begin? d id)
        else
          match pathOf? d id with
          | none => (d, none)
          | some path =>
            if options.force || areApart d target.id target.path path then
              absorb options d target id path
            else (d, some ⟨id, path⟩)
      | _, _ => (d, none)

def mergeChildren (options : Options) (d : Document) (id : NodeId) : Document :=
  ((d.children id).foldl (fun (d, run) c => advance options d run c) (d, none)).1

end Merging

def Pass.mergePaths (options : Merging.Options) : Pass :=
  .topDown fun d id =>
    if d.isElement id then (Merging.mergeChildren options d id, .keep) else (d, .keep)

end SvgCompact
