import SvgCompact.Element.Basic

/-!
Documents as tables of nodes.

A node is named by its place in the table.  It lists its children in order and
names its parent, so that both directions can be walked; the moves of
`SvgCompact.Document.Moves` keep the two in step.  Walks along links are bounded
by the size of the table, which no path without repetition exceeds.
-/

namespace SvgCompact

inductive Content
  /-- The document itself, above the prolog, the root element and what follows it. -/
  | root
  | element (e : Element)
  | text (s : String)
  | comment (s : String)
  | cdata (s : String)
  | instruction (target body : String)
  | doctype (body : String)
deriving DecidableEq, Repr

namespace Content

def element? : Content → Option Element
  | element e => some e
  | _ => none

def isElement (c : Content) : Bool :=
  c.element?.isSome

/-- The characters of text and of character data sections. -/
def characters? : Content → Option String
  | text s => some s
  | cdata s => some s
  | _ => none

end Content

abbrev NodeId := Nat

structure Node where
  content : Content
  parent : Option NodeId
  children : List NodeId
deriving Repr

structure Document where
  nodes : Array Node
deriving Repr

namespace Document

def root : NodeId := 0

/-- A document that holds its root only. -/
def empty : Document := ⟨#[⟨.root, none, []⟩]⟩

def size (d : Document) : Nat := d.nodes.size

/-! ## Nodes -/

def content (d : Document) (id : NodeId) : Content :=
  match d.nodes[id]? with
  | some node => node.content
  | none => .root

def parent (d : Document) (id : NodeId) : Option NodeId :=
  match d.nodes[id]? with
  | some node => node.parent
  | none => none

def children (d : Document) (id : NodeId) : List NodeId :=
  match d.nodes[id]? with
  | some node => node.children
  | none => []

def element? (d : Document) (id : NodeId) : Option Element :=
  (d.content id).element?

def isElement (d : Document) (id : NodeId) : Bool :=
  (d.content id).isElement

def isNamed (d : Document) (id : NodeId) (name : String) : Bool :=
  match d.element? id with
  | some e => e.isNamed name
  | none => false

def isEmpty (d : Document) (id : NodeId) : Bool :=
  (d.children id).isEmpty

/-! ## Neighbours -/

def childElements (d : Document) (id : NodeId) : List NodeId :=
  (d.children id).filter d.isElement

def rootElement? (d : Document) : Option NodeId :=
  (d.childElements root).head?

def siblings (d : Document) (id : NodeId) : List NodeId :=
  match d.parent id with
  | some p => d.children p
  | none => []

def indexInParent? (d : Document) (id : NodeId) : Option Nat :=
  (d.siblings id).idxOf? id

/-- The sibling elements before a node, nearest first. -/
def precedingElements (d : Document) (id : NodeId) : List NodeId :=
  match d.indexInParent? id with
  | some i => ((d.siblings id).take i).reverse.filter d.isElement
  | none => []

def previousElement? (d : Document) (id : NodeId) : Option NodeId :=
  (d.precedingElements id).head?

def nextSibling? (d : Document) (id : NodeId) : Option NodeId :=
  (d.indexInParent? id).bind fun i => (d.siblings id)[i + 1]?

/-- The first `bound` nodes on the way up, nearest first. -/
def ancestorsWithin (d : Document) : Nat → NodeId → List NodeId
  | 0, _ => []
  | bound + 1, id =>
    match d.parent id with
    | some p => p :: ancestorsWithin d bound p
    | none => []

def ancestors (d : Document) (id : NodeId) : List NodeId :=
  d.ancestorsWithin d.size id

/-- The nearest element of a name above a node. -/
def closest? (d : Document) (id : NodeId) (name : String) : Option NodeId :=
  (d.ancestors id).find? (d.isNamed · name)

/-! ## Subtrees -/

def subtreeWithin (d : Document) : Nat → NodeId → List NodeId
  | 0, id => [id]
  | bound + 1, id => id :: (d.children id).flatMap (subtreeWithin d bound)

/-- A node and all nodes below it in document order. -/
def subtree (d : Document) (id : NodeId) : List NodeId :=
  d.subtreeWithin d.size id

def elements (d : Document) : List NodeId :=
  (d.subtree root).filter d.isElement

/-- The characters of the text and character data below a node, joined. -/
def textContent (d : Document) (id : NodeId) : String :=
  String.join ((d.children id).filterMap fun c => (d.content c).characters?)

/-- Whether every node that can be reached is named as parent by its children. -/
def isConsistent (d : Document) : Bool :=
  (d.subtree root).all fun id => (d.children id).all fun c => d.parent c == some id

end Document
end SvgCompact
