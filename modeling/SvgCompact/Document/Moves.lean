import SvgCompact.Document.Basic

/-!
Creating, moving and copying nodes.

Every move unlinks what it moves before it links it again, so a node has at
most one parent and stands in one list of children only.
-/

namespace SvgCompact
namespace Document

/-! ## Writing to one node -/

def modify (d : Document) (id : NodeId) (f : Node → Node) : Document :=
  ⟨d.nodes.modify id f⟩

def setContent (d : Document) (id : NodeId) (content : Content) : Document :=
  d.modify id fun node => { node with content }

def setParent (d : Document) (id : NodeId) (parent : Option NodeId) : Document :=
  d.modify id fun node => { node with parent }

def setChildren (d : Document) (id : NodeId) (children : List NodeId) : Document :=
  d.modify id fun node => { node with children }

def updateElement (d : Document) (id : NodeId) (f : Element → Element) : Document :=
  match d.element? id with
  | some e => d.setContent id (.element (f e))
  | none => d

/-! ## Creating -/

/-- Adds a node without parent at the end of the table. -/
def create (d : Document) (content : Content) : Document × NodeId :=
  (⟨d.nodes.push ⟨content, none, []⟩⟩, d.size)

/-! ## Moving -/

def detach (d : Document) (id : NodeId) : Document :=
  match d.parent id with
  | some p => (d.setParent id none).modify p fun node =>
      { node with children := node.children.filter (· != id) }
  | none => d

def detachAll (d : Document) (ids : List NodeId) : Document :=
  ids.foldl detach d

/-- Moves `child` below `parent`, to the place `index` of the children without
it, or to their end. -/
def insertChild (d : Document) (parent : NodeId) (index : Nat) (child : NodeId) : Document :=
  let d := d.detach child
  let children := d.children parent
  (d.setChildren parent (children.take index ++ child :: children.drop index)).setParent
    child (some parent)

def appendChild (d : Document) (parent child : NodeId) : Document :=
  d.insertChild parent (d.children parent).length child

def append (d : Document) (parent : NodeId) (content : Content) : Document × NodeId :=
  let (d, id) := d.create content
  (d.appendChild parent id, id)

/-- Unlinks `child` if it is a child of `parent`; says whether it was. -/
def removeChild (d : Document) (parent child : NodeId) : Document × Bool :=
  if d.parent child = some parent then (d.detach child, true) else (d, false)

/-- Puts `new` in the place of the child `old`, which is unlinked; says whether
`old` was a child. -/
def replaceChild (d : Document) (parent old new : NodeId) : Document × Bool :=
  if d.parent old ≠ some parent ∨ old = new then (d, false)
  else
    let d := d.detach new
    match d.indexInParent? old with
    | some i =>
      let d := d.setChildren parent ((d.children parent).set i new)
      ((d.setParent new (some parent)).setParent old none, true)
    | none => (d, false)

/-- Replaces the children from place `start` up to place `stop` and returns them
unlinked.  The replacement leaves its old places first, and both places are
counted after that. -/
def splice (d : Document) (parent : NodeId) (start stop : Nat) (replacement : List NodeId) :
    Document × List NodeId :=
  let d := d.detachAll replacement
  let children := d.children parent
  let removed := (children.take stop).drop start
  let d := d.setChildren parent
    (children.take start ++ replacement ++ children.drop (max start stop))
  let d := removed.foldl (fun d id => d.setParent id none) d
  (replacement.foldl (fun d id => d.setParent id (some parent)) d, removed)

/-- Puts the children of a node in its place.  A node without parent stays. -/
def unwrap (d : Document) (id : NodeId) : Document :=
  match d.parent id, d.indexInParent? id with
  | some p, some i =>
    let children := d.children id
    ((d.setChildren id []).splice p i (i + 1) children).1
  | _, _ => d

/-! ## Copying -/

def copyWithin : Nat → Document → NodeId → Document × NodeId
  | 0, d, id => d.create (d.content id)
  | bound + 1, d, id =>
    let children := d.children id
    let (d, copy) := d.create (d.content id)
    let d := children.foldl (fun d child =>
      let (d, childCopy) := copyWithin bound d child
      d.appendChild copy childCopy) d
    (d, copy)

/-- Copies a node with all nodes below it.  The copies are new nodes in document
order, and the first has no parent. -/
def copy (d : Document) (id : NodeId) : Document × NodeId :=
  copyWithin d.size d id

end Document
end SvgCompact
