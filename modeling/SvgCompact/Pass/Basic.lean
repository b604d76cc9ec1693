import SvgCompact.Document.Moves

/-!
Passes over a document.

A pass rewrites the whole document at once, or it visits one node after another
and may drop what it visits.  The children of a node are listed before the first
of them is entered; a node that has left its parent since then is passed over.

A walk carries a value along which each visit may change, so that the order of
the visits can be spoken of.  Passes carry nothing.
-/

namespace SvgCompact

/-- Whether a visited node stays in the document. -/
inductive Verdict
  | keep
  | drop
deriving DecidableEq, Repr

/-- A visit rewrites the document and the value carried along, and judges the
node. -/
abbrev Visitor (σ : Type) := σ × Document → NodeId → (σ × Document) × Verdict

namespace Walk

variable {σ : Type}

/-- Visits a node before the nodes below it.  What is below a dropped node is
not visited. -/
def parentsFirst (visit : Visitor σ) : Nat → NodeId → σ × Document → NodeId → σ × Document
  | 0, _, s, _ => s
  | bound + 1, parent, s, id =>
    if s.2.parent id ≠ some parent then s
    else
      match visit s id with
      | (s, .drop) => (s.1, s.2.detach id)
      | (s, .keep) => (s.2.children id).foldl (parentsFirst visit bound id) s

/-- Visits a node after the nodes below it. -/
def childrenFirst (visit : Visitor σ) : Nat → NodeId → σ × Document → NodeId → σ × Document
  | 0, _, s, _ => s
  | bound + 1, parent, s, id =>
    let s := (s.2.children id).foldl (childrenFirst visit bound id) s
    if s.2.parent id ≠ some parent then s
    else
      match visit s id with
      | (s, .drop) => (s.1, s.2.detach id)
      | (s, .keep) => s

/-- Levels that a walk can enter: each node once, and once more for what visits
add. -/
def bound (d : Document) : Nat := 2 * d.size

/-- Walks over the whole document, parents before children. -/
def topDown (visit : Visitor σ) (s : σ × Document) : σ × Document :=
  (s.2.children Document.root).foldl (parentsFirst visit (bound s.2) Document.root) s

/-- Walks over the whole document, children before parents. -/
def bottomUp (visit : Visitor σ) (s : σ × Document) : σ × Document :=
  (s.2.children Document.root).foldl (childrenFirst visit (bound s.2) Document.root) s

end Walk

/-- A visit that carries nothing along. -/
abbrev Visit := Document → NodeId → Document × Verdict

namespace Visit

/-- A visit as a visitor that leaves the carried value alone. -/
def visitor {σ : Type} (visit : Visit) : Visitor σ := fun s id =>
  let (d, verdict) := visit s.2 id
  ((s.1, d), verdict)

/-- Judges nodes by what they hold and changes none. -/
def dropping (p : Content → Bool) : Visit := fun d id =>
  (d, if p (d.content id) then .drop else .keep)

/-- Rewrites the elements and keeps every node. -/
def rewriting (f : Element → Element) : Visit := fun d id =>
  (d.updateElement id f, .keep)

end Visit

inductive Pass
  | whole (run : Document → Document)
  | topDown (visit : Visit)
  | bottomUp (visit : Visit)

/-- Runs a pass once. -/
def Pass.run : Pass → Document → Document
  | whole f, d => f d
  | topDown visit, d => (Walk.topDown visit.visitor ((), d)).2
  | bottomUp visit, d => (Walk.bottomUp visit.visitor ((), d)).2

end SvgCompact
