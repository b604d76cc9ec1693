import SvgCompact.Selector.Basic
import SvgCompact.Document.Basic

/-!
Which elements a selector matches.

Every element that a combinator can reach is listed first, and a chain matches
when one of them matches the rest of it.
-/

namespace SvgCompact
namespace Document

/-! ## Simple selectors -/

def testValue (sign : Css.MatchSign) (want actual : List Char) : Bool :=
  match sign with
  | .includes => (Text.words actual).contains want
  | .dash => actual == want || (want ++ ['-']).isPrefixOf actual
  | .start => !want.isEmpty && want.isPrefixOf actual
  | .finish => !want.isEmpty && want.isSuffixOf actual
  | .substring => !want.isEmpty && Text.occursIn want actual

def matchesAttribute (e : Element) (a : AttributeSelector) : Bool :=
  match e.attr? a.name with
  | none => false
  | some actual =>
    let fold (s : String) : List Char := if a.ignoreCase then Text.lower s.toList else s.toList
    match a.test with
    | .present => true
    | .equals => fold actual == fold a.value
    | .matching sign => testValue sign (fold a.value) (fold actual)

/-- The elements among which the place of an element counts.  Without a parent
it stands alone. -/
def family (d : Document) (id : NodeId) : List NodeId :=
  match d.parent id with
  | some p => d.childElements p
  | none => [id]

/-- Those of the family that have the same name as an element. -/
def sameNamed (d : Document) (id : NodeId) : List NodeId :=
  match d.element? id with
  | none => []
  | some e => (d.family id).filter fun other =>
      match d.element? other with
      | some o => o.name == e.name
      | none => false

/-- The place of a node in a list, from one; zero when it is not there. -/
def placeIn (id : NodeId) (l : List NodeId) : Nat :=
  match l.idxOf? id with
  | some i => i + 1
  | none => 0

/-- Whether a node has no content to speak of. -/
def isBare (d : Document) (id : NodeId) : Bool :=
  match d.content id with
  | .comment _ => true
  | .instruction _ _ => true
  | .text s => s.isEmpty
  | .cdata s => s.isEmpty
  | _ => false

def matchesPlace (d : Document) (id : NodeId) : Place → Bool
  | .firstChild => (d.family id).head? == some id
  | .lastChild => (d.family id).getLast? == some id
  | .onlyChild => (d.family id).length == 1
  | .firstOfType => (d.sameNamed id).head? == some id
  | .lastOfType => (d.sameNamed id).getLast? == some id
  | .onlyOfType => (d.sameNamed id).length == 1
  | .root =>
    match d.parent id with
    | some p => d.content p == .root
    | none => false
  | .empty => (d.children id).all d.isBare

def matchesNth (d : Document) (id : NodeId) (counting : Counting) (nth : Nth) : Bool :=
  let counted := if counting.sameType then d.sameNamed id else d.family id
  nth.selects (placeIn id (if counting.fromEnd then counted.reverse else counted))

mutual

def matchesSimple (d : Document) (id : NodeId) (e : Element) : SimpleSelector → Bool
  | .universal => true
  | .type name => e.isNamed name
  | .id name => e.attr? "id" == some name
  | .hasClass name => e.hasClass name
  | .attr a => matchesAttribute e a
  | .place p => d.matchesPlace id p
  | .nth counting nth => d.matchesNth id counting nth
  | .negation options => !matchesSome d id e options
  | .dynamic _ _ => false
  | .pseudoElement _ => false

def matchesAll (d : Document) (id : NodeId) (e : Element) : List SimpleSelector → Bool
  | [] => true
  | s :: rest => matchesSimple d id e s && matchesAll d id e rest

def matchesSome (d : Document) (id : NodeId) (e : Element) : List (List SimpleSelector) → Bool
  | [] => false
  | c :: rest => matchesAll d id e c || matchesSome d id e rest

end

def matchesCompound (d : Document) (id : NodeId) (c : CompoundSelector) : Bool :=
  match d.element? id with
  | some e => matchesAll d id e c
  | none => false

/-! ## Complex selectors -/

/-- The elements above a node, nearest first, as far as no other node comes
between. -/
def ancestorElements (d : Document) (id : NodeId) : List NodeId :=
  (d.ancestors id).takeWhile d.isElement

/-- The elements that a combinator reaches from an element on its right. -/
def reached (d : Document) (k : Combinator) (id : NodeId) : List NodeId :=
  match k with
  | .descendant => d.ancestorElements id
  | .child => (d.ancestorElements id).take 1
  | .nextSibling => (d.precedingElements id).take 1
  | .laterSibling => d.precedingElements id

def satisfies (d : Document) (id : NodeId) : ComplexSelector → Bool
  | .compound c => d.matchesCompound id c
  | .combined left k c =>
    d.matchesCompound id c && (d.reached k id).any fun other => satisfies d other left

def matchesList (d : Document) (id : NodeId) (l : SelectorList) : Bool :=
  l.any (d.satisfies id)

/-- The nodes below `scope` that match a list, in document order. -/
def select (d : Document) (scope : NodeId) (l : SelectorList) : List NodeId :=
  (d.subtree scope).filter fun id => id != scope && d.matchesList id l

end Document
end SvgCompact
