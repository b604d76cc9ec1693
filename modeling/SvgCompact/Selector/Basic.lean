import SvgCompact.Selector.Nth

/-!
Selectors.

A compound selector is a list of simple selectors that one element has to
match.  A complex selector is a chain of compounds, read from the right: the
last compound is tested on the element itself, and each combinator says where
to look for the element of the compound before it.
-/

namespace SvgCompact

inductive Combinator
  | descendant
  | child
  | nextSibling
  | laterSibling
deriving DecidableEq, Repr

/-- How the value of an attribute is tested. -/
inductive AttributeTest
  | present
  | equals
  | matching (sign : Css.MatchSign)
deriving DecidableEq, Repr

/-- A selector such as `[fill=red i]`.  The name is qualified by a colon. -/
structure AttributeSelector where
  name : String
  test : AttributeTest
  value : String
  ignoreCase : Bool
deriving DecidableEq, Repr

/-- Pseudo-classes for the place of an element, without argument. -/
inductive Place
  | firstChild
  | lastChild
  | onlyChild
  | firstOfType
  | lastOfType
  | onlyOfType
  | root
  | empty
deriving DecidableEq, Repr

def Place.name : Place → String
  | firstChild => "first-child"
  | lastChild => "last-child"
  | onlyChild => "only-child"
  | firstOfType => "first-of-type"
  | lastOfType => "last-of-type"
  | onlyOfType => "only-of-type"
  | root => "root"
  | empty => "empty"

def Place.all : List Place :=
  [.firstChild, .lastChild, .onlyChild, .firstOfType, .lastOfType, .onlyOfType, .root, .empty]

/-- Which siblings are counted, and from which end. -/
structure Counting where
  sameType : Bool
  fromEnd : Bool
deriving DecidableEq, Repr

def Counting.name : Counting → String
  | ⟨false, false⟩ => "nth-child"
  | ⟨false, true⟩ => "nth-last-child"
  | ⟨true, false⟩ => "nth-of-type"
  | ⟨true, true⟩ => "nth-last-of-type"

def Counting.all : List Counting :=
  [⟨false, false⟩, ⟨false, true⟩, ⟨true, false⟩, ⟨true, true⟩]

inductive SimpleSelector
  | universal
  | type (name : String)
  | id (name : String)
  | hasClass (name : String)
  | attr (a : AttributeSelector)
  | place (p : Place)
  | nth (counting : Counting) (nth : Nth)
  | negation (options : List (List SimpleSelector))
  /-- Pseudo-classes for states that a document at rest never has. -/
  | dynamic (name : String) (argument : Option String)
  | pseudoElement (name : String)

abbrev CompoundSelector := List SimpleSelector

inductive ComplexSelector
  | compound (c : CompoundSelector)
  | combined (left : ComplexSelector) (combinator : Combinator) (c : CompoundSelector)

abbrev SelectorList := List ComplexSelector

namespace ComplexSelector

def compounds : ComplexSelector → List CompoundSelector
  | compound c => [c]
  | combined left _ c => left.compounds ++ [c]

def combinators : ComplexSelector → List Combinator
  | compound _ => []
  | combined left k _ => left.combinators ++ [k]

def map (f : CompoundSelector → CompoundSelector) : ComplexSelector → ComplexSelector
  | compound c => compound (f c)
  | combined left k c => combined (left.map f) k (f c)

end ComplexSelector

/-! ## Specificity -/

/-- The numbers of ids, of classes and their like, and of types and their like. -/
structure Specificity where
  ids : Nat
  classes : Nat
  types : Nat
deriving DecidableEq, Repr

namespace Specificity

def zero : Specificity := ⟨0, 0, 0⟩

def add (a b : Specificity) : Specificity :=
  ⟨a.ids + b.ids, a.classes + b.classes, a.types + b.types⟩

/-- Compares ids first, types last. -/
def lt (a b : Specificity) : Bool :=
  a.ids < b.ids
    ∨ (a.ids = b.ids ∧ (a.classes < b.classes ∨ (a.classes = b.classes ∧ a.types < b.types)))

def max (a b : Specificity) : Specificity :=
  if a.lt b then b else a

def sum (l : List Specificity) : Specificity :=
  l.foldl add zero

end Specificity

mutual

def SimpleSelector.specificity : SimpleSelector → Specificity
  | .universal => .zero
  | .id _ => ⟨1, 0, 0⟩
  | .hasClass _ => ⟨0, 1, 0⟩
  | .attr _ => ⟨0, 1, 0⟩
  | .place _ => ⟨0, 1, 0⟩
  | .nth _ _ => ⟨0, 1, 0⟩
  | .dynamic _ _ => ⟨0, 1, 0⟩
  | .negation options => SimpleSelector.specificityOfOptions options
  | .type _ => ⟨0, 0, 1⟩
  | .pseudoElement _ => ⟨0, 0, 1⟩

/-- The greatest specificity among options. -/
def SimpleSelector.specificityOfOptions : List (List SimpleSelector) → Specificity
  | [] => .zero
  | c :: cs =>
    (SimpleSelector.specificityOfAll c).max (SimpleSelector.specificityOfOptions cs)

def SimpleSelector.specificityOfAll : List SimpleSelector → Specificity
  | [] => .zero
  | s :: rest => s.specificity.add (SimpleSelector.specificityOfAll rest)

end

namespace ComplexSelector

def specificity (s : ComplexSelector) : Specificity :=
  Specificity.sum (s.compounds.map SimpleSelector.specificityOfAll)

end ComplexSelector

/-! ## Pseudo-classes and pseudo-elements -/

namespace SimpleSelector

def isPseudo : SimpleSelector → Bool
  | place _ => true
  | nth _ _ => true
  | negation _ => true
  | dynamic _ _ => true
  | pseudoElement _ => true
  | _ => false

end SimpleSelector

namespace ComplexSelector

/-- The pseudo-classes and pseudo-elements in order. -/
def pseudos (s : ComplexSelector) : List SimpleSelector :=
  s.compounds.flatten.filter SimpleSelector.isPseudo

/-- The selector without its pseudo-classes and pseudo-elements.  A compound of
which nothing is left becomes universal. -/
def withoutPseudos (s : ComplexSelector) : ComplexSelector :=
  s.map fun c =>
    match c.filter (!·.isPseudo) with
    | [] => [.universal]
    | rest => rest

/-- The only simple selector, if there is one only. -/
def single? : ComplexSelector → Option SimpleSelector
  | compound [simple] => some simple
  | _ => none

/-- The class that the selector names, if it is nothing but a class. -/
def singleClass? (s : ComplexSelector) : Option String :=
  match s.single? with
  | some (.hasClass name) => some name
  | _ => none

/-- The id that the selector names, if it is nothing but an id. -/
def singleId? (s : ComplexSelector) : Option String :=
  match s.single? with
  | some (.id name) => some name
  | _ => none

end ComplexSelector
end SvgCompact
