import SvgCompact.Text.Search

/-!
Qualified names and attributes.
-/

namespace SvgCompact

/-- A name with the label of its namespace, if it carries one. -/
structure QName where
  space : Option String
  stem : String
deriving DecidableEq, Repr

namespace QName

def plain (stem : String) : QName := ⟨none, stem⟩

/-- The label ends at the first colon. -/
def read (s : String) : QName :=
  match Text.splitAt? (· == ':') s.toList with
  | some (space, stem) => ⟨some (String.ofList space), String.ofList stem⟩
  | none => ⟨none, s⟩

/-- The label and the stem joined by a colon. -/
def full (n : QName) : String :=
  match n.space with
  | some space => space ++ ":" ++ n.stem
  | none => n.stem

def isXmlns (n : QName) : Bool :=
  n.space == some "xmlns" || (n.space.isNone && n.stem == "xmlns")

/-- Whether a text names `n`.  A name without a label is compared as it stands,
one with a label through `read`. -/
def isNamed (n : QName) (s : String) : Bool :=
  match n.space with
  | none => n.stem == s
  | some _ => n == read s

end QName

structure Attribute where
  name : QName
  value : String
deriving DecidableEq, Repr

end SvgCompact
