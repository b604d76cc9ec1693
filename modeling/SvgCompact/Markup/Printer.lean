import SvgCompact.Document.Basic
import SvgCompact.Text.Measure

/-!
Printing a document as markup.
-/

namespace SvgCompact
namespace Markup

structure PrintOptions where
  /-- Whether elements stand on lines of their own. -/
  pretty : Bool
  /-- The spaces for each level of nesting. -/
  indent : Nat
  /-- Whether an element without children is written as one tag. -/
  selfClose : Bool
  /-- Whether attributes are sorted, declarations of namespaces first. -/
  sortAttrs : Bool
deriving DecidableEq, Repr

def PrintOptions.default : PrintOptions := ⟨false, 4, true, false⟩

def escapeText : Char → List Char
  | '&' => "&amp;".toList
  | '<' => "&lt;".toList
  | c => [c]

def escapeValue : Char → List Char
  | '"' => "&quot;".toList
  | '&' => "&amp;".toList
  | '<' => "&lt;".toList
  | '>' => "&gt;".toList
  | c => [c]

def printAttribute (a : Attribute) : List Char :=
  ' ' :: a.name.full.toList ++ '=' :: '"' :: a.value.toList.flatMap escapeValue ++ ['"']

/-- Declarations of namespaces come first, then names in order. -/
def attributePrecedes (a b : Attribute) : Bool :=
  if a.name.isXmlns == b.name.isXmlns then Text.precedes a.name.full b.name.full
  else a.name.isXmlns

def lineBreak (options : PrintOptions) (depth : Nat) : List Char :=
  '\n' :: List.replicate (options.indent * depth) ' '

def printHead (options : PrintOptions) (e : Element) : List Char :=
  let attributes :=
    if options.sortAttrs then e.attributes.mergeSort attributePrecedes else e.attributes
  e.name.full.toList ++ attributes.flatMap printAttribute

/-- An element around the printed forms of its children.  `broken` asks for
line breaks between them. -/
def printElement (options : PrintOptions) (depth : Nat) (e : Element) (broken : Bool)
    (children : List (List Char)) : List Char :=
  let name := e.name.full.toList
  let close := '<' :: '/' :: name ++ ['>']
  if children.isEmpty then
    if options.selfClose then '<' :: printHead options e ++ ['/', '>']
    else '<' :: printHead options e ++ '>' :: close
  else
    let start (level : Nat) : List Char := if broken then lineBreak options level else []
    '<' :: printHead options e ++ '>'
      :: children.flatMap (fun child => start (depth + 1) ++ child)
      ++ start depth ++ close

/-- Everything but elements prints the same at every depth. -/
def printLeaf : Content → List Char
  | .root => []
  | .element _ => []
  | .text s => s.toList.flatMap escapeText
  | .comment s => "<!--".toList ++ s.toList ++ "-->".toList
  | .cdata s => "<![CDATA[".toList ++ s.toList ++ "]]>".toList
  | .instruction target body =>
    '<' :: '?' :: target.toList ++ (if body.isEmpty then [] else ' ' :: body.toList)
      ++ ['?', '>']
  | .doctype body => "<!DOCTYPE ".toList ++ body.toList ++ ['>']

/-- Whether line breaks may stand between the children of a node: only where no
characters would be changed. -/
def mayBreak (d : Document) (id : NodeId) : Bool :=
  (d.children id).all fun c => (d.content c).characters?.isNone

/-- Prints a node at a depth.  The bound limits the levels below it. -/
def printNode (options : PrintOptions) (d : Document) : Nat → Nat → NodeId → List Char
  | 0, _, id => printLeaf (d.content id)
  | bound + 1, depth, id =>
    let below (depth : Nat) : List (List Char) :=
      (d.children id).map (printNode options d bound depth)
    match d.content id with
    | .root => (below depth).flatten
    | .element e => printElement options depth e (options.pretty && mayBreak d id) (below (depth + 1))
    | content => printLeaf content

def print (options : PrintOptions) (d : Document) : String :=
  let nodes := (d.children Document.root).map (printNode options d d.size 0)
  String.ofList ((if options.pretty then ['\n'] else []).intercalate nodes)

end Markup
end SvgCompact
