import SvgCompact.Markup.Piece
import SvgCompact.Document.Moves

/-!
Reading a document from markup.

There is one root element, and no text outside it.  Text that is blank stays
only where it can be seen, directly below the elements that lay out text.
-/

namespace SvgCompact
namespace Markup

/-- The elements below which blank text counts. -/
def textElements : List String := ["text", "tspan", "textPath"]

/-- A document in the making: the elements that are open, innermost first, with
the names their end tags have to repeat, and whether the root element is there. -/
structure Builder where
  document : Document
  pending : List (NodeId × List Char)
  hasRoot : Bool

namespace Builder

def empty : Builder := ⟨Document.empty, [], false⟩

/-- The node below which the next piece goes. -/
def place (b : Builder) : NodeId :=
  match b.pending with
  | (id, _) :: _ => id
  | [] => Document.root

def atTop (b : Builder) : Bool :=
  b.pending.isEmpty

def append (b : Builder) (content : Content) : Builder :=
  { b with document := (b.document.append b.place content).1 }

/-- The attributes of a tag with their references resolved, up to the first
fault. -/
def resolveAttributes :
    List (Except (Nat × AttributeFault) RawAttribute) → Except Fault (List Attribute)
  | [] => .ok []
  | .error (position, fault) :: _ => .error (.badAttribute position fault)
  | .ok a :: rest => do
    let value ← (resolve a.value).mapError .badReference
    let attributes ← resolveAttributes rest
    .ok (⟨QName.read (String.ofList a.key), String.ofList value⟩ :: attributes)

def elementOf (content : List Char) : Except Fault Element := do
  let attributes ← resolveAttributes (attributesOf content)
  .ok (Element.ofAttributes (QName.read (String.ofList (tagName content))) attributes)

def addStart (b : Builder) (content : List Char) (isEmpty : Bool) : Except Fault Builder := do
  if b.atTop && b.hasRoot then .error .secondRoot
  let element ← elementOf content
  let (document, id) := b.document.append b.place (.element element)
  let pending := if isEmpty then b.pending else (id, tagName content) :: b.pending
  .ok ⟨document, pending, true⟩

def addFinish (b : Builder) (name : List Char) : Except Fault Builder :=
  match b.pending with
  | [] => .error (.unmatchedEnd (String.ofList name))
  | (_, expected) :: pending =>
    if expected == name then .ok { b with pending }
    else .error (.mismatchedEnd (String.ofList expected) (String.ofList name))

def addText (b : Builder) (raw : List Char) : Except Fault Builder := do
  let s ← (resolve raw).mapError .badReference
  if (Text.trim s).isEmpty then
    let shown :=
      match b.document.element? b.place with
      | some e => e.isAnyOf textElements
      | none => false
    .ok (if shown then b.append (.text (String.ofList s)) else b)
  else if b.atTop then .error .textOutsideRoot
  else .ok (b.append (.text (String.ofList s)))

def addInstruction (b : Builder) (content : List Char) : Builder :=
  match Text.splitAt? Text.isBlank content with
  | some (target, body) =>
    b.append (.instruction (String.ofList target) (String.ofList (Text.trim body)))
  | none => b.append (.instruction (String.ofList content) "")

def add (b : Builder) : Piece → Except Fault Builder
  | .declaration content =>
    .ok (b.append (.instruction "xml" (String.ofList (declarationBody content))))
  | .instruction content => .ok (b.addInstruction content)
  | .doctype body => .ok (b.append (.doctype (String.ofList (Text.trim body))))
  | .comment body => .ok (b.append (.comment (String.ofList body)))
  | .cdata body =>
    if b.atTop then .error .cdataOutsideRoot
    else .ok (b.append (.cdata (String.ofList body)))
  | .text raw => b.addText raw
  | .start content isEmpty => b.addStart content isEmpty
  | .finish name => b.addFinish name

end Builder

/-- The text after a piece is no longer than the text after its first character. -/
theorem length_of_next {c : Char} {cs rest : List Char} {piece : Piece}
    (h : Piece.next c cs = .ok (piece, rest)) : rest.length ≤ cs.length := by
  unfold Piece.next at h
  cases hr : Piece.read c cs with
  | error e => rw [hr] at h; cases h
  | ok r =>
    rw [hr] at h
    cases h
    simp

/-- Where a fault in a piece is reported.  An end tag is blamed where it begins,
everything else where the piece ends. -/
def blame (start stop : Nat) : Piece → Nat
  | .finish _ => start
  | _ => stop

/-- Reads pieces to the end of the text.  `offset` counts the bytes before it. -/
def readPieces (offset : Nat) (b : Builder) (s : List Char) :
    Except (Nat × Fault) Builder :=
  match s with
  | [] => .ok b
  | c :: cs =>
    match _h : Piece.next c cs with
    | .error (ahead, fault) => .error (offset + ahead, fault)
    | .ok (piece, rest) =>
      let stop := offset + Text.byteSize (c :: cs) - Text.byteSize rest
      match b.add piece with
      | .error fault => .error (blame offset stop piece, fault)
      | .ok b => readPieces stop b rest
termination_by s.length
decreasing_by
  have := length_of_next _h
  simp only [List.length_cons]
  omega

/-- A byte order mark in front is not part of the markup. -/
def dropMark : List Char → List Char
  | '\ufeff' :: cs => cs
  | cs => cs

/-- Reads a document.  Offsets of faults do not count a byte order mark, except
at the end of the input. -/
def read (s : String) : Except Error Document :=
  let input := s.toList
  let size := Text.byteSize input
  match readPieces 0 Builder.empty (dropMark input) with
  | .error (offset, fault) => .error (Error.locate input offset fault)
  | .ok b =>
    if !b.pending.isEmpty then .error (Error.locate input size .unexpectedEnd)
    else if !b.hasRoot then .error (Error.locate input size .noRoot)
    else .ok b.document

end Markup
end SvgCompact
