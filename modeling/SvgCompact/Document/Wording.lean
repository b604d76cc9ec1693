import SvgCompact.Document.Moves
import SvgCompact.Text.Search

/-!
The text that elements such as `style` hold.
-/

namespace SvgCompact
namespace Document

def holdsCdata (d : Document) (id : NodeId) : Bool :=
  (d.children id).any fun c =>
    match d.content c with
    | .cdata _ => true
    | _ => false

/-- Replaces the children of a node by one text, or by one character data
section. -/
def replaceText (d : Document) (id : NodeId) (cdata : Bool) (s : String) : Document :=
  let (d, new) := d.create (if cdata then .cdata s else .text s)
  (d.splice id 0 (d.children id).length [new]).1

/-- Whether the text of some `style` element mentions a word. -/
def styleMentions (d : Document) (word : String) : Bool :=
  d.elements.any fun id => d.isNamed id "style" && Text.occursInWord word (d.textContent id)

end Document
end SvgCompact
