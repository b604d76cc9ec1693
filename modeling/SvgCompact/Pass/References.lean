import SvgCompact.Document.Basic
import SvgCompact.Text.Blank
import SvgCompact.Text.Search

/-!
References to ids in attributes.
-/

namespace SvgCompact
namespace References

/-- The id that the content of `url(…)` names.  Quotes around it do not count. -/
def target? (content : List Char) : Option String :=
  let bare := Text.trimBy (fun c => c == '"' || c == '\'') (Text.trim content)
  (Text.after? ['#'] bare).map String.ofList

/-- The ids named by every `url(…)` in a text. -/
def inText : List Char → List String
  | [] => []
  | c :: cs =>
    match Text.after? "url(".toList (c :: cs) with
    | some rest => (target? (rest.takeWhile (· != ')'))).toList ++ inText cs
    | none => inText cs

def inAttribute (a : Attribute) : List String :=
  (if a.name.stem == "href" then
    ((Text.after? ['#'] (Text.trim a.value.toList)).map String.ofList).toList
  else []) ++ inText a.value.toList

def inDocument (d : Document) : List String :=
  (d.elements.filterMap d.element?).flatMap fun e => e.attributes.flatMap inAttribute

end References
end SvgCompact
