import SvgCompact.Color
import SvgCompact.Document.Wording
import SvgCompact.Element.Kinds
import SvgCompact.Pass.Defaults
import SvgCompact.Path.Printer
import SvgCompact.Path.Reader
import SvgCompact.Stylesheet.Reader
import SvgCompact.Text.Measure

/-!
Passes that spell values shorter: style sheets and style attributes, colors, and
path data.
-/

namespace SvgCompact

namespace Pass

/-! ## Styles -/

/-- Writes the sheet of a `style` element anew.  A sheet that cannot be read
stays. -/
def minifySheet (d : Document) (id : NodeId) : Document :=
  let text := d.textContent id
  if text.toList.all Text.isBlank then d
  else
    match Stylesheet.read text with
    | .ok sheet => d.replaceText id (d.holdsCdata id) sheet.write
    | .error _ => d

/-- Writes a style anew without the initial values in it. -/
def minifyInline (d : Document) (id : NodeId) (e : Element) : Element :=
  let style := e.style.filter fun declaration =>
    !Defaults.isRemovable d id e.name.stem declaration.property declaration.value
  if style.write == (e.attr? "style").getD "" then e else e.replaceStyle style

def minifyStyles : Pass :=
  .topDown fun d id =>
    match d.element? id with
    | some e =>
      if e.isNamed "style" then (minifySheet d id, .keep)
      else (d.updateElement id (minifyInline d id), .keep)
    | none => (d, .keep)

/-! ## Colors -/

def shortenColors (e : Element) : Element :=
  let e := e.mapAttrs fun name value =>
    if name.space.isNone && Color.isProperty name.stem then some (Color.shorten value) else none
  let style := e.style.mapValues fun property value =>
    if Color.isProperty property then Color.shorten value else value
  if style = e.style then e else e.replaceStyle style

def minifyColors : Pass :=
  .topDown <| .rewriting shortenColors

/-! ## Path data -/

def shorterPath? (format : PathFormat) (text : String) : Option String :=
  match Path.read text with
  | .ok path =>
    let written := Path.write format path
    if path.isEmpty || Text.byteSize text.toList ≤ Text.byteSize written.toList then none
    else some written
  | .error _ => none

def rewritePath (format : PathFormat) (e : Element) : Element :=
  if e.hasPathData then
    match (e.attr? "d").bind (shorterPath? format) with
    | some written => e.setAttr "d" written
    | none => e
  else e

/-- Rounds path data and writes it with the fewest separators. -/
def convertPathData (precision : Option Nat) : Pass :=
  .topDown <| .rewriting (rewritePath { PathFormat.default with precision })

end Pass
end SvgCompact
