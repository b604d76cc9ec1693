import SvgCompact.Document.Wording
import SvgCompact.Pass.Basic
import SvgCompact.Pass.References
import SvgCompact.Selector.Matching
import SvgCompact.Selector.Names
import SvgCompact.Selector.Printer
import SvgCompact.Selector.Reader
import SvgCompact.Stylesheet.Reader

/-!
Moving style rules into the elements that they select.

Each selector of each rule is a record of its own.  Records whose selectors match
are applied from the strongest to the weakest, each declaration only where no
stronger one stands already.  After that the selectors can leave their sheets,
and so can the classes and ids that nothing needs any more.
-/

namespace SvgCompact
namespace Inlining

structure Options where
  /-- Whether a selector is inlined only when it matches a single element. -/
  onlyOnce : Bool
  /-- Whether inlined selectors are removed, with the classes and ids they use. -/
  removesMatched : Bool
  /-- The contexts of rules that are inlined; the empty text stands for rules in
  no context. -/
  media : List String
  /-- The pseudo parts of selectors that are inlined; the empty text stands for
  selectors without any. -/
  pseudos : List String
deriving DecidableEq, Repr

def Options.default : Options := ⟨true, true, ["", "screen"], [""]⟩

/-! ## Sheets -/

structure Sheet where
  owner : NodeId
  sheet : Stylesheet
  cdata : Bool

/-- Whether an element holds a style sheet for this document. -/
def isSheet (d : Document) (id : NodeId) (e : Element) : Bool :=
  e.isNamed "style" && (d.closest? id "foreignObject").isNone
    && (e.attr? "type").all fun type => type.isEmpty || type == "text/css"

/-- The sheet of a node, if it holds one that can be read and is not blank. -/
def sheetOf? (d : Document) (id : NodeId) : Option Sheet :=
  if (d.element? id).any (isSheet d id) then
    let text := d.textContent id
    if text.toList.all Text.isBlank then none
    else (Stylesheet.read text).toOption.map fun sheet => ⟨id, sheet, d.holdsCdata id⟩
  else none

def sheetsOf (d : Document) : List Sheet :=
  d.elements.filterMap (sheetOf? d)

/-! ## Records -/

/-- A selector of a style rule. -/
structure Record where
  owner : NodeId
  address : Rule.Address
  /-- The selector without its pseudo parts. -/
  selector : ComplexSelector
  declarations : Style
  matched : List NodeId

/-- Whether rules in these contexts are inlined. -/
def Options.admits (options : Options) (contexts : List String) : Bool :=
  if contexts.isEmpty then options.media.contains ""
  else contexts.all options.media.contains

/-- The record of a selector text, if it can be read and its pseudo parts are
admitted. -/
def record? (options : Options) (d : Document) (owner : NodeId) (declarations : Style)
    (address : Rule.Address) (text : String) : Option Record :=
  match ComplexSelector.read text with
  | .ok selector =>
    if options.pseudos.contains selector.pseudoText then
      let bare := selector.withoutPseudos
      some ⟨owner, address, bare, declarations, d.select Document.root [bare]⟩
    else none
  | .error _ => none

def recordsOfRule (options : Options) (d : Document) (owner : NodeId) (rule : StyleRule) :
    List Record :=
  let declarations := Style.ofDeclarations rule.declarations
  rule.selectors.zipIdx.filterMap fun (text, i) =>
    record? options d owner declarations (rule.number, i) text

def recordsOf (options : Options) (d : Document) (sheets : List Sheet) : List Record :=
  sheets.flatMap fun s =>
    (s.sheet.styleRules.filter fun (contexts, _) => options.admits contexts).flatMap
      fun (_, rule) => recordsOfRule options d s.owner rule

/-- Stronger records first, of equally strong ones the later first. -/
def byStrength (records : List Record) : List Record :=
  records.reverse.mergeSort fun a b =>
    !a.selector.specificity.lt b.selector.specificity

def Options.isEligible (options : Options) (r : Record) : Bool :=
  match r.matched with
  | [] => false
  | [_] => true
  | _ => !options.onlyOnce

/-! ## Applying records -/

/-- Sets a declaration unless the one for its property is as important. -/
def offer (e : Element) (declaration : Declaration) : Element :=
  match e.style.priority? declaration.property with
  | some held => if declaration.priority.beats held then e.setStyle declaration else e
  | none => e.setStyle declaration

def applyRecord (d : Document) (r : Record) : Document :=
  r.matched.foldl (fun d id =>
    d.updateElement id fun e => r.declarations.declarations.foldl offer e) d

/-! ## Removing what is used up -/

def Sheet.reduced (s : Sheet) (inlined : List Record) : Sheet :=
  let removed := (inlined.filter (·.owner == s.owner)).map (·.address)
  { s with sheet := (s.sheet.withoutSelectors removed).pruned }

/-- The names that the selectors left in sheets use, and those in the text of
`style` elements that are not among them. -/
def namesInUse (d : Document) (sheets : List Sheet) : SelectorNames :=
  let left := sheets.flatMap fun s => s.sheet.styleRules.flatMap fun (_, rule) => rule.selectors
  let foreign := (d.elements.filter fun id =>
    d.isNamed id "style" && !sheets.any (·.owner == id)).map d.textContent
  (left ++ foreign).foldl (fun names text => names.append (SelectorNames.ofText text))
    SelectorNames.empty

/-- Removes an id if it is the one that a selector names. -/
def dropId (name : String) (e : Element) : Element :=
  if e.attr? "id" == some name then e.removeAttr "id" else e

/-- Removes the class or the id by which a record selects, unless it is still in
use. -/
def dropName (names : SelectorNames) (referenced : List String) (d : Document) (r : Record) :
    Document :=
  match r.selector.singleClass?, r.selector.singleId? with
  | some name, _ =>
    if names.classes.contains name then d
    else r.matched.foldl (fun d id => d.updateElement id (·.removeClass name)) d
  | none, some name =>
    if referenced.contains name || names.ids.contains name then d
    else r.matched.foldl (fun d id => d.updateElement id (dropId name)) d
  | none, none => d

/-- Removes a node, and the definitions around it if nothing else is in them. -/
def removeSheet (d : Document) (id : NodeId) : Document :=
  let parent := d.parent id
  let d := d.detach id
  match parent with
  | some p => if d.isNamed p "defs" && d.isEmpty p then d.detach p else d
  | none => d

/-- Writes a sheet into its element; an empty one takes the element with it. -/
def writeBack (d : Document) (s : Sheet) : Document :=
  if s.sheet.isEmpty then removeSheet d s.owner
  else d.replaceText s.owner s.cdata s.sheet.write

def inline (options : Options) (d : Document) : Document :=
  let sheets := sheetsOf d
  let inlined := (byStrength (recordsOf options d sheets)).filter options.isEligible
  let styled := inlined.foldl applyRecord d
  if sheets.isEmpty || !options.removesMatched then styled
  else
    let reduced := sheets.map (·.reduced inlined)
    let names := namesInUse styled reduced
    let referenced := References.inDocument styled
    reduced.foldl writeBack (inlined.foldl (dropName names referenced) styled)

end Inlining

def Pass.inlineStyles (options : Inlining.Options) : Pass :=
  .whole (Inlining.inline options)

end SvgCompact
