import SvgCompact.Proofs.Inlining.Preservation
import SvgCompact.Proofs.Inlining.Survival
import SvgCompact.Proofs.Markup.Building

/-!
Selectors that stay in the sheets.

The names of a selector that stays are in use, so the classes and ids it asks for are
left alone.  What it sees of an element can change in two other ways only: the pass
writes an attribute that the selector tests, or it takes an emptied sheet out from among
the siblings or children that the selector looks at.
-/

namespace SvgCompact
namespace Inlining

open Document (root)

section Agreement

variable {d d' : Document} {names : SelectorNames} {id : NodeId} {e e' : Element}

theorem map_name_of_resembles (h : d.Resembles names d') (j : NodeId) :
    (d'.element? j).map (·.name) = (d.element? j).map (·.name) := by
  have hj := h j
  revert hj
  generalize d.element? j = x, d'.element? j = y
  intro hxy
  cases hxy with
  | none => rfl
  | some hxy => exact congrArg some hxy.name

theorem resembles_of_element? (h : d.Resembles names d') (he : d.element? id = some e)
    (he' : d'.element? id = some e') : e.Resembles names e' := by
  have hid := h id
  rw [he, he'] at hid
  cases hid with
  | some hid => exact hid

/-- Elements that resemble each other match the same simple selectors, as long as these
ask for names that count, test attributes that agree and look at places that agree. -/
theorem matchesSimple_eq_of_resembles (h : e.Resembles names e') {t : SimpleSelector}
    (hlists : names.Lists t) (hnegation : ∀ options, t ≠ .negation options)
    (hattribute : ∀ name ∈ t.testedAttribute?, e'.attr? name = e.attr? name)
    (hplace : ∀ place, t = .place place → d'.matchesPlace id place = d.matchesPlace id place)
    (hnth : ∀ counting nth, t = .nth counting nth →
      d'.matchesNth id counting nth = d.matchesNth id counting nth) :
    d'.matchesSimple id e' t = d.matchesSimple id e t := by
  cases t with
  | universal => simp only [Document.matchesSimple]
  | type name => simp only [Document.matchesSimple, Element.isNamed, h.name]
  | id name =>
    have hid := h.hasId name hlists
    rw [Document.matchesSimple, Document.matchesSimple, Bool.eq_iff_iff, beq_iff_eq, beq_iff_eq]
    exact hid
  | hasClass name =>
    rw [Document.matchesSimple, Document.matchesSimple, h.hasClass name hlists]
  | attr a =>
    rw [Document.matchesSimple, Document.matchesSimple, Document.matchesAttribute,
      Document.matchesAttribute, hattribute a.name rfl]
  | place place => rw [Document.matchesSimple, Document.matchesSimple, hplace place rfl]
  | nth counting nth => rw [Document.matchesSimple, Document.matchesSimple, hnth counting nth rfl]
  | negation options => exact absurd rfl (hnegation options)
  | dynamic | pseudoElement => simp only [Document.matchesSimple]

end Agreement

/-! ## What is left of a document -/

section Remnant

variable {d d' : Document} {names : SelectorNames} (hremnant : d.IsRemnant d')
  (hresembles : d.Resembles names d') {s : ComplexSelector}

/-- Whether no list of children that a selector can count has changed. -/
def KeepsCounts (d d' : Document) : Prop :=
  ∃ owners, (∀ p ∈ owners, (d.children p).all d.isBare = false) ∧
    Document.IsRewritten owners d d'

include hremnant

theorem reached_eq_of_keepsCounts (haround : s.looksAround = true → KeepsCounts d d')
    {id : NodeId} (hid : id ∈ d'.elements) {k : Combinator} (hk : k ∈ s.combinators) :
    d'.reached k id = d.reached k id ∧ ∀ other ∈ d.reached k id, other ∈ d'.elements := by
  by_cases hsibling : k.isSibling = true
  · have hlooks : s.looksAround = true := by
      rw [ComplexSelector.looksAround, Bool.or_eq_true]
      exact .inl (List.any_eq_true.2 ⟨k, hk, hsibling⟩)
    obtain ⟨owners, -, hrewritten⟩ := haround hlooks
    exact hremnant.reached_eq hrewritten hid k
  · exact hremnant.reached_eq_of_not_isSibling hid (Bool.not_eq_true _ ▸ hsibling)

include hresembles

theorem matchesSimple_eq_of_keepsCounts (haround : s.looksAround = true → KeepsCounts d d')
    (hlists : ∀ t ∈ s.leaves, names.Lists t) {id : NodeId} (hid : id ∈ d'.elements)
    (hattributes : ∀ name ∈ s.testedAttributes, name ∉ ["class", "id", "style"] ∨
      (d'.element? id).bind (·.attr? name) = (d.element? id).bind (·.attr? name))
    {e e' : Element} (he : d.element? id = some e) (he' : d'.element? id = some e')
    {t : SimpleSelector} (ht : t ∈ s.leaves) :
    d'.matchesSimple id e' t = d.matchesSimple id e t := by
  have hname := map_name_of_resembles hresembles
  have hlooks : t.isPositional = true → s.looksAround = true := fun hpos => by
    rw [ComplexSelector.looksAround, Bool.or_eq_true]
    exact .inr (List.any_eq_true.2 ⟨t, ht, hpos⟩)
  have hone := resembles_of_element? hresembles he he'
  refine matchesSimple_eq_of_resembles hone (hlists t ht)
    (fun options => ComplexSelector.ne_negation_of_mem_leaves ht options) ?_ ?_ ?_
  · intro name hname
    rcases hattributes name (List.mem_filterMap.2 ⟨t, ht, hname⟩) with hother | hsame
    · exact hone.attr? name hother
    · rw [he, he'] at hsame
      exact hsame
  · rintro place rfl
    by_cases hroot : place = .root
    · rw [hroot]
      exact hremnant.matchesPlace_root hid
    · have hpos : (SimpleSelector.place place).isPositional = true := by
        cases place <;> first | rfl | exact absurd rfl hroot
      obtain ⟨owners, hfilled, hrewritten⟩ := haround (hlooks hpos)
      exact hremnant.matchesPlace_eq hrewritten hfilled hid hname place
  · rintro counting nth rfl
    obtain ⟨owners, -, hrewritten⟩ := haround (hlooks rfl)
    exact hremnant.matchesNth_eq hrewritten hid hname counting nth

end Remnant

theorem keepsCounts_inline {d : Document} {P : QName → Prop} [QName.Admits P]
    (hsound : d.IsSound P) {options : Options}
    (hfull : options.removesMatched = true →
      ∀ t ∈ sheetsAfter options d, t.sheet.isEmpty = false) :
    KeepsCounts d (inline options d) := by
  obtain ⟨owners, howners, hrewritten⟩ := isRewritten_inline hsound hfull
  refine ⟨owners, fun p hp => ?_, hrewritten⟩
  obtain ⟨sheet, hsheet, rfl⟩ := List.mem_map.1 (howners p hp)
  exact all_isBare_of_mem_sheetsOf hsheet

/-- A selector that stays in a sheet matches, among the elements that are left, those
that it matched before.  It may test attributes other than `class`, `id` and `style`, and
these where the pass leaves their values.  It may look at siblings and children if no
sheet is emptied. -/
theorem mem_select_inline_iff {d : Document} (hd : d.IsRooted)
    (hnames : ∀ id e, d.element? id = some e → (e.attributes.map (·.name)).Nodup)
    (options : Options) {text : String} (htext : text ∈ textsOf (sheetsAfter options d))
    {s : ComplexSelector} (hread : ComplexSelector.read text = .ok s)
    (hattributes : ∀ name ∈ s.testedAttributes, name ∉ ["class", "id", "style"] ∨
      ∀ id ∈ (inline options d).elements,
        ((inline options d).element? id).bind (·.attr? name) =
          (d.element? id).bind (·.attr? name))
    (hplaces : s.looksAround = true → options.removesMatched = true →
      ∀ t ∈ sheetsAfter options d, t.sheet.isEmpty = false)
    {id : NodeId} (hid : id ∈ (inline options d).elements) :
    id ∈ (inline options d).select root [s] ↔ id ∈ d.select root [s] := by
  have hadmits : QName.Admits fun _ => True := ⟨fun _ _ => trivial⟩
  have hsound : d.IsSound fun _ => True :=
    ⟨hd, fun j e he => ⟨trivial, fun _ _ => trivial, hnames j e he⟩⟩
  have hremnant := isRemnant_inline hsound options
  have hresembles := resembles_inline hsound options htext
  have hlists := ComplexSelector.lists_of_read hread
  have haround : s.looksAround = true → KeepsCounts d (inline options d) :=
    fun hlooks => keepsCounts_inline hsound (hplaces hlooks)
  have hsatisfies := Document.satisfies_congr (Q := (· ∈ (inline options d).elements))
    (fun id _ => isSome_element?_inline options d id)
    (fun id e e' hid he he' t ht => matchesSimple_eq_of_keepsCounts hremnant hresembles haround
      hlists hid (fun name hname => (hattributes name hname).imp_right (· id hid)) he he' ht)
    (fun id hid k hk => reached_eq_of_keepsCounts hremnant haround hid hk) hid
  have hafter := (Document.mem_elements_iff.1 hid).1
  have hbefore := (Document.mem_elements_iff.1 (hremnant.mem_elements hid)).1
  rw [Document.select, Document.select, List.mem_filter, List.mem_filter]
  simp only [hafter, hbefore, true_and, Document.matchesList, List.any_cons, List.any_nil,
    Bool.or_false, hsatisfies]

/-! ## A document with a sheet that is emptied

The only rule of the first sheet is inlined.  The `style` attribute that its element
receives makes `[style]` match, and when the sheet leaves, the element becomes the first
child of its parent. -/

namespace Emptied

def element (name : String) (attributes : List Attribute) : Content :=
  .element (.ofAttributes (.plain name) attributes)

def firstText : String := "rect\x7bfill:red\x7d"

def secondText : String :=
  "[style]\x7bstroke:red\x7d:first-child\x7bstroke:blue\x7d.b\x7bfill:blue\x7d"

def document : Document :=
  ((((((((Document.empty.append root (element "svg" [])).1.append 1 (element "style" [])).1.append 2
    (.text firstText)).1.append 1 (element "rect" [])).1.append 1 (element "style" [])).1.append 5
      (.text secondText)).1.append 1 (element "circle" [⟨.plain "class", "b"⟩])).1.append 1
        (element "g" [⟨.plain "class", "b"⟩])).1

/-- The document after the pass. -/
def after : Document := ⟨#[
  ⟨.root, none, [1]⟩,
  Mixed.element 0 "svg" [] [4, 5, 7, 8],
  ⟨element "style" [], none, [3]⟩,
  ⟨.text firstText, some 2, []⟩,
  Mixed.element 1 "rect" [⟨.plain "style", "fill:red"⟩] [],
  Mixed.element 1 "style" [] [9],
  ⟨.text secondText, none, []⟩,
  Mixed.element 1 "circle" [⟨.plain "class", "b"⟩] [],
  Mixed.element 1 "g" [⟨.plain "class", "b"⟩] [],
  ⟨.text secondText, some 5, []⟩]⟩

def first : Stylesheet := ⟨[.style ⟨0, ["rect"], [⟨"fill", "red", .normal⟩]⟩]⟩

def second : Stylesheet := ⟨[
  .style ⟨0, ["[style]"], [⟨"stroke", "red", .normal⟩]⟩,
  .style ⟨1, [":first-child"], [⟨"stroke", "blue", .normal⟩]⟩,
  .style ⟨2, [".b"], [⟨"fill", "blue", .normal⟩]⟩]⟩

def sheets : List Sheet := [⟨2, first, false⟩, ⟨5, second, false⟩]

def isFirst : ComplexSelector := .compound [.place .firstChild]

def isB : ComplexSelector := .compound [.hasClass "b"]

theorem read_first : ComplexSelector.read ":first-child" = .ok isFirst :=
  ComplexSelector.read_of_step (by cbv) (by cbv)

theorem read_b : ComplexSelector.read ".b" = .ok isB :=
  ComplexSelector.read_of_step (by cbv) (by cbv)

theorem select_document :
    document.select root [Mixed.isRect] = [4] ∧ document.select root [Mixed.hasStyle] = [] ∧
      document.select root [isFirst] = [1, 2] ∧ document.select root [isB] = [7, 8] := by
  decide

theorem sheetsOf_document : sheetsOf document = sheets := by
  have helements : document.elements = [1, 2, 4, 5, 7, 8] := by decide
  have hfirst : sheetOf? document 2 = some ⟨2, first, document.holdsCdata 2⟩ :=
    sheetOf?_of_read (by decide) (by decide) (by decide)
      (show Stylesheet.read firstText = .ok first by cbv)
  have hsecond : sheetOf? document 5 = some ⟨5, second, document.holdsCdata 5⟩ :=
    sheetOf?_of_read (by decide) (by decide) (by decide)
      (show Stylesheet.read secondText = .ok second by cbv)
  have hother : ∀ id ∈ [1, 4, 7, 8], (document.element? id).any (isSheet document id) = false := by
    decide
  have hnone : ∀ id ∈ [1, 4, 7, 8], sheetOf? document id = none := by
    intro id hid
    rw [sheetOf?, hother id hid]
    rfl
  have hcdata : document.holdsCdata 2 = false ∧ document.holdsCdata 5 = false := by decide
  rw [sheetsOf, helements]
  simp [hfirst, hsecond, hnone, hcdata, sheets]

theorem inlined_document :
    inlined .default document =
      [⟨2, (0, 0), Mixed.isRect, ⟨[⟨"fill", "red", .normal⟩]⟩, [4]⟩] := by
  have hselectors : selectorsOf sheets =
      [⟨⟨0, 0, 0⟩, 2, [], ⟨0, ["rect"], [⟨"fill", "red", .normal⟩]⟩, "rect"⟩,
        ⟨⟨1, 0, 0⟩, 5, [], ⟨0, ["[style]"], [⟨"stroke", "red", .normal⟩]⟩, "[style]"⟩,
        ⟨⟨1, 1, 0⟩, 5, [], ⟨1, [":first-child"], [⟨"stroke", "blue", .normal⟩]⟩, ":first-child"⟩,
        ⟨⟨1, 2, 0⟩, 5, [], ⟨2, [".b"], [⟨"fill", "blue", .normal⟩]⟩, ".b"⟩] := rfl
  have hfilter : (recordsOf .default document (sheetsOf document)).filter
      Options.default.isEligible =
        [⟨2, (0, 0), Mixed.isRect, ⟨[⟨"fill", "red", .normal⟩]⟩, [4]⟩] := by
    obtain ⟨hrect, hstyle, -, hb⟩ := select_document
    have hplain : Mixed.isRect.withoutPseudos = Mixed.isRect ∧
        Mixed.hasStyle.withoutPseudos = Mixed.hasStyle ∧ isB.withoutPseudos = isB :=
      ⟨rfl, rfl, rfl⟩
    have hpseudo : Mixed.isRect.pseudoText = "" ∧ Mixed.hasStyle.pseudoText = "" ∧
        isB.pseudoText = "" ∧ isFirst.pseudoText = ":first-child" :=
      ⟨rfl, rfl, rfl, by decide⟩
    rw [sheetsOf_document, ← filterMap_selectorsOf, hselectors]
    simp only [List.filterMap_cons, List.filterMap_nil, PlacedSelector.record?, record?,
      Mixed.read_rect, Mixed.read_style, read_first, read_b, hplain, hpseudo, hrect, hstyle, hb]
    rfl
  have hperm := perm_inlined .default document
  rw [hfilter] at hperm
  exact List.perm_singleton.1 hperm

theorem inline_document : inline .default document = after := by
  rw [inline_eq]
  simp only [styled, inlined_document, sheetsOf_document]
  decide +kernel

theorem select_after :
    after.select root [Mixed.hasStyle] = [4] ∧ after.select root [isFirst] = [1, 4] ∧
      after.select root [isB] = [7, 8] := by
  decide

theorem textsOf_document :
    textsOf (sheetsAfter .default document) = ["[style]", ":first-child", ".b"] := by
  rw [sheetsAfter, inlined_document, sheetsOf_document]
  decide

theorem isRooted_document : document.IsRooted := by
  have helement : ∀ name attributes, element name attributes ≠ .root := fun _ _ => nofun
  have htext : ∀ s, Content.text s ≠ .root := fun _ => nofun
  exact (((((((Document.IsRooted.empty.append (by decide) (helement _ _)).append (by decide)
    (helement _ _)).append (by decide) (htext _)).append (by decide) (helement _ _)).append
      (by decide) (helement _ _)).append (by decide) (htext _)).append (by decide)
        (helement _ _)).append (by decide) (helement _ _)

theorem nodup_names_document {id : NodeId} {e : Element} (he : document.element? id = some e) :
    (e.attributes.map (·.name)).Nodup :=
  Document.forall_element?_of_all (Q := fun e => (e.attributes.map (·.name)).Nodup) (by decide) he

end Emptied

/-- The pass disturbs selectors that it leaves behind: one comes to match through the
attribute that the pass writes, another through the sheet that it takes out. -/
theorem selectors_disturbed :
    4 ∈ (inline .default Emptied.document).elements ∧
      ("[style]" ∈ textsOf (sheetsAfter .default Emptied.document) ∧
        ComplexSelector.read "[style]" = .ok Mixed.hasStyle ∧
        4 ∈ (inline .default Emptied.document).select root [Mixed.hasStyle] ∧
        4 ∉ Emptied.document.select root [Mixed.hasStyle]) ∧
      (":first-child" ∈ textsOf (sheetsAfter .default Emptied.document) ∧
        ComplexSelector.read ":first-child" = .ok Emptied.isFirst ∧
        4 ∈ (inline .default Emptied.document).select root [Emptied.isFirst] ∧
        4 ∉ Emptied.document.select root [Emptied.isFirst]) := by
  obtain ⟨-, hstyle, hfirst, -⟩ := Emptied.select_document
  obtain ⟨hstyle', hfirst', -⟩ := Emptied.select_after
  rw [Emptied.inline_document, Emptied.textsOf_document, hstyle, hfirst, hstyle', hfirst']
  exact ⟨by decide, ⟨by decide, Mixed.read_style, by decide, by decide⟩,
    ⟨by decide, Emptied.read_first, by decide, by decide⟩⟩

/-- The class selector of that document matches as before. -/
theorem selectors_undisturbed :
    ".b" ∈ textsOf (sheetsAfter .default Emptied.document) ∧
      ComplexSelector.read ".b" = .ok Emptied.isB ∧
      7 ∈ (inline .default Emptied.document).elements ∧
      (7 ∈ (inline .default Emptied.document).select root [Emptied.isB] ↔
        7 ∈ Emptied.document.select root [Emptied.isB]) ∧
      7 ∈ Emptied.document.select root [Emptied.isB] := by
  have htext : ".b" ∈ textsOf (sheetsAfter .default Emptied.document) := by
    rw [Emptied.textsOf_document]
    decide
  have hid : 7 ∈ (inline .default Emptied.document).elements := by
    rw [Emptied.inline_document]
    decide
  obtain ⟨-, -, -, hb⟩ := Emptied.select_document
  exact ⟨htext, Emptied.read_b, hid,
    mem_select_inline_iff Emptied.isRooted_document
      (fun _ _ he => Emptied.nodup_names_document he) .default htext Emptied.read_b nofun nofun hid,
    hb ▸ by decide⟩

end Inlining
end SvgCompact
