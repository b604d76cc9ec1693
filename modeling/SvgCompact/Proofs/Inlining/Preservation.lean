import Mathlib
import SvgCompact.Proofs.Inlining.Candidate
import SvgCompact.Proofs.Inlining.Staying
import SvgCompact.Proofs.Selector.Equations
import SvgCompact.Proofs.Selector.Pseudos

/-!
The cascade before and after inlining.

Inlining lifts declarations from sheets into elements.  A lifted declaration outranks
every rule of its own importance that stays, so what wins at an element changes
exactly when a rule won that stays although a rule of the same importance is lifted.
This holds where the selectors that stay match as before, which the pass does not
promise either.
-/

namespace SvgCompact
namespace Inlining

/-- The declarations that apply to an element for a property: what it declares itself,
and what the rules of sheets declare of which a selector matches it.  Contexts are
taken to hold. -/
inductive Applies (d : Document) (sheets : List Sheet) (id : NodeId) (p : String) :
    Candidate → Prop
  | own {x : Declaration} :
      d.declarationAt id p = some x → Applies d sheets id p ⟨x, .inline⟩
  | rule {position : Position} {contexts : List String} {rule : StyleRule} {text : String}
      {selector : ComplexSelector} {x : Declaration} :
      IsSelectorAt sheets position contexts rule text →
      ComplexSelector.read text = .ok selector →
      id ∈ d.select Document.root [selector] →
      (Style.ofDeclarations rule.declarations).find? p = some x →
      Applies d sheets id p ⟨x, .rule selector.specificity position⟩

/-- The sheets as the pass writes them. -/
def reducedSheets (d : Document) : List Sheet :=
  (sheetsOf d).map (·.reduced (inlined .default d))

/-- The sheets that are in the document after the pass. -/
def sheetsLeft (d : Document) : List Sheet :=
  (reducedSheets d).filter fun s => (inline .default d).elements.contains s.owner

/-- Whether what wins at an element is the same before and after the pass. -/
def Preserved (d : Document) (id : NodeId) (p : String) : Prop :=
  ∃ o, Candidate.IsOutcome (Applies d (sheetsOf d) id p) o ∧
    Candidate.IsOutcome (Applies (inline .default d) (sheetsLeft d) id p) o

/-- Whether the selectors that are not inlined stay in the document and match an
element after the pass if and only if they matched it before. -/
def Undisturbed (d : Document) (id : NodeId) : Prop :=
  ∀ c ∈ clausesOf (reducedSheets d), ∀ selector, ComplexSelector.read c.text = .ok selector →
    ((c.owner ∈ (inline .default d).elements ∧
        id ∈ (inline .default d).select Document.root [selector]) ↔
      id ∈ d.select Document.root [selector])

/-- Whether what wins at an element stays in its sheet while a declaration of the same
importance and another value wins among those that are inlined. -/
def Overtaken (d : Document) (id : NodeId) (p : String) : Prop :=
  ∃ winner lifted, Candidate.IsWinner (Applies d (sheetsOf d) id p) winner ∧
    ¬ Competes .default d id p winner ∧
    Candidate.IsWinner (Competes .default d id p) lifted ∧
    lifted.declaration.priority = winner.declaration.priority ∧
    lifted.declaration ≠ winner.declaration

/-- Whether every `style` element is read as a sheet of style rules outside at-rules
whose selectors can be read and have no pseudo parts. -/
structure HasPlainSheets (d : Document) : Prop where
  processed : ∀ id ∈ d.elements, d.isNamed id "style" = true → ∃ s ∈ sheetsOf d, s.owner = id
  rules : ∀ s ∈ sheetsOf d, ∀ r ∈ s.sheet.rules, ∃ rule, r = .style rule
  selectors : ∀ c ∈ clausesOf (sheetsOf d), ∃ selector,
    ComplexSelector.read c.text = .ok selector ∧ selector.pseudoText = ""

/-! ## Rules in source order -/

/-- A declaration of a rule with the specificity of the selector that matches. -/
abbrev Bid := Specificity × Declaration

/-- What a selector bids for a property at a node. -/
def Clause.bid? (d : Document) (id : NodeId) (p : String) (c : Clause) : Option Bid :=
  match ComplexSelector.read c.text with
  | .ok selector =>
    if id ∈ d.select Document.root [selector] then
      ((Style.ofDeclarations c.declarations).find? p).map fun x => (selector.specificity, x)
    else none
  | .error _ => none

def PlacedSelector.bid? (d : Document) (id : NodeId) (p : String) (x : PlacedSelector) :
    Option (Position × Bid) :=
  (x.clause.bid? d id p).map fun bid => (x.position, bid)

def candidateOf (x : Position × Bid) : Candidate :=
  ⟨x.2.2, .rule x.2.1 x.1⟩

/-- What is held in the end if bids are taken up from the strongest to the weakest. -/
def cascaded (own : Option Declaration) (bids : List Bid) : Option Declaration :=
  ((bids.reverse.mergeSort fun x y => !x.1.lt y.1).map fun bid => some bid.2).foldl contend own

theorem clause_bid?_eq_some_iff {d : Document} {id : NodeId} {p : String} {c : Clause} {bid : Bid} :
    c.bid? d id p = some bid ↔
      ∃ selector, ComplexSelector.read c.text = .ok selector ∧
        id ∈ d.select Document.root [selector] ∧
        (Style.ofDeclarations c.declarations).find? p = some bid.2 ∧
        selector.specificity = bid.1 := by
  obtain ⟨specificity, x⟩ := bid
  unfold Clause.bid?
  cases ComplexSelector.read c.text with
  | error e => simp
  | ok selector =>
    by_cases hid : id ∈ d.select Document.root [selector]
    · simp [hid, and_comm]
    · simp [hid]

theorem isOutcome_cascaded {bids : List (Position × Bid)}
    (h : bids.Pairwise fun x y => x.1.Precedes y.1) (own : Option Declaration) :
    Candidate.IsOutcome
      (fun c => (∃ x, own = some x ∧ c = ⟨x, .inline⟩) ∨ ∃ b ∈ bids, candidateOf b = c)
      (cascaded own (bids.map (·.2))) := by
  let sorted := bids.reverse.mergeSort fun x y => !x.2.1.lt y.2.1
  let first : Option Candidate := own.map fun x => ⟨x, .inline⟩
  have hsorted : sorted.Pairwise fun x y =>
      (candidateOf x).origin.Outranks (candidateOf y).origin :=
    pairwise_byStrength (fun x : Position × Bid => x.2.1) (·.1) h
  have hall : (first.toList ++ sorted.map candidateOf).Pairwise
      fun a b => a.origin.Outranks b.origin := by
    rw [List.pairwise_append]
    refine ⟨by cases own <;> simp [first], List.pairwise_map.2 hsorted, ?_⟩
    intro a ha b hb
    obtain ⟨x, -, rfl⟩ := Option.map_eq_some_iff.1 (Option.mem_toList.1 ha)
    obtain ⟨y, -, rfl⟩ := List.mem_map.1 hb
    trivial
  have hvalue : cascaded own (bids.map (·.2)) =
      ((first.toList ++ sorted.map candidateOf).foldl Candidate.choose none).map
        (·.declaration) := by
    have hmap : sorted.map (·.2) =
        (bids.map (·.2)).reverse.mergeSort fun x y => !x.1.lt y.1 := by
      rw [← List.map_reverse]
      exact List.map_mergeSort fun _ _ _ _ => rfl
    have hown : own = first.map (·.declaration) := by cases own <;> rfl
    have hfirst : first.toList.foldl Candidate.choose none = first := by cases own <;> rfl
    have hfold := foldl_contend (fun x => some (candidateOf x)) sorted first
    rw [List.filterMap_eq_map'] at hfold
    rw [cascaded, ← hmap, List.map_map, List.foldl_append, hfirst, ← hfold, hown]
    rfl
  rw [hvalue]
  refine (Candidate.isOutcome_foldl hall).congr fun c => ?_
  simp only [List.mem_append, Option.mem_toList, List.mem_map, sorted, List.mem_mergeSort,
    List.mem_reverse, first, Option.map_eq_some_iff]
  exact or_congr ⟨fun ⟨x, hx, hc⟩ => ⟨x, hx, hc.symm⟩, fun ⟨x, hx, hc⟩ => ⟨x, hx, hc.symm⟩⟩ Iff.rfl

/-! ## Before the pass -/

variable {d : Document} {id : NodeId} {p : String}

/-- The bids of selectors with their positions. -/
def bidsOf (d : Document) (id : NodeId) (p : String) (selectors : List PlacedSelector) :
    List (Position × Bid) :=
  selectors.filterMap (·.bid? d id p)

theorem bid?_eq_some_iff {x : PlacedSelector} {b : Position × Bid} :
    x.bid? d id p = some b ↔ x.position = b.1 ∧ x.clause.bid? d id p = some b.2 := by
  obtain ⟨position, bid⟩ := b
  unfold PlacedSelector.bid?
  simp only [Option.map_eq_some_iff, Prod.mk.injEq]
  constructor
  · intro hex
    obtain ⟨bid, hbid, rfl, rfl⟩ := hex
    exact ⟨rfl, hbid⟩
  · intro hex
    obtain ⟨rfl, hbid⟩ := hex
    exact ⟨bid, hbid, rfl, rfl⟩

theorem pairwise_bidsOf {selectors : List PlacedSelector}
    (h : selectors.Pairwise fun x y => x.position.Precedes y.position) :
    (bidsOf d id p selectors).Pairwise fun x y => x.1.Precedes y.1 := by
  refine List.pairwise_filterMap.2 (h.imp fun hxy a ha b hb => ?_)
  rw [← (bid?_eq_some_iff.1 ha).1, ← (bid?_eq_some_iff.1 hb).1]
  exact hxy

theorem applies_iff {sheets : List Sheet} {c : Candidate} :
    Applies d sheets id p c ↔
      (∃ x, d.declarationAt id p = some x ∧ c = ⟨x, .inline⟩) ∨
        ∃ b ∈ bidsOf d id p (selectorsOf sheets), candidateOf b = c := by
  constructor
  · intro hc
    cases hc with
    | own hx => exact .inl ⟨_, hx, rfl⟩
    | @rule position contexts rule text selector x hat hread hid hx =>
      obtain ⟨owner, hmem⟩ := isSelectorAt_iff.1 hat
      refine .inr ⟨(position, selector.specificity, x), List.mem_filterMap.2 ⟨_, hmem, ?_⟩, rfl⟩
      rw [bid?_eq_some_iff, clause_bid?_eq_some_iff]
      exact ⟨rfl, selector, hread, hid, hx, rfl⟩
  · intro hcase
    rcases hcase with ⟨x, hx, rfl⟩ | ⟨⟨position, specificity, x⟩, hb, rfl⟩
    · exact .own hx
    · obtain ⟨y, hy, hbid⟩ := List.mem_filterMap.1 hb
      rw [bid?_eq_some_iff, clause_bid?_eq_some_iff] at hbid
      obtain ⟨rfl, selector, hread, hid, hx, rfl⟩ := hbid
      exact .rule (isSelectorAt_iff.2 ⟨y.owner, hy⟩) hread hid hx

theorem map_bidsOf (selectors : List PlacedSelector) :
    (bidsOf d id p selectors).map (·.2) =
      (selectors.map (·.clause)).filterMap (·.bid? d id p) := by
  rw [bidsOf, List.map_filterMap, List.filterMap_map]
  refine List.filterMap_congr fun x _ => ?_
  unfold PlacedSelector.bid?
  rw [Option.map_map]
  exact Option.map_id'

theorem isOutcome_applies (d : Document) (id : NodeId) (p : String) (sheets : List Sheet) :
    Candidate.IsOutcome (Applies d sheets id p)
      (cascaded (d.declarationAt id p) ((clausesOf sheets).filterMap (·.bid? d id p))) := by
  rw [← map_clause_selectorsOf, ← map_bidsOf]
  exact (isOutcome_cascaded (pairwise_bidsOf (pairwise_selectorsOf sheets)) _).congr
    fun _ => applies_iff.symm

theorem preserved_iff_cascaded :
    Preserved d id p ↔
      cascaded (d.declarationAt id p) ((clausesOf (sheetsOf d)).filterMap (·.bid? d id p)) =
        cascaded ((inline .default d).declarationAt id p)
          ((clausesOf (sheetsLeft d)).filterMap (·.bid? (inline .default d) id p)) := by
  have hbefore := isOutcome_applies d id p (sheetsOf d)
  have hafter := isOutcome_applies (inline .default d) id p (sheetsLeft d)
  constructor
  · intro hex
    obtain ⟨o, hfirst, hsecond⟩ := hex
    rw [hafter.unique hsecond, hbefore.unique hfirst]
  · intro hsame
    exact ⟨_, hbefore, hsame ▸ hafter⟩

/-! ## What is inlined and what stays -/

theorem isPlain_of_mem_pseudos {selector : ComplexSelector}
    (h : selector.pseudoText ∈ Options.default.pseudos) : selector.IsPlain :=
  ComplexSelector.isPlain_of_pseudos
    (ComplexSelector.pseudos_of_pseudoText (List.mem_singleton.1 h))

theorem applies_of_competes {c : Candidate} (h : Competes .default d id p c) :
    Applies d (sheetsOf d) id p c := by
  cases h with
  | own hx => exact .own hx
  | @rule position contexts rule text selector x hat hadmits hread hpseudo hid honce hx =>
    have hplain := isPlain_of_mem_pseudos hpseudo
    rw [ComplexSelector.specificity_withoutPseudos hplain]
    rw [Document.select_withoutPseudos d _ hplain] at hid
    exact .rule hat hread hid hx

theorem competes_of_isInlined {x : PlacedSelector} (hx : x ∈ selectorsOf (sheetsOf d))
    (h : x.isInlined .default d = true) {b : Position × Bid} (hb : x.bid? d id p = some b) :
    Competes .default d id p (candidateOf b) := by
  obtain ⟨r, hr, heligible⟩ := (Option.any_eq_true ..).1 h
  obtain ⟨hadmits, selector, hread, hpseudo, rfl⟩ := record?_eq_some_iff.1 hr
  rw [bid?_eq_some_iff, clause_bid?_eq_some_iff] at hb
  obtain ⟨hposition, other, hother, hid, hfound, hspecificity⟩ := hb
  obtain rfl : selector = other := by
    rw [show x.clause.text = x.text from rfl, hread] at hother
    exact Except.ok.inj hother
  have hplain := isPlain_of_mem_pseudos hpseudo
  rw [← Document.select_withoutPseudos d _ hplain] at hid
  rw [← ComplexSelector.specificity_withoutPseudos hplain] at hspecificity
  have hcandidate : candidateOf b =
      ⟨b.2.2, .rule selector.withoutPseudos.specificity x.position⟩ := by
    rw [candidateOf, hspecificity, hposition]
  rw [hcandidate]
  exact .rule (isSelectorAt_iff.2 ⟨x.owner, hx⟩) hadmits hread hpseudo hid
    ((isEligible_iff hid).1 heligible) hfound

theorem isInlined_of_competes {x : PlacedSelector} (hx : x ∈ selectorsOf (sheetsOf d))
    {b : Position × Bid} (hb : x.bid? d id p = some b)
    (h : Competes .default d id p (candidateOf b)) : x.isInlined .default d = true := by
  obtain ⟨position, specificity, y⟩ := b
  have hposition : x.position = position := (bid?_eq_some_iff.1 hb).1
  obtain ⟨s, hs, -, hrule, htext⟩ := mem_selectorsOf.1 hx
  unfold candidateOf at h
  clear hb
  cases h with
  | rule hat hadmits hread hpseudo hid honce hfound =>
    -- a position holds one selector
    obtain ⟨t, ht, htrule⟩ := hat.exists_sheet
    rw [← hposition, hs] at ht
    cases ht
    rw [← hposition, hrule] at htrule
    obtain ⟨hcontexts, hsame⟩ := Prod.mk.inj (Option.some.inj htrule)
    have htext' := hat.selector
    rw [← hposition, ← hsame, htext] at htext'
    obtain rfl := Option.some.inj htext'
    rw [← hcontexts] at hadmits
    exact (Option.any_eq_true ..).2 ⟨_, record?_eq_some_iff.2 ⟨hadmits, _, hread, hpseudo, rfl⟩,
      (isEligible_iff hid).2 honce⟩

theorem mem_staying_iff {c : Candidate} :
    (∃ b ∈ bidsOf d id p ((selectorsOf (sheetsOf d)).filter fun x => !x.isInlined .default d),
        candidateOf b = c) ↔
      Applies d (sheetsOf d) id p c ∧ ¬ Competes .default d id p c := by
  constructor
  · intro hex
    obtain ⟨b, hb, rfl⟩ := hex
    obtain ⟨x, hx, hbid⟩ := List.mem_filterMap.1 hb
    rw [List.mem_filter, Bool.not_eq_true'] at hx
    refine ⟨applies_iff.2 (.inr ⟨b, List.mem_filterMap.2 ⟨x, hx.1, hbid⟩, rfl⟩), fun hc => ?_⟩
    rw [isInlined_of_competes hx.1 hbid hc] at hx
    cases hx.2
  · intro hex
    obtain ⟨hc, hcompetes⟩ := hex
    rcases applies_iff.1 hc with ⟨x, hx, rfl⟩ | ⟨b, hb, rfl⟩
    · exact absurd (.own hx) hcompetes
    · obtain ⟨x, hx, hbid⟩ := List.mem_filterMap.1 hb
      refine ⟨b, List.mem_filterMap.2 ⟨x, ?_, hbid⟩, rfl⟩
      rw [List.mem_filter, Bool.not_eq_true', ← Bool.not_eq_true]
      exact ⟨hx, fun h => hcompetes (competes_of_isInlined hx h hbid)⟩

/-! ## After the pass -/

theorem clausesOf_filter (q : NodeId → Bool) (sheets : List Sheet) :
    clausesOf (sheets.filter fun s => q s.owner)
      = (clausesOf sheets).filter fun c => q c.owner := by
  unfold clausesOf
  rw [flatMap_filter, List.filter_flatMap]
  refine List.flatMap_congr fun s _ => ?_
  have howner : ∀ c ∈ s.sheet.styleRules.flatMap (clausesOfRule s.owner), c.owner = s.owner := by
    intro c hc
    obtain ⟨entry, -, hc⟩ := List.mem_flatMap.1 hc
    obtain ⟨text, -, rfl⟩ := List.mem_map.1 hc
    rfl
  cases hq : q s.owner
  · symm
    rw [if_neg (by simp), List.filter_eq_nil_iff]
    intro c hc
    simp [howner c hc, hq]
  · symm
    rw [if_pos rfl, List.filter_eq_self]
    intro c hc
    rw [howner c hc, hq]

/-- What the sheets that are left bid is what those selectors bid that stay. -/
theorem filterMap_bid?_sheetsLeft (h : Undisturbed d id) :
    (clausesOf (sheetsLeft d)).filterMap (·.bid? (inline .default d) id p) =
      (bidsOf d id p
        ((selectorsOf (sheetsOf d)).filter fun x => !x.isInlined .default d)).map (·.2) := by
  rw [map_bidsOf, sheetsLeft,
    clausesOf_filter fun owner => (inline .default d).elements.contains owner,
    List.filterMap_filter, ← clausesOf_reduced_sheetsOf]
  refine List.filterMap_congr fun c hc => ?_
  unfold Clause.bid?
  cases hread : ComplexSelector.read c.text with
  | error e => simp
  | ok selector =>
    have hmatch := h c hc selector hread
    by_cases hid : id ∈ d.select Document.root [selector]
    · have hafter := hmatch.2 hid
      simp [hid, hafter.1, hafter.2]
    · by_cases howner : c.owner ∈ (inline .default d).elements
      · have hnot : id ∉ (inline .default d).select Document.root [selector] :=
          fun hafter => hid (hmatch.1 ⟨howner, hafter⟩)
        simp [hid, hnot]
      · simp [hid, howner]

/-- Afterwards an inline declaration, which is the outcome among what was inlined,
competes with what stays. -/
theorem isOutcome_lifted (h : Undisturbed d id) {o : Option Declaration}
    (ho : Candidate.IsOutcome (Applies (inline .default d) (sheetsLeft d) id p) o) :
    Candidate.IsOutcome
      (Lifted (Applies d (sheetsOf d) id p) (Competes .default d id p)
        ((inline .default d).declarationAt id p)) o := by
  have hafter := isOutcome_applies (inline .default d) id p (sheetsLeft d)
  rw [filterMap_bid?_sheetsLeft h] at hafter
  rw [ho.unique hafter]
  have hstaying : (bidsOf d id p
      ((selectorsOf (sheetsOf d)).filter fun x => !x.isInlined .default d)).Pairwise
        fun x y => x.1.Precedes y.1 :=
    pairwise_bidsOf ((pairwise_selectorsOf _).filter _)
  exact (isOutcome_cascaded hstaying _).congr fun c => or_congr Iff.rfl mem_staying_iff

/-- Where the selectors that stay match as before, the pass keeps what wins at an
element unless that is overtaken. -/
theorem preserved_iff_not_overtaken (d : Document) (id : NodeId) (p : String)
    (h : Undisturbed d id) : Preserved d id p ↔ ¬ Overtaken d id p := by
  have hbefore := isOutcome_applies d id p (sheetsOf d)
  have hafter := isOutcome_applies (inline .default d) id p (sheetsLeft d)
  have hinline := isOutcome_declarationAt_inline .default d id p
  have hown : ∀ c, Applies d (sheetsOf d) id p c → c.origin = .inline →
      Competes .default d id p c := by
    intro c hc horigin
    cases hc with
    | own hx => exact .own hx
    | rule => cases horigin
  have hiff := outcome_lifted_eq_iff (fun c => applies_of_competes) hown hbefore hinline
    (isOutcome_lifted h hafter)
  unfold Overtaken
  rw [← hiff, preserved_iff_cascaded]
  exact eq_comm

/-! ## A document with mixed selectors

Of the selectors only `rect` matches once.  Its declaration comes to outrank that of
`.a`, the style attribute that receives it makes `[style]` match, and writing the
outer sheet back throws the inner one out. -/

namespace Mixed

def element (parent : NodeId) (name : String) (attributes : List Attribute)
    (children : List NodeId) : Node :=
  ⟨.element (.ofAttributes (.plain name) attributes), some parent, children⟩

def outerText : String := "rect\x7bfill:red\x7d.a\x7bfill:blue\x7d[style]\x7bstroke:blue\x7d"

def innerText : String := ".a\x7bdisplay:none\x7d"

def document : Document := ⟨#[
  ⟨.root, none, [1]⟩,
  element 0 "svg" [] [2, 6, 7, 8],
  element 1 "style" [] [3, 4],
  ⟨.text outerText, some 2, []⟩,
  element 2 "style" [] [5],
  ⟨.text innerText, some 4, []⟩,
  element 1 "rect" [⟨.plain "class", "a"⟩] [],
  element 1 "circle" [⟨.plain "class", "a"⟩, ⟨.plain "style", "x:y"⟩] [],
  element 1 "g" [⟨.plain "style", "a:b"⟩] []]⟩

def outer : Stylesheet := ⟨[
  .style ⟨0, ["rect"], [⟨"fill", "red", .normal⟩]⟩,
  .style ⟨1, [".a"], [⟨"fill", "blue", .normal⟩]⟩,
  .style ⟨2, ["[style]"], [⟨"stroke", "blue", .normal⟩]⟩]⟩

def inner : Stylesheet := ⟨[.style ⟨0, [".a"], [⟨"display", "none", .normal⟩]⟩]⟩

def sheets : List Sheet := [⟨2, outer, false⟩, ⟨4, inner, false⟩]

/-- The document after the pass. -/
def after : Document := ⟨#[
  ⟨.root, none, [1]⟩,
  element 0 "svg" [] [2, 6, 7, 8],
  element 1 "style" [] [9],
  ⟨.text outerText, none, []⟩,
  ⟨.element (.ofAttributes (.plain "style") []), none, [10]⟩,
  ⟨.text innerText, none, []⟩,
  element 1 "rect" [⟨.plain "class", "a"⟩, ⟨.plain "style", "fill:red"⟩] [],
  element 1 "circle" [⟨.plain "class", "a"⟩, ⟨.plain "style", "x:y"⟩] [],
  element 1 "g" [⟨.plain "style", "a:b"⟩] [],
  ⟨.text ".a\x7bfill:blue\x7d[style]\x7bstroke:blue\x7d", some 2, []⟩,
  ⟨.text innerText, some 4, []⟩]⟩

def isRect : ComplexSelector := .compound [.type "rect"]

def isA : ComplexSelector := .compound [.hasClass "a"]

def hasStyle : ComplexSelector := .compound [.attr ⟨"style", .present, "", false⟩]

theorem read_rect : ComplexSelector.read "rect" = .ok isRect :=
  ComplexSelector.read_of_step (by cbv) (by cbv)

theorem read_a : ComplexSelector.read ".a" = .ok isA :=
  ComplexSelector.read_of_step (by cbv) (by cbv)

theorem read_style : ComplexSelector.read "[style]" = .ok hasStyle :=
  ComplexSelector.read_of_step (by cbv) (by cbv)

theorem select_document :
    document.select Document.root [isRect] = [6] ∧
      document.select Document.root [isA] = [6, 7] ∧
      document.select Document.root [hasStyle] = [7, 8] := by
  decide

theorem select_after :
    after.select Document.root [isA] = [6, 7] ∧
      after.select Document.root [hasStyle] = [6, 7, 8] := by
  decide

theorem sheetsOf_document : sheetsOf document = sheets := by
  have helements : document.elements = [1, 2, 4, 6, 7, 8] := by decide
  have houter : Stylesheet.read outerText = .ok outer := by cbv
  have hinner : Stylesheet.read innerText = .ok inner := by cbv
  have hfirst : sheetOf? document 2 = some ⟨2, outer, document.holdsCdata 2⟩ :=
    sheetOf?_of_read (by decide) (by decide) (by decide) houter
  have hsecond : sheetOf? document 4 = some ⟨4, inner, document.holdsCdata 4⟩ :=
    sheetOf?_of_read (by decide) (by decide) (by decide) hinner
  have hother : ∀ id ∈ [1, 6, 7, 8],
      (document.element? id).any (isSheet document id) = false := by
    decide
  have hnone : ∀ id ∈ [1, 6, 7, 8], sheetOf? document id = none := by
    intro id hid
    rw [sheetOf?, hother id hid]
    rfl
  have hcdata : document.holdsCdata 2 = false ∧ document.holdsCdata 4 = false := by
    decide
  rw [sheetsOf, helements]
  simp [hfirst, hsecond, hnone, hcdata, sheets]

theorem clausesOf_document :
    clausesOf (sheetsOf document) =
      [⟨2, [], [⟨"fill", "red", .normal⟩], "rect"⟩,
        ⟨2, [], [⟨"fill", "blue", .normal⟩], ".a"⟩,
        ⟨2, [], [⟨"stroke", "blue", .normal⟩], "[style]"⟩,
        ⟨4, [], [⟨"display", "none", .normal⟩], ".a"⟩] := by
  rw [sheetsOf_document]
  rfl

theorem inlined_document :
    inlined .default document =
      [⟨2, (0, 0), isRect, ⟨[⟨"fill", "red", .normal⟩]⟩, [6]⟩] := by
  have hselectors : selectorsOf sheets =
      [⟨⟨0, 0, 0⟩, 2, [], ⟨0, ["rect"], [⟨"fill", "red", .normal⟩]⟩, "rect"⟩,
        ⟨⟨0, 1, 0⟩, 2, [], ⟨1, [".a"], [⟨"fill", "blue", .normal⟩]⟩, ".a"⟩,
        ⟨⟨0, 2, 0⟩, 2, [], ⟨2, ["[style]"], [⟨"stroke", "blue", .normal⟩]⟩, "[style]"⟩,
        ⟨⟨1, 0, 0⟩, 4, [], ⟨0, [".a"], [⟨"display", "none", .normal⟩]⟩, ".a"⟩] := rfl
  have hfilter : (recordsOf .default document (sheetsOf document)).filter
      Options.default.isEligible = [⟨2, (0, 0), isRect, ⟨[⟨"fill", "red", .normal⟩]⟩, [6]⟩] := by
    obtain ⟨hrect, ha, hstyle⟩ := select_document
    have hplain : isRect.withoutPseudos = isRect ∧ isA.withoutPseudos = isA ∧
        hasStyle.withoutPseudos = hasStyle := ⟨rfl, rfl, rfl⟩
    have hpseudo : isRect.pseudoText = "" ∧ isA.pseudoText = "" ∧ hasStyle.pseudoText = "" :=
      ⟨rfl, rfl, rfl⟩
    rw [sheetsOf_document, ← filterMap_selectorsOf, hselectors]
    simp only [List.filterMap_cons, List.filterMap_nil, PlacedSelector.record?, record?, read_rect,
      read_a, read_style, hplain, hpseudo, hrect, ha, hstyle]
    rfl
  have hperm := perm_inlined .default document
  rw [hfilter] at hperm
  exact List.perm_singleton.1 hperm

theorem inline_document : inline .default document = after := by
  rw [inline_eq]
  simp only [styled, inlined_document, sheetsOf_document]
  decide +kernel

theorem declarationAt_after :
    after.declarationAt 6 "stroke" = none ∧ after.declarationAt 7 "display" = none ∧
      after.declarationAt 8 "stroke" = none := by
  decide +kernel

theorem clausesOf_sheetsLeft :
    clausesOf (sheetsLeft document) =
      [⟨2, [], [⟨"fill", "blue", .normal⟩], ".a"⟩,
        ⟨2, [], [⟨"stroke", "blue", .normal⟩], "[style]"⟩] := by
  rw [sheetsLeft, reducedSheets, inline_document, inlined_document, sheetsOf_document]
  decide

theorem hasPlainSheets_document : HasPlainSheets document where
  processed := by
    rw [sheetsOf_document]
    decide
  rules := by
    rw [sheetsOf_document]
    intro s hs r hr
    simp only [sheets, List.mem_cons, List.not_mem_nil, or_false] at hs
    rcases hs with rfl | rfl
    · simp only [outer, List.mem_cons, List.not_mem_nil, or_false] at hr
      rcases hr with rfl | rfl | rfl
      · exact ⟨_, rfl⟩
      · exact ⟨_, rfl⟩
      · exact ⟨_, rfl⟩
    · simp only [inner, List.mem_cons, List.not_mem_nil, or_false] at hr
      exact ⟨_, hr⟩
  selectors := by
    rw [clausesOf_document]
    intro c hc
    simp only [List.mem_cons, List.not_mem_nil, or_false] at hc
    rcases hc with rfl | rfl | rfl | rfl
    · exact ⟨_, read_rect, rfl⟩
    · exact ⟨_, read_a, rfl⟩
    · exact ⟨_, read_style, rfl⟩
    · exact ⟨_, read_a, rfl⟩

/-- An element for which nothing is inlined is not overtaken. -/
theorem not_overtaken_of_declarationAt {d : Document} {id : NodeId} {p : String}
    (h : (inline .default d).declarationAt id p = none) : ¬ Overtaken d id p := by
  intro hex
  obtain ⟨-, lifted, -, -, hlifted, -⟩ := hex
  exact (isOutcome_declarationAt_inline .default d id p).eq_none_iff.1 h lifted hlifted.1

end Mixed

/-- The pass does not preserve the cascade: a declaration that is inlined outranks one
that stays, a selector comes to match, and a sheet leaves with the one around it. -/
theorem not_preserved :
    HasPlainSheets Mixed.document ∧
      6 ∈ (inline .default Mixed.document).elements ∧
      7 ∈ (inline .default Mixed.document).elements ∧
      ¬ Preserved Mixed.document 6 "fill" ∧
      (¬ Overtaken Mixed.document 6 "stroke" ∧ ¬ Preserved Mixed.document 6 "stroke") ∧
      (¬ Overtaken Mixed.document 7 "display" ∧ ¬ Preserved Mixed.document 7 "display") := by
  have hvalues : ¬ Preserved Mixed.document 6 "fill" ∧ ¬ Preserved Mixed.document 6 "stroke" ∧
      ¬ Preserved Mixed.document 7 "display" := by
    simp only [preserved_iff_cascaded, Mixed.clausesOf_document, Mixed.clausesOf_sheetsLeft,
      Mixed.inline_document, List.filterMap_cons, List.filterMap_nil, Clause.bid?,
      Mixed.read_rect, Mixed.read_a, Mixed.read_style, Mixed.select_document, Mixed.select_after]
    cbv
    decide
  obtain ⟨hstroke, hdisplay, -⟩ := Mixed.declarationAt_after
  rw [← Mixed.inline_document] at hstroke hdisplay
  have helements : 6 ∈ (inline .default Mixed.document).elements ∧
      7 ∈ (inline .default Mixed.document).elements := by
    rw [Mixed.inline_document]
    decide
  exact ⟨Mixed.hasPlainSheets_document, helements.1, helements.2, hvalues.1,
    ⟨Mixed.not_overtaken_of_declarationAt hstroke, hvalues.2.1⟩,
    ⟨Mixed.not_overtaken_of_declarationAt hdisplay, hvalues.2.2⟩⟩

/-- The group of that document is matched by the same selectors before and after. -/
theorem preserved_group :
    Undisturbed Mixed.document 8 ∧ Preserved Mixed.document 8 "stroke" := by
  have hclauses : clausesOf (reducedSheets Mixed.document) =
      [⟨2, [], [⟨"fill", "blue", .normal⟩], ".a"⟩,
        ⟨2, [], [⟨"stroke", "blue", .normal⟩], "[style]"⟩,
        ⟨4, [], [⟨"display", "none", .normal⟩], ".a"⟩] := by
    rw [reducedSheets, Mixed.inlined_document, Mixed.sheetsOf_document]
    decide
  have hundisturbed : Undisturbed Mixed.document 8 := by
    unfold Undisturbed
    rw [hclauses, Mixed.inline_document]
    intro c hc selector hread
    simp only [List.mem_cons, List.not_mem_nil, or_false] at hc
    rcases hc with rfl | rfl | rfl
    · obtain rfl := Except.ok.inj (Mixed.read_a.symm.trans hread)
      decide
    · obtain rfl := Except.ok.inj (Mixed.read_style.symm.trans hread)
      decide
    · obtain rfl := Except.ok.inj (Mixed.read_a.symm.trans hread)
      decide
  obtain ⟨-, -, hstroke⟩ := Mixed.declarationAt_after
  rw [← Mixed.inline_document] at hstroke
  exact ⟨hundisturbed, (preserved_iff_not_overtaken Mixed.document 8 "stroke" hundisturbed).2
    (Mixed.not_overtaken_of_declarationAt hstroke)⟩

end Inlining
end SvgCompact
