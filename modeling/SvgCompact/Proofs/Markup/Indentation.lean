import Mathlib.Algebra.GroupWithZero.Nat
import SvgCompact.Proofs.Markup.Replanting
import SvgCompact.Proofs.Optimizer.Validity
import SvgCompact.Proofs.Pass.Termination

/-!
What the line breaks of pretty printing are read as.

Printing breaks lines where no characters stand between the nodes; reading keeps blank
text below the elements that lay out text.  The two rules disagree on an element of the
latter kind that has children and no characters of its own: there every line break is
read as a text.  Everywhere else pretty and compact markup are read alike:
`read_print_pretty`.
-/

namespace SvgCompact
namespace Document

/-- Whether blank text counts below a node in which pretty printing breaks lines. -/
def isBareText (d : Document) (id : NodeId) : Bool :=
  Markup.showsBlanks (d.content id) && Markup.mayBreak d id && !(d.children id).isEmpty

/-- The texts that line breaks are read as: one in front of each child of such an element,
and one behind the last. -/
def breakTexts (d : Document) : Nat :=
  ((d.elements.filter d.isBareText).map fun id => (d.children id).length + 1).sum

end Document

namespace Branches

open Markup

def length : Branches → Nat
  | nil => 0
  | node _ _ rest => rest.length + 1

/-- The texts that the line breaks below a node are read as. -/
def breakTextsAt (c : Content) (below : Branches) : Nat :=
  if showsBlanks c && !below.isNil && !below.holdsCharacters then below.length + 1 else 0

def breakTexts (f : Branches) : Nat :=
  (f.nodes.map fun x => breakTextsAt x.1 x.2).sum

theorem breakTexts_node (c : Content) (below rest : Branches) : (node c below rest).breakTexts =
    breakTextsAt c below + below.breakTexts + rest.breakTexts := by
  rw [breakTexts, nodes, List.map_cons, List.map_append, List.sum_cons, List.sum_append,
    ← Nat.add_assoc]
  rfl

/-! ## Rows with line breaks -/

section Rows

variable {options : PrintOptions}

theorem isKept_lineBreak (shown : Bool) (options : PrintOptions) (depth : Nat) :
    isKept shown (String.ofList (lineBreak options depth)) = shown := by
  have hblank : (Text.trim (lineBreak options depth)).isEmpty = true := by
    rw [List.isEmpty_iff, Text.trim, Text.trimBy_eq_nil_iff]
    intro c hc
    rcases List.mem_cons.1 hc with rfl | hc
    · decide
    · rw [List.eq_of_mem_replicate hc]
      decide
  have hne : (String.ofList (lineBreak options depth)).isEmpty = false := by
    rw [← Bool.not_eq_true, String.isEmpty_iff, ← String.toList_eq_nil_iff, String.toList_ofList]
    exact List.cons_ne_nil _ _
  rw [isKept, hne, String.toList_ofList, hblank, Bool.not_true, Bool.or_false]
  rfl

theorem length_laidOut (options : PrintOptions) (depth : Nat) (f : Branches) :
    (f.laidOut options depth).length = f.length := by
  induction f with
  | nil => rfl
  | node c below rest _ ihRest => rw [laidOut, length, length, ihRest]

theorem count_restored (options : PrintOptions) (shown : Bool) (c : Content)
    (below rest : Branches) : (restored options shown c below rest).count =
      (restored options shown c below nil).count + rest.count := by
  unfold restored
  split
  · simp only [count]
    omega
  · split
    · simp only [count]
      omega
    · exact (Nat.zero_add _).symm
  · simp only [count]
    omega

/-- Where blank text does not count, line breaks are lost again. -/
theorem readBack_spread_of_hidden (m n : Nat) (f : Branches) :
    (f.spread (lineBreak options m) (lineBreak options n)).readBack options false =
      f.readBack options false := by
  have hlost : ∀ (k : Nat) (rest : Branches),
      restored options false (.text (String.ofList (lineBreak options k))) nil rest = rest := by
    intro k rest
    rw [restored, isKept_lineBreak, if_neg Bool.false_ne_true]
  induction f with
  | nil => exact hlost n nil
  | node c below rest _ ihRest =>
    rw [spread, readBack, readBack, readBack, readBack, hlost, ihRest]

/-- Where it counts, one text is read in front of each node and one behind the last. -/
theorem count_readBack_spread (m n : Nat) (f : Branches) :
    ((f.spread (lineBreak options m) (lineBreak options n)).readBack options true).count =
      (f.readBack options true).count + (f.length + 1) := by
  have hkept : ∀ (k : Nat) (rest : Branches),
      (restored options true (.text (String.ofList (lineBreak options k))) nil rest).count =
        rest.count + 1 := by
    intro k rest
    rw [restored, isKept_lineBreak, if_pos rfl, count]
    simp only [count]
    omega
  induction f with
  | nil => exact hkept n nil
  | node c below rest _ ihRest =>
    rw [spread, readBack, readBack, readBack, readBack, hkept, count_restored, ihRest,
      count_restored options true c _ (rest.readBack options true), length]
    omega

end Rows

/-! ## Trees with line breaks -/

section Trees

variable {options : PrintOptions} (hpretty : options.pretty = true)

/-- What is below a node as it is read after pretty printing. -/
def readBelow (options : PrintOptions) (depth : Nat) (c : Content) (below : Branches) : Branches :=
  (laidBelow options depth below).readBack options (showsBlanks c)

theorem readBack_laidOut_node (depth : Nat) (shown : Bool) (c : Content) (below rest : Branches) :
    ((node c below rest).laidOut options depth).readBack options shown =
      restored options shown c (readBelow options depth c below)
        ((rest.laidOut options depth).readBack options shown) := rfl

theorem readBelow_nil (options : PrintOptions) (depth : Nat) (c : Content) :
    readBelow options depth c nil = nil := by
  have hbroken : isBroken options nil = false := by
    rw [isBroken, isNil, Bool.not_true, Bool.and_false, Bool.false_and]
  rw [readBelow, laidBelow, hbroken]
  rfl

include hpretty

/-- Line breaks below a node that shows them come on top of what its children are read as. -/
theorem readBelow_cases (depth : Nat) (c : Content) (below : Branches) :
    (breakTextsAt c below = below.length + 1 ∧ (readBelow options depth c below).count =
      ((below.laidOut options (depth + 1)).readBack options (showsBlanks c)).count +
        (below.length + 1)) ∨
    (breakTextsAt c below = 0 ∧ readBelow options depth c below =
      (below.laidOut options (depth + 1)).readBack options (showsBlanks c)) := by
  rw [readBelow, laidBelow, isBroken, hpretty, Bool.true_and, breakTextsAt, Bool.and_assoc]
  cases hbroken : !below.isNil && !below.holdsCharacters with
  | false => exact .inr ⟨by rw [Bool.and_false]; rfl, rfl⟩
  | true =>
    cases hshown : showsBlanks c with
    | false => exact .inr ⟨rfl, readBack_spread_of_hidden _ _ _⟩
    | true =>
      refine .inl ⟨rfl, ?_⟩
      rw [if_pos rfl, count_readBack_spread, length_laidOut]

theorem count_readBack_laidOut (depth : Nat) (shown : Bool) {f : Branches}
    (hwhole : f.Forall fun c below => c.isElement = false → below = nil) :
    ((f.laidOut options depth).readBack options shown).count =
      (f.readBack options shown).count + f.breakTexts := by
  induction f generalizing depth shown with
  | nil => rfl
  | node c below rest ihBelow ihRest =>
    obtain ⟨hleaf, hbelow, hrest⟩ := hwhole
    rw [readBack_laidOut_node, readBack, count_restored, ihRest depth shown hrest, breakTexts_node,
      count_restored options shown c _ (rest.readBack options shown)]
    cases helement : c.isElement with
    | false =>
      obtain rfl := hleaf helement
      have hnone : breakTextsAt c nil = 0 := by
        rw [breakTextsAt, isNil, Bool.not_true, Bool.and_false, Bool.false_and]
        rfl
      rw [readBelow_nil, hnone]
      show _ = _ + _ + (0 + 0 + _)
      rw [readBack]
      omega
    | true =>
      obtain ⟨e, he⟩ := Option.isSome_iff_exists.1 helement
      obtain rfl := Content.eq_element_of_element? he
      have hcount := ihBelow (depth + 1) (showsBlanks (.element e)) hbelow
      simp only [restored, count]
      rcases readBelow_cases hpretty depth (.element e) below with ⟨hat, heq⟩ | ⟨hat, heq⟩
      · rw [hat, heq]
        omega
      · rw [hat, heq]
        omega

theorem readBack_laidOut_eq (depth : Nat) (shown : Bool) {f : Branches}
    (hnone : f.breakTexts = 0) : (f.laidOut options depth).readBack options shown =
      f.readBack options shown := by
  induction f generalizing depth shown with
  | nil => rfl
  | node c below rest ihBelow ihRest =>
    rw [breakTexts_node] at hnone
    rw [readBack_laidOut_node, ihRest depth shown (by omega), readBack]
    rcases readBelow_cases hpretty depth c below with ⟨hat, -⟩ | ⟨-, heq⟩
    · omega
    · rw [heq, ihBelow (depth + 1) _ (by omega)]

end Trees

/-! ## Trees without neighbouring texts -/

theorem isApart_spread (before after : List Char) {f : Branches} (hnone : f.holdsCharacters = false)
    (h : f.IsApart) : (f.spread before after).IsApart := by
  induction f with
  | nil => exact ⟨fun h => Bool.false_ne_true h.2, trivial, trivial⟩
  | node c below rest _ ihRest =>
    rw [holdsCharacters, Bool.or_eq_false_iff] at hnone
    have hc : ¬ c.isText = true := by
      intro htext
      cases c with
      | text u => cases hnone.1
      | _ => cases htext
    exact ⟨fun h => hc h.2, trivial, fun h => hc h.1, h.2.1, ihRest hnone.2 h.2.2⟩

theorem holdsCharacters_laidOut (options : PrintOptions) (depth : Nat) (f : Branches) :
    (f.laidOut options depth).holdsCharacters = f.holdsCharacters := by
  induction f with
  | nil => rfl
  | node c below rest _ ihRest => rw [laidOut, holdsCharacters, holdsCharacters, ihRest]

theorem isApart_laidOut (options : PrintOptions) (depth : Nat) {f : Branches} (h : f.IsApart) :
    (f.laidOut options depth).IsApart := by
  induction f generalizing depth with
  | nil => trivial
  | node c below rest ihBelow ihRest =>
    have hstarts : (rest.laidOut options depth).startsWithText = rest.startsWithText := by
      cases rest <;> rfl
    refine ⟨fun htexts => h.1 (by rwa [hstarts] at htexts), ?_, ihRest depth h.2.2⟩
    have hbelow := ihBelow (depth + 1) h.2.1
    split
    · next hbroken =>
      rw [isBroken, Bool.and_eq_true, Bool.not_eq_true'] at hbroken
      exact isApart_spread _ _ ((holdsCharacters_laidOut options _ below).trans hbroken.2) hbelow
    · exact hbelow

end Branches

/-! ## Documents -/

namespace Markup

open Document (root)

variable {d : Document}

theorem isApart_branches (hd : d.IsOrderly) (ids : List NodeId)
    (hids : (ids.map fun c => (d.content c).isText).IsChain fun x y => ¬ (x = true ∧ y = true)) :
    (d.branches ids).IsApart := by
  have hrow : ∀ ids : List NodeId,
      ((ids.map fun c => (d.content c).isText).IsChain fun x y => ¬ (x = true ∧ y = true)) →
      (∀ id ∈ ids, (d.branches (d.children id)).IsApart) → (d.branches ids).IsApart := by
    intro ids hchain hbelow
    induction ids with
    | nil =>
      rw [Document.branches_nil]
      trivial
    | cons id rest ih =>
      rw [Document.branches_cons hd.isForest]
      refine ⟨?_, hbelow id (by simp), ih hchain.tail fun c hc => hbelow c (by simp [hc])⟩
      cases rest with
      | nil =>
        rw [Document.branches_nil]
        exact fun h => Bool.false_ne_true h.2
      | cons next more =>
        rw [Document.branches_cons hd.isForest]
        rw [List.map_cons, List.map_cons, List.isChain_cons_cons] at hchain
        exact hchain.1
  exact hrow ids hids fun id _ =>
    hd.isForest.upward (fun id ih => hrow (d.children id) (hd.apart id) ih) id

theorem length_branches (hd : d.IsForest) (ids : List NodeId) :
    (d.branches ids).length = ids.length := by
  induction ids with
  | nil => rw [Document.branches_nil]; rfl
  | cons id rest ih => rw [Document.branches_cons hd, Branches.length, ih, List.length_cons]

theorem breakTextsAt_branches (hd : d.IsForest) (id : NodeId) :
    Branches.breakTextsAt (d.content id) (d.branches (d.children id)) =
      if d.isBareText id then (d.children id).length + 1 else 0 := by
  rw [Branches.breakTextsAt, isNil_branches hd, length_branches hd, Document.isBareText,
    mayBreak_eq hd, Bool.and_assoc, Bool.and_assoc, Bool.and_comm (!_)]

theorem isElement_of_isBareText {id : NodeId} (h : d.isBareText id = true) :
    d.isElement id = true := by
  rw [Document.isBareText, Bool.and_eq_true, Bool.and_eq_true, showsBlanks] at h
  cases hc : (d.content id).element? with
  | none =>
    rw [hc] at h
    cases h.1.1
  | some e => exact Option.isSome_iff_exists.2 ⟨e, hc⟩

theorem breakTexts_branches (hd : d.IsRooted) :
    (d.branches (d.children root)).breakTexts = d.breakTexts := by
  have hsum : ∀ ids : List NodeId, (((ids.filter d.isElement).filter d.isBareText).map
      fun id => (d.children id).length + 1).sum =
        (ids.map fun id => if d.isBareText id then (d.children id).length + 1 else 0).sum := by
    intro ids
    induction ids with
    | nil => rfl
    | cons id rest ih =>
      rw [List.map_cons, List.sum_cons, ← ih]
      cases hbare : d.isBareText id with
      | true =>
        rw [List.filter_cons_of_pos (isElement_of_isBareText hbare), List.filter_cons_of_pos hbare]
        rfl
      | false =>
        have hskip : ((id :: rest).filter d.isElement).filter d.isBareText =
            (rest.filter d.isElement).filter d.isBareText := by
          cases helement : d.isElement id <;> simp [helement, hbare]
        rw [hskip]
        exact (Nat.zero_add _).symm
  have hroot : d.isBareText root = false := by
    rw [← Bool.not_eq_true]
    intro hbare
    have helement := isElement_of_isBareText hbare
    rw [hd.not_isElement_root] at helement
    cases helement
  rw [Branches.breakTexts, Document.nodes_branches hd.isForest, List.map_map, Document.breakTexts,
    Document.elements, hsum, hd.isForest.subtree_eq, List.map_cons, List.sum_cons, hroot]
  show _ = 0 + _
  rw [Nat.zero_add]
  exact congrArg List.sum (List.map_congr_left fun id _ => breakTextsAt_branches hd.isForest id)

theorem breakTexts_eq_zero_iff :
    d.breakTexts = 0 ↔ ∀ id ∈ d.elements, d.isBareText id = false := by
  rw [Document.breakTexts, List.sum_eq_zero_iff_forall_eq_nat, List.forall_mem_map]
  constructor
  · intro h id hid
    rw [← Bool.not_eq_true]
    intro hbare
    cases h id (List.mem_filter.2 ⟨hid, hbare⟩)
  · intro h id hid
    obtain ⟨hid, hbare⟩ := List.mem_filter.1 hid
    rw [h id hid] at hbare
    cases hbare

theorem readBack_congr {options options' : PrintOptions}
    (h : ∀ e, reprinted options e = reprinted options' e) (shown : Bool) (f : Branches) :
    f.readBack options shown = f.readBack options' shown := by
  induction f generalizing shown with
  | nil => rfl
  | node c below rest ihBelow ihRest =>
    rw [Branches.readBack, Branches.readBack, ihBelow, ihRest]
    cases c with
    | element e =>
      simp only [Branches.restored]
      rw [h e]
    | _ => rfl

theorem hasOneRoot_of_read {s : String} (h : read s = .ok d) : d.HasOneRoot := by
  obtain ⟨hrooted, -, r, helement, hr, hothers⟩ := of_read h
  obtain ⟨e, he⟩ := Option.isSome_iff_exists.1 helement
  exact Document.hasOneRoot_of_parent hrooted ⟨⟨e, he, rfl⟩, .inl hr, fun _ c hc => hothers c hc⟩ hr

/-- Pretty and compact markup of a document that was read are both read again.  The former
has a text for each line break in an element that lays out text and holds none itself; where
there is no such element, the two are read as the same document. -/
theorem read_print_pretty {s : String} (h : read s = .ok d) (hnames : d.HasWordNames)
    (hdoctype : d.HasNoBlankDoctype) (options : PrintOptions) :
    ∃ compact pretty, read (print { options with pretty := false } d) = .ok compact ∧
      read (print { options with pretty := true } d) = .ok pretty ∧
      pretty.size = compact.size + d.breakTexts ∧
      (pretty = compact ↔ ∀ id ∈ d.elements, d.isBareText id = false) := by
  obtain ⟨hd, hspelled⟩ := isOrderly_of_read h
  obtain ⟨hsound, hcontents⟩ := isPrintable_of_read h hnames hdoctype
  have hrooted := hsound.toIsRooted
  have hread : ∀ options, read (print options d) = .ok (replanted options d) :=
    read_print_eq hrooted hcontents (fun c u _ => (hspelled c).cdata u) (hasOneRoot_of_read h)
  have hapart := isApart_branches hd (d.children root) (hd.apart root)
  have hcongr : ∀ f : Branches, f.readBack { options with pretty := false } false =
      f.readBack { options with pretty := true } false := by
    intro f
    apply readBack_congr
    intro e
    rfl
  have hcompact : replanted { options with pretty := false } d =
      ((d.branches (d.children root)).readBack { options with pretty := true } false).plant root
        Document.empty := by
    rw [replanted, Branches.laidOut_of_compact rfl, Branches.joined_of_isApart hapart, hcongr]
  have hpretty : replanted { options with pretty := true } d =
      (((d.branches (d.children root)).laidOut { options with pretty := true } 0).readBack
        { options with pretty := true } false).plant root Document.empty := by
    rw [replanted, Branches.joined_of_isApart (Branches.isApart_laidOut _ 0 hapart)]
  have hwhole : (d.branches (d.children root)).Forall fun c below =>
      c.isElement = false → below = .nil :=
    Document.forall_branches hd.isForest fun _ hid _ hj =>
      Document.branches_children_of_leaf hrooted hd.holder hid hj
  have hsize : (replanted { options with pretty := true } d).size =
      (replanted { options with pretty := false } d).size + d.breakTexts := by
    rw [hcompact, hpretty, Branches.size_plant, Branches.size_plant,
      Branches.count_readBack_laidOut rfl 0 false hwhole,
      breakTexts_branches hrooted, Nat.add_assoc]
  refine ⟨_, _, hread _, hread _, hsize, ?_⟩
  rw [← breakTexts_eq_zero_iff]
  constructor
  · intro heq
    rw [heq] at hsize
    omega
  · intro hnone
    rw [hcompact, hpretty, Branches.readBack_laidOut_eq rfl 0 false
      ((breakTexts_branches hrooted).trans hnone)]

/-! ## A text element that holds an element only -/

namespace Bare

def outer : Element := .ofAttributes (.plain "text") []

def inner : Element := .ofAttributes (.plain "g") []

def document : Document :=
  ((Document.empty.append root (.element outer)).1.append 1 (.element inner)).1

theorem isPlain_outer : outer.IsPlain :=
  Element.all_ofAttributes (QName.isPlain_read (s := "text") (by decide) (by decide)) (by simp)

theorem isPlain_inner : inner.IsPlain :=
  Element.all_ofAttributes (QName.isPlain_read (s := "g") (by decide) (by decide)) (by simp)

theorem add_outer : Builder.empty.add (.start "text".toList false) =
    .ok ⟨(Document.empty.append root (.element outer)).1, [(1, "text".toList)], true⟩ := by
  rw [Builder.add, Builder.addStart_eq_ok_iff]
  refine ⟨rfl, outer, elementOf_printHead isPlain_outer .default, ?_⟩
  rw [show tagName "text".toList = "text".toList by decide]
  rfl

theorem add_inner : Builder.add
    ⟨(Document.empty.append root (.element outer)).1, [(1, "text".toList)], true⟩
      (.start "g".toList true) = .ok ⟨document, [(1, "text".toList)], true⟩ := by
  rw [Builder.add, Builder.addStart_eq_ok_iff]
  exact ⟨rfl, inner, elementOf_printHead isPlain_inner .default, rfl⟩

theorem read_bare : read "<text><g/></text>" = .ok document := by
  have hend : Reads ⟨document, [(1, "text".toList)], true⟩ "</text>".toList ⟨document, [], true⟩ :=
    .cons (show Piece.next '<' "/text>".toList = .ok (.finish "text".toList, []) from rfl) rfl
      (.nil _)
  have hinner : Reads
      ⟨(Document.empty.append root (.element outer)).1, [(1, "text".toList)], true⟩
      "<g/></text>".toList ⟨document, [], true⟩ :=
    .cons (show Piece.next '<' "g/></text>".toList =
      .ok (.start "g".toList true, "</text>".toList) from rfl) add_inner hend
  exact read_eq_ok_iff.2 ⟨⟨document, [], true⟩,
    .cons (show Piece.next '<' "text><g/></text>".toList =
      .ok (.start "text".toList false, "<g/></text>".toList) from rfl) add_outer hinner,
    rfl, rfl, rfl⟩

/-- The two line breaks around the group are read as texts. -/
theorem read_print_bare : read "<text><g/></text>" = .ok document ∧ document.HasWordNames ∧
    document.HasNoBlankDoctype ∧ ∃ compact pretty,
      read (print { PrintOptions.default with pretty := false } document) = .ok compact ∧
      read (print { PrintOptions.default with pretty := true } document) = .ok pretty ∧
      pretty.size = compact.size + 2 ∧ pretty ≠ compact := by
  have hcontent : ∀ j, document.content j = if j = 1 then .element outer else
      if j = 2 then .element inner else .root := by
    intro j
    match j with
    | 0 => rfl
    | 1 => rfl
    | 2 => rfl
    | j + 3 => rfl
  have hplain : ∀ j e, document.element? j = some e → e.IsPlain := by
    intro j e he
    have hc := Content.eq_element_of_element? he
    rw [hcontent] at hc
    split_ifs at hc
    · cases hc
      exact isPlain_outer
    · cases hc
      exact isPlain_inner
  have hdoctype : document.HasNoBlankDoctype := by
    intro j body hbody
    rw [hcontent] at hbody
    split_ifs at hbody
  have hnames : document.HasWordNames := fun j e he =>
    ⟨(hplain j e he).name.toIsWord, fun a ha => ((hplain j e he).names a ha).toIsWord⟩
  obtain ⟨compact, pretty, hcompact, hpretty, hsize, -⟩ :=
    read_print_pretty read_bare hnames hdoctype .default
  have hbreaks : document.breakTexts = 2 := by decide
  rw [hbreaks] at hsize
  refine ⟨read_bare, hnames, hdoctype, compact, pretty, hcompact, hpretty, hsize, fun hsame => ?_⟩
  rw [hsame] at hsize
  omega

end Bare

end Markup

/-! ## The normal form of documents that are read

Every walk through such a document comes to an end and meets its nodes in the order of
their numbers.  Blank text is there only where it is laid out, no text is split in two, and
the second forms of an element are those of its attributes. -/

theorem Element.isAnyOf_textElements_iff {e : Element} : e.isAnyOf Markup.textElements = true ↔
    e.name = .plain "text" ∨ e.name = .plain "tspan" ∨ e.name = .plain "textPath" := by
  have htext : QName.read "text" = QName.plain "text" := by decide
  have htspan : QName.read "tspan" = QName.plain "tspan" := by decide
  have hpath : QName.read "textPath" = QName.plain "textPath" := by decide
  simp only [isAnyOf, Markup.textElements, List.any_cons, List.any_nil, Bool.or_false,
    Bool.or_eq_true, isNamed, isNamed_iff_eq_plain htext, isNamed_iff_eq_plain htspan,
    isNamed_iff_eq_plain hpath]

namespace Document

variable {d : Document}

/-- The normal form of documents.  The nodes are numbered in document order; at the top are
one element and no characters, and only elements hold nodes otherwise; a text is not empty,
does not stand beside another text, and is blank only below an element without prefix that
lays out text; the names of attributes do not repeat. -/
structure IsNormal (d : Document) : Prop extends IsWellLinked d where
  subtree_root : d.subtree root = List.range d.size
  oneRoot : d.HasOneRoot
  holders : ∀ p, d.children p ≠ [] → p = root ∨ d.isElement p = true
  text_ne : ∀ j s, d.content j = .text s → s ≠ ""
  blank : ∀ j s, d.content j = .text s → (∀ c ∈ s.toList, Text.isBlank c = true) →
    ∃ p e, d.parent j = some p ∧ d.element? p = some e ∧
      (e.name = .plain "text" ∨ e.name = .plain "tspan" ∨ e.name = .plain "textPath")
  apart : ∀ p, (d.children p).IsChain fun x y =>
    ¬ ((d.content x).isText = true ∧ (d.content y).isText = true)
  nodup_names : ∀ j e, d.element? j = some e → (e.attributes.map (·.name)).Nodup
  isFresh : ∀ j e, d.element? j = some e → e.IsFresh

/-- Whatever holds something else than the document itself stands below some node. -/
theorem IsNumbered.exists_parent (h : d.IsNumbered) (hroot : d.content root = .root) {j : NodeId}
    (hj : d.content j ≠ .root) : ∃ p, d.parent j = some p := by
  cases j with
  | zero => exact absurd hroot hj
  | succ n =>
    have hlt : n + 1 < d.size := by
      by_contra hle
      exact hj (content_of_size_le (Nat.le_of_not_lt hle))
    obtain ⟨p, hp, -⟩ := h.parent_succ n hlt
    exact ⟨p, hp⟩

end Document

namespace Markup

open Document (root)

theorem isNormal_of_read {s : String} {d : Document} (h : read s = .ok d) : d.IsNormal := by
  obtain ⟨horderly, -⟩ := isOrderly_of_read h
  have hcoherent := isCoherent_of_read h
  have hfits : ∀ j s, d.content j = .text s → ∃ p, d.parent j = some p ∧ Fits d p (.text s) := by
    intro j s hs
    obtain ⟨p, hp⟩ := horderly.toIsNumbered.exists_parent hcoherent.content_root
      (j := j) (by simp [hs])
    exact ⟨p, hp, hs ▸ horderly.fits j p hp⟩
  refine ⟨hcoherent.toIsRooted.isWellLinked,
    horderly.subtreeWithin_root hcoherent.size_pos (Nat.le_refl _), hasOneRoot_of_read h,
    fun p hp => ?_, fun j s hs => ?_, fun j s hs hblank => ?_, fun p => ?_,
    fun j e he => (hcoherent.names j e he).nodup, hcoherent.fresh⟩
  · obtain ⟨c, hc⟩ := List.exists_mem_of_ne_nil _ hp
    exact horderly.holder c p ((horderly.isForest.mem_children_iff p c).1 hc)
  · obtain ⟨p, -, hfit⟩ := hfits j s hs
    exact (hfit s rfl).1
  · obtain ⟨p, hp, hfit⟩ := hfits j s hs
    have htrim : Text.trim s.toList = [] := Text.trimBy_eq_nil_iff.2 hblank
    obtain ⟨e, he, hnames⟩ := (hfit s rfl).2 (by rw [htrim]; rfl)
    exact ⟨p, e, hp, he, Element.isAnyOf_textElements_iff.1 hnames⟩
  · exact (List.isChain_map _).1 (horderly.apart p)

/-- The blank text stands below an element that lays out text. -/
theorem Spaced.isNormal_document : read Spaced.text = .ok Spaced.document ∧
    Spaced.document.subtree root = List.range Spaced.document.size ∧
      ∃ p e, Spaced.document.parent 2 = some p ∧ Spaced.document.element? p = some e ∧
        (e.name = .plain "text" ∨ e.name = .plain "tspan" ∨ e.name = .plain "textPath") := by
  have hnormal := isNormal_of_read Spaced.read_text
  have hblank : ∀ c ∈ " ".toList, Text.isBlank c = true := by simp [Text.isBlank]
  exact ⟨Spaced.read_text, hnormal.subtree_root, hnormal.blank 2 " " rfl hblank⟩

end Markup

end SvgCompact
