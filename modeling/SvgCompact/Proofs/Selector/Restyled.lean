import SvgCompact.Pass.Inlining
import SvgCompact.Proofs.Document.Cutting
import SvgCompact.Proofs.Selector.Leaves

/-!
Selectors and sheets in documents that differ in attributes only.

The nodes stand where they stood and elements have their names, ids and classes.  Then a
selector matches the same nodes if the attributes that it tests have their values, and the
sheets are read as before.
-/

namespace SvgCompact
namespace Document

/-- A simple selector that asks for no place matches elements alike that have the same name,
id and classes, and the same value of the attribute that it tests. -/
theorem matchesSimple_of_alike {d d' : Document} {id : NodeId} {e e' : Element}
    {names : List String} (hname : e'.name = e.name) (hclasses : e'.classes = e.classes)
    (hattr : ∀ s ∈ "id" :: names, e'.attr? s = e.attr? s) {t : SimpleSelector}
    (hnegation : ∀ options, t ≠ .negation options) (hplace : t.asksPlace = false)
    (htested : ∀ s ∈ t.testedAttribute?, s ∈ names) :
    d'.matchesSimple id e' t = d.matchesSimple id e t := by
  cases t with
  | universal => simp only [matchesSimple]
  | type name => simp only [matchesSimple, Element.isNamed, hname]
  | id name => rw [matchesSimple, matchesSimple, hattr "id" List.mem_cons_self]
  | hasClass name => simp only [matchesSimple, Element.hasClass, hclasses]
  | attr a =>
    rw [matchesSimple, matchesSimple, matchesAttribute, matchesAttribute,
      hattr a.name (List.mem_cons_of_mem _ (htested a.name rfl))]
  | place | nth => cases hplace
  | negation options => exact absurd rfl (hnegation options)
  | dynamic | pseudoElement => simp only [matchesSimple]

/-- Whether documents differ in nothing but attributes other than ids, classes and some that
are named. -/
structure IsRepainted (names : List String) (d d' : Document) : Prop extends IsRestyled d d' where
  rooted : d.IsRooted
  rooted' : d'.IsRooted
  name : ∀ j, (d'.element? j).map (·.name) = (d.element? j).map (·.name)
  classes : ∀ j, (d'.element? j).map (·.classes) = (d.element? j).map (·.classes)
  attr? : ∀ s ∈ "id" :: names, ∀ j,
    (d'.element? j).bind (·.attr? s) = (d.element? j).bind (·.attr? s)

namespace IsRepainted

variable {d d' : Document} {names : List String} (h : d.IsRepainted names d') {id : NodeId}
include h

theorem isRemnant : d.IsRemnant d' where
  toIsCut := .of_isRestyled h.toIsRestyled
  isForest := h.rooted.isForest
  isRooted := h.rooted'
  no_new j hj := by
    refine Bool.eq_false_iff.2 fun hel => ?_
    have hel : d.isElement j = true := (h.alike j).isElement_eq.symm.trans hel
    exact absurd (lt_size_of_isElement hel) (Nat.not_lt.2 hj)

theorem isRewritten : IsRewritten [] d d' :=
  ⟨fun p _ => h.children_eq p, List.forall_mem_nil _⟩

theorem isNamed_eq (id : NodeId) (s : String) : d'.isNamed id s = d.isNamed id s := by
  have hname := h.name id
  rw [isNamed, isNamed]
  cases he : d.element? id with
  | none =>
    rw [he, Option.map_none, Option.map_eq_none_iff] at hname
    rw [hname]
  | some e =>
    rw [he, Option.map_some, Option.map_eq_some_iff] at hname
    obtain ⟨e', he', hsame⟩ := hname
    rw [he']
    exact congrArg (QName.isNamed · s) hsame

/-! ## Matching -/

theorem matchesSimple_eq (hid : id ∈ d.elements) {e e' : Element} (he : d.element? id = some e)
    (he' : d'.element? id = some e') {t : SimpleSelector}
    (hnegation : ∀ options, t ≠ .negation options)
    (htested : ∀ s ∈ t.testedAttribute?, s ∈ names) :
    d'.matchesSimple id e' t = d.matchesSimple id e t := by
  have hmem : id ∈ d'.elements := h.toIsRestyled.elements_eq ▸ hid
  have hname := h.name id
  have hclasses := h.classes id
  have hattr : ∀ s ∈ "id" :: names, e'.attr? s = e.attr? s := by
    intro s hs
    have hsame := h.attr? s hs id
    rwa [he, he'] at hsame
  rw [he, he', Option.map_some, Option.map_some, Option.some.injEq] at hname hclasses
  cases hplace : t.asksPlace with
  | false => exact matchesSimple_of_alike hname hclasses hattr hnegation hplace htested
  | true =>
    cases t with
    | place place =>
      rw [matchesSimple, matchesSimple,
        h.isRemnant.matchesPlace_eq h.isRewritten (List.forall_mem_nil _) hmem h.name]
    | nth counting nth =>
      rw [matchesSimple, matchesSimple, h.isRemnant.matchesNth_eq h.isRewritten hmem h.name]
    | _ => cases hplace

/-- A selector that tests none but the named attributes matches what it matched. -/
theorem select_eq {s : ComplexSelector} (htested : ∀ name ∈ s.testedAttributes, name ∈ names) :
    d'.select root [s] = d.select root [s] := by
  have hsatisfies : ∀ id ∈ d.elements, d'.satisfies id s = d.satisfies id s := by
    intro id hid
    refine satisfies_congr (Q := (· ∈ d.elements)) (fun id _ => ?_)
      (fun id e e' hid he he' t ht => ?_) (fun id hid k _ => ?_) hid
    · exact (h.alike id).isElement_eq
    · refine h.matchesSimple_eq hid he he'
        (fun options => ComplexSelector.ne_negation_of_mem_leaves ht options) fun name hname => ?_
      exact htested name (List.mem_filterMap.2 ⟨t, ht, hname⟩)
    · have hreached := h.isRemnant.reached_eq h.isRewritten (h.toIsRestyled.elements_eq ▸ hid) k
      rwa [h.toIsRestyled.elements_eq] at hreached
  rw [select, select, h.toIsRestyled.subtree_eq]
  refine List.filter_congr fun id hid => ?_
  congr 1
  simp only [matchesList, List.any_cons, List.any_nil, Bool.or_false]
  cases hel : d.isElement id with
  | true => exact hsatisfies id (mem_elements_iff.2 ⟨hid, hel⟩)
  | false =>
    have hnone : ∀ f : Document, f.isElement id = false → f.satisfies id s = false := by
      intro f hf
      have hf : f.element? id = none :=
        Option.isNone_iff_eq_none.1 (Option.isSome_eq_false_iff.1 hf)
      cases s <;> simp [satisfies, matchesCompound, hf]
    rw [hnone d hel, hnone d' ((h.alike id).isElement_eq.trans hel)]

/-! ## Sheets -/

theorem textContent_eq (id : NodeId) : d'.textContent id = d.textContent id := by
  rw [textContent, textContent, h.children_eq]
  exact congrArg String.join (List.filterMap_congr fun c _ => (h.alike c).characters?_eq)

theorem holdsCdata_eq (id : NodeId) : d'.holdsCdata id = d.holdsCdata id := by
  rw [holdsCdata, holdsCdata, h.children_eq]
  congr 1
  funext c
  rcases h.alike c with heq | ⟨hel, hel'⟩
  · rw [heq]
  · cases hc : d.content c <;> cases hc' : d'.content c <;>
      simp_all [Content.isElement, Content.element?]

theorem ancestors_eq (id : NodeId) : d'.ancestors id = d.ancestors id := by
  have hwithin : ∀ n id, d'.ancestorsWithin n id = d.ancestorsWithin n id := by
    intro n
    induction n with
    | zero => exact fun _ => rfl
    | succ n ih =>
      intro id
      rw [ancestorsWithin, ancestorsWithin, h.parent_eq]
      cases d.parent id with
      | none => rfl
      | some p => exact congrArg _ (ih p)
  rw [ancestors, ancestors, h.size_eq, hwithin]

theorem closest?_eq (id : NodeId) (s : String) : d'.closest? id s = d.closest? id s := by
  rw [closest?, closest?, h.ancestors_eq]
  exact congrArg (List.find? · _) (funext fun a => h.isNamed_eq a s)

/-- The sheets are read as before. -/
theorem sheetsOf_eq (htype : "type" ∈ names) : Inlining.sheetsOf d' = Inlining.sheetsOf d := by
  rw [Inlining.sheetsOf, Inlining.sheetsOf, h.toIsRestyled.elements_eq]
  refine List.filterMap_congr fun id _ => ?_
  have hsheet : (d'.element? id).any (Inlining.isSheet d' id) =
      (d.element? id).any (Inlining.isSheet d id) := by
    have hattr := h.attr? "type" (List.mem_cons_of_mem _ htype) id
    have hname := h.name id
    cases he : d.element? id with
    | none =>
      rw [he, Option.map_none, Option.map_eq_none_iff] at hname
      rw [hname]
      rfl
    | some e =>
      rw [he, Option.map_some, Option.map_eq_some_iff] at hname
      obtain ⟨e', he', hsame⟩ := hname
      rw [he, he', Option.bind_some, Option.bind_some] at hattr
      rw [he', Option.any_some, Option.any_some, Inlining.isSheet, Inlining.isSheet,
        Element.isNamed, Element.isNamed, hsame, h.closest?_eq, hattr]
  rw [Inlining.sheetOf?, Inlining.sheetOf?, hsheet, h.textContent_eq, h.holdsCdata_eq]

end IsRepainted
end Document
end SvgCompact
