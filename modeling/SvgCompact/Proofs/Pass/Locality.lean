import SvgCompact.Proofs.Pass.Cascading

/-!
Rules that look at one element only.

Collapsing takes groups out of the way down, so a rule that asks where an element stands may
match others after it.  A rule that asks for names, ids, classes and attributes that are not
inherited matches the same elements, and the sheets are read as before where no group stands
in one.
-/

namespace SvgCompact

open Inlining (clausesOf sheetOf? sheetsOf)

namespace Document

variable {d : Document} {id m : NodeId} {p s : String}

/-- Whether no group stands right in a sheet. -/
def HasPlainSheets (d : Document) : Prop :=
  ∀ g q, d.isNamed g "g" = true → d.parent g = some q → d.isNamed q "style" = false

/-- Whether no rule that declares a property asks where an element stands. -/
def HasLocalRules (d : Document) (p : String) : Prop :=
  ∀ c ∈ clausesOf (sheetsOf d), (Style.ofDeclarations c.declarations).find? p ≠ none →
    ∀ selector, ComplexSelector.read c.text = .ok selector → selector.isLocal = true

theorem mem_select_iff {selector : ComplexSelector} :
    id ∈ d.select root [selector] ↔
      id ∈ d.subtree root ∧ id ≠ root ∧ d.satisfies id selector = true := by
  simp [select, matchesList]

/-! ## Sheets without groups -/

theorem IsForest.isNone_closest?_iff (h : d.IsForest) :
    (d.closest? id s).isNone = true ↔ ∀ a, d.IsAbove a id → d.isNamed a s = false := by
  rw [closest?, Option.isNone_iff_eq_none, List.find?_eq_none]
  simp only [h.mem_ancestors_iff, Bool.not_eq_true]

theorem IsForest.isNone_closest?_unwrap (h : d.IsForest) (hm : d.isNamed m s = false)
    (hid : id ≠ m) : ((d.unwrap m).closest? id s).isNone = (d.closest? id s).isNone := by
  rw [Bool.eq_iff_iff, (h.unwrap m).isNone_closest?_iff, h.isNone_closest?_iff]
  refine forall_congr' fun a => ?_
  rw [isNamed, element?_unwrap, ← isNamed]
  by_cases ha : a = m
  · rw [ha, hm]
    simp
  · rw [h.isAbove_unwrap_iff ha hid]

theorem sheetOf?_of_not_named (h : d.isNamed id "style" = false) : sheetOf? d id = none := by
  rw [sheetOf?, if_neg]
  intro hany
  obtain ⟨e, he, hsheet⟩ := (Option.any_eq_true _ _).1 hany
  rw [Inlining.isSheet, Bool.and_eq_true, Bool.and_eq_true] at hsheet
  rw [isNamed_iff.2 ⟨e, he, hsheet.1.1⟩] at h
  cases h

theorem sheetOf?_unwrap (h : d.IsForest) (hsheets : d.HasPlainSheets)
    (hg : d.isNamed m "g" = true) (hid : id ≠ m) : sheetOf? (d.unwrap m) id = sheetOf? d id := by
  have hnamed : (d.unwrap m).isNamed id "style" = d.isNamed id "style" := by
    rw [isNamed, element?_unwrap, isNamed]
  cases hstyle : d.isNamed id "style" with
  | false => rw [sheetOf?_of_not_named hstyle, sheetOf?_of_not_named (hnamed.trans hstyle)]
  | true =>
    have hchildren : (d.unwrap m).children id = d.children id := by
      cases hp : d.parent m with
      | none => rw [unwrap_of_parent_none hp]
      | some q =>
        obtain ⟨front, back, -, hchildren⟩ := h.children_unwrap hp
        have hq : id ≠ q := by
          rintro rfl
          rw [hsheets m id hg hp] at hstyle
          cases hstyle
        rw [hchildren, if_neg hq, if_neg hid]
    have hsheet : Inlining.isSheet (d.unwrap m) id = Inlining.isSheet d id := by
      funext e
      rw [Inlining.isSheet, Inlining.isSheet,
        h.isNone_closest?_unwrap (not_isNamed_of_group hg (by decide)) hid]
    have htext : (d.unwrap m).textContent id = d.textContent id := by
      rw [textContent, textContent, hchildren]
      simp only [content_unwrap]
    have hcdata : (d.unwrap m).holdsCdata id = d.holdsCdata id := by
      rw [holdsCdata, holdsCdata, hchildren]
      simp only [content_unwrap]
    rw [sheetOf?, sheetOf?, element?_unwrap, hsheet, htext, hcdata]

/-- Replacing a group by its children leaves the sheets in their order. -/
theorem IsRooted.sheetsOf_unwrap (h : d.IsRooted) (hsheets : d.HasPlainSheets)
    (hg : d.isNamed m "g" = true) : sheetsOf (d.unwrap m) = sheetsOf d := by
  rw [sheetsOf, sheetsOf, h.elements_unwrap (isElement_of_isNamed hg), List.filterMap_filter]
  refine List.filterMap_congr fun j _ => ?_
  by_cases hj : j = m
  · rw [hj, sheetOf?_of_not_named (not_isNamed_of_group hg (by decide))]
    simp
  · rw [if_pos (bne_iff_ne.2 hj), sheetOf?_unwrap h.isForest hsheets hg hj]

theorem HasPlainSheets.unwrap (hsheets : d.HasPlainSheets) (h : d.IsForest)
    (hg : d.isNamed m "g" = true) : (d.unwrap m).HasPlainSheets := by
  intro g q hg' hq
  rw [isNamed, element?_unwrap, ← isNamed] at hg' ⊢
  cases hp : d.parent m with
  | none =>
    rw [unwrap_of_parent_none hp] at hq
    exact hsheets g q hg' hq
  | some r =>
    rw [h.parent_unwrap hp] at hq
    split at hq
    · obtain rfl := Option.some.inj hq
      exact hsheets m r hg hp
    · split at hq
      · cases hq
      · exact hsheets g q hg' hq

end Document

namespace Pass

variable {d d' : Document} {id : NodeId} {p : String}

/-! ## Selectors that look at one element -/

/-- A selector that looks at one element only, and there at no inherited attribute, matches
it as long as its name and the attributes that are not inherited stay. -/
theorem KeepsLasting.satisfies_eq {P : QName → Prop} {drops : Element → Prop}
    (h : KeepsLasting d d') (hd : d.IsCoherent) (hd' : d'.IsCoherent)
    (hedits : Document.Edits P drops d d') {s : ComplexSelector} (hlocal : s.isLocal = true)
    (htests : ∀ name ∈ s.testedAttributes, Inheritance.isInherited name = false) (id : NodeId) :
    d'.satisfies id s = d.satisfies id s := by
  rw [ComplexSelector.isLocal, Bool.and_eq_true, List.isEmpty_iff, List.all_eq_true] at hlocal
  refine Document.satisfies_congr (Q := fun _ => True) (fun j _ => ?_)
    (fun j e e' _ he he' t ht => ?_) (fun j _ k hk => ?_) trivial
  · rcases h.element?_cases hedits j with ⟨hnone', hnone⟩ | ⟨e, e', he, he', -, -⟩
    · rw [hnone', hnone]
    · rw [he, he', Option.isSome_some, Option.isSome_some]
  · rcases h.element?_cases hedits j with ⟨-, hnone⟩ | ⟨e₁, e₁', he₁, he₁', hname, hsame⟩
    · rw [he] at hnone
      cases hnone
    obtain rfl := Option.some.inj (he.symm.trans he₁)
    obtain rfl := Option.some.inj (he'.symm.trans he₁')
    have hclasses : e'.classes = e.classes := by
      rw [(hd.fresh j e he).classes, (hd'.fresh j e' he').classes,
        Element.attr?_of_lasting hsame (by decide)]
    have hattr : ∀ name ∈ "id" :: s.testedAttributes, e'.attr? name = e.attr? name := by
      intro name hname
      rcases List.mem_cons.1 hname with rfl | hname
      · exact Element.attr?_of_lasting hsame (by decide)
      · exact Element.attr?_of_lasting hsame (htests name hname)
    exact Document.matchesSimple_of_alike hname hclasses hattr
      (ComplexSelector.ne_negation_of_mem_leaves ht) (by simpa using hlocal.2 t ht)
      fun name hname => List.mem_filterMap.2 ⟨t, ht, hname⟩
  · rw [hlocal.1] at hk
    cases hk

/-! ## Rules that collapsing groups leaves alone -/

theorem sheetsOf_collapseGroups (hd : d.IsCoherent) (hsheets : d.HasPlainSheets) :
    sheetsOf (collapseGroups.run d) = sheetsOf d := by
  refine (keeps_collapseGroups
    (Q := fun d' => (d'.IsCoherent ∧ d'.HasPlainSheets) ∧ sheetsOf d' = sheetsOf d)
    (fun d' id hd' hg => ?_) ⟨⟨hd, hsheets⟩, rfl⟩).2
  obtain ⟨⟨hd', hplain⟩, hsame⟩ := hd'
  obtain ⟨hcoherent, hregrouped⟩ := isRegrouped_lower hd' hg
  have hedits : Document.Edits (fun _ => True) (fun _ => False) d' (lower d' id) :=
    edits_lower hd'.toIsSound id
  have hrestyled : d'.IsRestyled (lower d' id) := by
    rcases lower_cases hg with hlower | ⟨c, group, child, -, hlower⟩
    · rw [hlower]
      exact .refl d'
    · rw [hlower]
      exact isRestyled_lowered d' id c group.attributes
  have hrepainted : d'.IsRepainted ["type"] (lower d' id) :=
    isRepainted_of_keepsLasting hd' hcoherent hrestyled hedits
      (keepsLasting_lower hd'.isForest hg) (by decide)
  have hplain' : (lower d' id).HasPlainSheets := by
    intro g q hg' hq
    rw [hrepainted.isNamed_eq] at hg' ⊢
    exact hplain g q hg' ((hrestyled.parent_eq g).symm.trans hq)
  have hsame' : sheetsOf (lower d' id) = sheetsOf d :=
    (hrepainted.sheetsOf_eq List.mem_cons_self).trans hsame
  have hg' := (hregrouped.named id "g").trans hg
  exact ⟨⟨⟨hcoherent, hplain'⟩, hsame'⟩, fun hbare =>
    ⟨⟨(isRegrouped_unwrap hcoherent hg' hbare).1, hplain'.unwrap hcoherent.isForest hg'⟩,
      (hcoherent.toIsRooted.sheetsOf_unwrap hplain' hg').trans hsame'⟩⟩

/-- Rules that look at one element only, and there at no inherited attribute, are the same
when groups have gone, and match the same elements. -/
theorem hasSameRules_collapseGroups (hd : d.IsCoherent)
    (hp : Inheritance.isInherited p = true) (hpt : p ≠ "transform")
    (htests : d.TestsNoInherited p) (hlocal : d.HasLocalRules p) (hsheets : d.HasPlainSheets)
    (id : NodeId) :
    d.HasSameRules (collapseGroups.run d) p id ∧
      (d.HasFreeGroups p id → (collapseGroups.run d).HasFreeGroups p id) := by
  have hmember : collapseGroups ∈ [moveSharedToGroup, collapseGroups] := by simp
  obtain ⟨hd', hlasting⟩ := keepsLasting_run hmember hd
  have hedits : Document.Edits (fun _ => True) (fun _ => False) d (collapseGroups.run d) :=
    isStepwise_collapseGroups.isEditing d hd.toIsSound
  have hregrouped : Document.IsRegroupedBeside (fun _ => none) p d (collapseGroups.run d) :=
    isRegroupedBeside_run hmember hd (fun _ _ => rfl) hp hpt
  have hsame := sheetsOf_collapseGroups hd hsheets
  have hsatisfies : ∀ c ∈ clausesOf (sheetsOf d),
      (Style.ofDeclarations c.declarations).find? p ≠ none → ∀ selector,
        ComplexSelector.read c.text = .ok selector → ∀ a,
          (collapseGroups.run d).satisfies a selector = d.satisfies a selector :=
    fun c hc hdeclared selector hread a => hlasting.satisfies_eq hd hd' hedits
      (hlocal c hc hdeclared selector hread) (htests c hc hdeclared selector hread) a
  refine ⟨⟨by rw [hsame], fun c hc a _ hg => bid?_congr fun selector hread hdeclared => ?_⟩,
    fun hfree c hc a ha hg => Option.eq_none_iff_forall_ne_some.2 fun bid hbid => ?_⟩
  · rw [Document.mem_select_iff, Document.mem_select_iff,
      (isRegrouped_collapseGroups hd).reached a hg, hsatisfies c hc hdeclared selector hread]
  · rw [hsame] at hc
    rw [hregrouped.named] at hg
    -- a group that is left stands below what it stood below, so what matches it did so before
    rw [List.mem_cons, hd'.isForest.mem_ancestors_iff] at ha
    have ha : a ∈ id :: d.ancestors id := by
      rw [List.mem_cons, hd.isForest.mem_ancestors_iff]
      exact ha.imp_right (hregrouped.above _ _)
    obtain ⟨selector, hread, hselected, hdeclared, hspecificity⟩ :=
      Inlining.clause_bid?_eq_some_iff.1 hbid
    rw [Document.mem_select_iff, hd'.isForest.mem_subtree_iff,
      hsatisfies c hc (by simp [hdeclared]) selector hread] at hselected
    have hbefore : a ∈ d.select Document.root [selector] := by
      rw [Document.mem_select_iff, hd.isForest.mem_subtree_iff]
      exact hselected.imp_left (Or.imp_right (hregrouped.above _ _))
    have hnone := hfree c hc a ha hg
    rw [Inlining.clause_bid?_eq_some_iff.2 ⟨selector, hread, hbefore, hdeclared, hspecificity⟩]
      at hnone
    cases hnone

/-! ## The passes -/

/-- Both passes keep, at every element that is no group, the value of each inherited
attribute that it has if rules do not count at groups, where the rules for it test no
inherited attribute and, for collapsing, look at one element only.  If no rule for it matches
a group around the element, that is the value. -/
theorem computed_regrouped {pass : Pass} (hpass : pass ∈ [moveSharedToGroup, collapseGroups])
    (hd : d.IsCoherent) (hid : d.isNamed id "g" = false)
    (hp : Inheritance.isInherited p = true) (hpt : p ≠ "transform")
    (htests : d.TestsNoInherited p)
    (hlocal : pass = collapseGroups → d.HasLocalRules p ∧ d.HasPlainSheets) :
    (pass.run d).computedBesideGroups? p id = d.computedBesideGroups? p id ∧
      (d.HasFreeGroups p id → (pass.run d).computed? p id = d.computed? p id) := by
  have hrules : d.HasSameRules (pass.run d) p id ∧
      (d.HasFreeGroups p id → (pass.run d).HasFreeGroups p id) := by
    simp only [List.mem_cons, List.not_mem_nil, or_false] at hpass
    rcases hpass with rfl | rfl
    · exact hasSameRules_moveSharedToGroup hd htests id
    · obtain ⟨hlocal, hsheets⟩ := hlocal rfl
      exact hasSameRules_collapseGroups hd hp hpt htests hlocal hsheets id
  obtain ⟨hsame, hfree'⟩ := hrules
  obtain ⟨hbeside, hcomputed⟩ := computed_of_hasSameRules hpass hd hid hp hpt hsame
  exact ⟨hbeside, fun hfree => hcomputed hfree (hfree' hfree)⟩

/-! A group of two red shapes beside rules for a shape and for the group.  The attributes move
to the group: the rule for the shape still comes first, but so does now the one for the
group. -/

namespace Ruled

def element (name : String) (attributes : List Attribute) : Content :=
  .element (.ofAttributes (.plain name) attributes)

def red : List Attribute := [⟨.plain "fill", "red"⟩, ⟨.plain "stroke", "red"⟩]

def text : String := "rect\x7bfill:blue\x7dg\x7bstroke:blue\x7d"

def document : Document :=
  ((((((Document.empty.append Document.root (element "svg" [])).1.append 1
    (element "style" [])).1.append 2 (.text text)).1.append 1 (element "g" [])).1.append 4
      (element "rect" red)).1.append 4 (element "circle" red)).1

def isRect : ComplexSelector := .compound [.type "rect"]

def isGroup : ComplexSelector := .compound [.type "g"]

def sheet : Stylesheet := ⟨[
  .style ⟨0, ["rect"], [⟨"fill", "blue", .normal⟩]⟩,
  .style ⟨1, ["g"], [⟨"stroke", "blue", .normal⟩]⟩]⟩

def clauses : List Inlining.Clause :=
  [⟨2, [], [⟨"fill", "blue", .normal⟩], "rect"⟩, ⟨2, [], [⟨"stroke", "blue", .normal⟩], "g"⟩]

theorem isCoherent_document : document.IsCoherent := by
  have helement : ∀ name attributes, element name attributes ≠ .root := fun _ _ h => by cases h
  have htext : Content.text text ≠ .root := fun h => by cases h
  refine ⟨⟨?_, fun j e he => ⟨trivial, fun _ _ => trivial, ?_⟩⟩, fun j e he => ?_⟩
  · exact (((((Document.IsRooted.empty.append (by decide) (helement _ _)).append (by decide)
      (helement _ _)).append (by decide) htext).append (by decide) (helement _ _)).append
        (by decide) (helement _ _)).append (by decide) (helement _ _)
  · exact Document.forall_element?_of_all (Q := fun e => (e.attributes.map (·.name)).Nodup)
      (by decide) he
  · exact Document.forall_element?_of_all (Q := Element.IsFresh) (by decide) he

theorem read_rect : ComplexSelector.read "rect" = .ok isRect :=
  ComplexSelector.read_of_step (by cbv) (by cbv)

theorem read_group : ComplexSelector.read "g" = .ok isGroup :=
  ComplexSelector.read_of_step (by cbv) (by cbv)

theorem clausesOf_document : clausesOf (sheetsOf document) = clauses := by
  have helements : document.elements = [1, 2, 4, 5, 6] := by decide
  have hsheet : Inlining.sheetOf? document 2 = some ⟨2, sheet, document.holdsCdata 2⟩ :=
    Inlining.sheetOf?_of_read (by decide) (by decide) (by decide)
      (show Stylesheet.read text = .ok sheet by cbv)
  have hother : ∀ id ∈ [1, 4, 5, 6],
      (document.element? id).any (Inlining.isSheet document id) = false := by
    decide
  have hnone : ∀ id ∈ [1, 4, 5, 6], Inlining.sheetOf? document id = none := by
    intro id hid
    rw [Inlining.sheetOf?, hother id hid]
    rfl
  have hsheets : sheetsOf document = [⟨2, sheet, document.holdsCdata 2⟩] := by
    rw [sheetsOf, helements]
    simp [hsheet, hnone]
  rw [hsheets]
  rfl

theorem localRules_document (p : String) :
    document.TestsNoInherited p ∧ document.HasLocalRules p := by
  have hread : ∀ c ∈ clauses, ∀ selector, ComplexSelector.read c.text = .ok selector →
      selector = isRect ∨ selector = isGroup := by
    intro c hc selector hread
    rcases List.mem_pair.1 hc with rfl | rfl
    · exact .inl (Except.ok.inj (hread.symm.trans read_rect))
    · exact .inr (Except.ok.inj (hread.symm.trans read_group))
  rw [Document.TestsNoInherited, Document.HasLocalRules, clausesOf_document]
  refine ⟨fun c hc _ selector hselector => ?_, fun c hc _ selector hselector => ?_⟩
  · rcases hread c hc selector hselector with rfl | rfl <;> decide
  · rcases hread c hc selector hselector with rfl | rfl <;> decide

theorem hasPlainSheets_document : document.HasPlainSheets := by
  have hall : ∀ g < document.size, document.isNamed g "g" = true →
      (document.parent g).all (fun q => !document.isNamed q "style") = true := by
    decide
  intro g q hg hq
  have hplain := hall g (Document.lt_size_of_isElement (Document.isElement_of_isNamed hg)) hg
  rw [hq] at hplain
  simpa using hplain

theorem select_document :
    document.select Document.root [isRect] = [5] ∧
      document.select Document.root [isGroup] = [4] := by
  decide

theorem winner?_ruled {d : Document} (hclauses : clausesOf (sheetsOf d) = clauses)
    (hselect : d.select Document.root [isRect] = [5] ∧ d.select Document.root [isGroup] = [4])
    (hown : ∀ id ∈ [4, 5], ∀ p ∈ ["fill", "stroke"], d.declarationAt id p = none) :
    d.winner? "fill" 5 = some ⟨"fill", "blue", .normal⟩ ∧ d.winner? "stroke" 5 = none ∧
      d.winner? "stroke" 4 = some ⟨"stroke", "blue", .normal⟩ := by
  have hfill : (Style.ofDeclarations [⟨"fill", "blue", .normal⟩]).find? "fill" =
      some ⟨"fill", "blue", .normal⟩ ∧
      (Style.ofDeclarations [⟨"fill", "blue", .normal⟩]).find? "stroke" = none := by decide
  have hstroke : (Style.ofDeclarations [⟨"stroke", "blue", .normal⟩]).find? "fill" = none ∧
      (Style.ofDeclarations [⟨"stroke", "blue", .normal⟩]).find? "stroke" =
        some ⟨"stroke", "blue", .normal⟩ := by decide
  simp [Document.winner?, hclauses, hown, clauses, Inlining.Clause.bid?, read_rect, read_group,
    hselect, hfill, hstroke, Inlining.cascaded, Inlining.contend]

end Ruled

/-- The first shape stays blue when its red fill has moved to the group, and when the group
is gone. -/
theorem computed_ruled :
    Ruled.document.IsCoherent ∧ Ruled.document.isNamed 5 "g" = false ∧
      (Ruled.document.TestsNoInherited "fill" ∧ Ruled.document.HasLocalRules "fill" ∧
        Ruled.document.HasPlainSheets) ∧
      Ruled.document.HasFreeGroups "fill" 5 ∧
      ((moveSharedToGroup.run Ruled.document).element? 5).map (·.attributes) = some [] ∧
      (collapseGroups.run Ruled.document).elements = [1, 2, 5, 6] ∧
      (moveSharedToGroup.run Ruled.document).computed? "fill" 5 = some "blue" ∧
      (collapseGroups.run Ruled.document).computed? "fill" 5 = some "blue" := by
  have hcoherent := Ruled.isCoherent_document
  have hnamed : Ruled.document.isNamed 5 "g" = false := by decide
  obtain ⟨htests, hlocal⟩ := Ruled.localRules_document "fill"
  have hfree : Ruled.document.HasFreeGroups "fill" 5 := by
    intro c hc a _ hg
    rw [Ruled.clausesOf_document] at hc
    rcases List.mem_pair.1 hc with rfl | rfl
    · have hne : a ≠ 5 := by
        rintro rfl
        rw [hnamed] at hg
        cases hg
      simp [Inlining.Clause.bid?, Ruled.read_rect, Ruled.select_document, hne]
    · have hother : (Style.ofDeclarations [⟨"stroke", "blue", .normal⟩]).find? "fill" = none := by
        decide
      simp [Inlining.Clause.bid?, Ruled.read_group, hother]
  have hbefore : Ruled.document.computed? "fill" 5 = some "blue" := by
    obtain ⟨hwinner, -⟩ :=
      Ruled.winner?_ruled Ruled.clausesOf_document Ruled.select_document (by decide)
    rw [Document.computed?, List.findSome?_cons, Document.styled?, hwinner]
    rfl
  have hkept : ∀ pass ∈ [moveSharedToGroup, collapseGroups],
      (pass.run Ruled.document).computed? "fill" 5 = some "blue" := by
    intro pass hpass
    obtain ⟨-, hcomputed⟩ := computed_regrouped hpass hcoherent hnamed (by decide) (by decide)
      htests fun _ => ⟨hlocal, Ruled.hasPlainSheets_document⟩
    rw [hcomputed hfree, hbefore]
  exact ⟨hcoherent, hnamed, ⟨htests, hlocal, Ruled.hasPlainSheets_document⟩, hfree, by decide,
    by decide, hkept _ (by simp), hkept _ (by simp)⟩

/-- Its red stroke is lost, for the rule for the group comes before what has moved there. -/
theorem computed_stroke_lost :
    Ruled.document.computed? "stroke" 5 = some "red" ∧
      (moveSharedToGroup.run Ruled.document).computed? "stroke" 5 = some "blue" := by
  have hrepainted : Ruled.document.IsRepainted ["type"] (moveSharedToGroup.run Ruled.document) :=
    isRepainted_moveSharedToGroup Ruled.isCoherent_document (by decide)
  obtain ⟨-, hbefore, -⟩ :=
    Ruled.winner?_ruled Ruled.clausesOf_document Ruled.select_document (by decide)
  obtain ⟨-, hafter, hgroup⟩ := Ruled.winner?_ruled (d := moveSharedToGroup.run Ruled.document)
    (by rw [hrepainted.sheetsOf_eq List.mem_cons_self, Ruled.clausesOf_document])
    (by
      rw [hrepainted.select_eq (by decide), hrepainted.select_eq (by decide)]
      exact Ruled.select_document)
    (by decide)
  have hred : (Ruled.document.element? 5).bind (·.attr? "stroke") = some "red" := by decide
  have hbare :
      ((moveSharedToGroup.run Ruled.document).element? 5).bind (·.attr? "stroke") = none := by
    decide
  have hup : (moveSharedToGroup.run Ruled.document).ancestors 5 = [4, 1, 0] := by decide
  rw [Document.computed?, Document.computed?, hup]
  simp [Document.styled?, hbefore, hred, hafter, hbare, hgroup]

end Pass
end SvgCompact
