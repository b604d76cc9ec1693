import SvgCompact.Proofs.Document.References
import SvgCompact.Proofs.Inlining.Disturbance
import SvgCompact.Proofs.Inlining.WrittenBack

/-!
Ids that are dropped.

An id goes with a selector that asks for nothing else, unless it is in use.  Uses are
looked for in the attributes of the document in which all records are applied, and no
attribute refers to the id afterwards.  Declarations that stay in sheets are not looked
at: `dropped_id_declared_iff` says when one of them still refers to it.
-/

namespace SvgCompact

namespace ClassList

theorem isInfix_of_mem_read {token s : String} (h : token ∈ (read s).tokens) :
    token.toList <:+: s.toList := by
  have hfold : ∀ (words : List (List Char)) (classes : ClassList),
      (∀ t ∈ classes.tokens, t.toList <:+: s.toList) → (∀ w ∈ words, w <:+: s.toList) →
        ∀ t ∈ (words.foldl (fun classes word => classes.add (String.ofList word)) classes).tokens,
          t.toList <:+: s.toList := by
    intro words
    induction words with
    | nil => exact fun classes hclasses _ => hclasses
    | cons word rest ih =>
      intro classes hclasses hwords
      refine ih _ (fun t ht => ?_) fun w hw => hwords w (List.mem_cons_of_mem word hw)
      change t ∈ (classes.add _).tokens at ht
      rw [add] at ht
      split at ht
      · rcases List.mem_append.1 ht with ht | ht
        · exact hclasses t ht
        · rw [List.mem_singleton.1 ht, String.toList_ofList]
          exact hwords word (List.mem_cons_self ..)
      · exact hclasses t ht
  exact hfold _ empty (List.forall_mem_nil _) (fun _ => Text.isInfix_of_mem_words) token h

end ClassList

namespace Element

variable {e e' : Element} {v : String}

/-! ## What is left of an element -/

/-- Whether the class list is that of the attributes. -/
def ReadsClasses (e : Element) : Prop :=
  e.classes = ((e.attr? "class").map ClassList.read).getD ClassList.empty

theorem attr?_setStyle_of_ne (x : Declaration) {s : String} (hs : s ≠ "style") :
    (e.setStyle x).attr? s = e.attr? s :=
  attr?_writeBack read_style hs _

theorem attr?_offer (x : Declaration) {s : String} (hs : s ≠ "style") :
    (Inlining.offer e x).attr? s = e.attr? s := by
  rw [Inlining.offer]
  split
  · split
    · exact attr?_setStyle_of_ne x hs
    · rfl
  · exact attr?_setStyle_of_ne x hs

theorem classes_offer (x : Declaration) : (Inlining.offer e x).classes = e.classes := by
  have hset : (e.setStyle x).classes = e.classes := classes_writeBack _
  rw [Inlining.offer]
  split
  · split
    · exact hset
    · rfl
  · exact hset

theorem ReadsClasses.offer (h : e.ReadsClasses) (x : Declaration) :
    (Inlining.offer e x).ReadsClasses := by
  rw [ReadsClasses, classes_offer, attr?_offer x (by decide)]
  exact h

/-- Whether an element is what is left of another when classes and the id are taken from
it. -/
structure IsStripped (e e' : Element) : Prop where
  tokens : ∀ t ∈ e'.classes.tokens, t ∈ e.classes.tokens
  attributes : ∀ a ∈ e'.attributes, a ∈ e.attributes ∨
    ∃ classes : ClassList, (∀ t ∈ classes.tokens, t ∈ e.classes.tokens) ∧
      a = ⟨QName.plain "class", classes.write⟩

theorem mem_attributes_writeBack {name value : String} (hname : QName.read name = QName.plain name)
    {a : Attribute} (ha : a ∈ (e.writeBack name value).attributes) :
    a ∈ e.attributes ∨ a = ⟨QName.plain name, value⟩ := by
  rw [writeBack] at ha
  split at ha
  · next i hi =>
    obtain ⟨hlt, hnamed, -⟩ := List.findIdx?_eq_some_iff_getElem.1 hi
    split at ha
    · exact .inl (List.mem_of_mem_eraseIdx ha)
    · obtain ⟨k, hk⟩ := List.mem_iff_getElem?.1 ha
      rw [List.getElem?_modify] at hk
      obtain ⟨held, hheld, rfl⟩ := Option.map_eq_some_iff.1 hk
      by_cases hik : i = k
      · subst hik
        rw [List.getElem?_eq_getElem hlt] at hheld
        obtain rfl := Option.some.inj hheld
        rw [if_pos rfl, (isNamed_iff_eq_plain hname).1 hnamed]
        exact .inr rfl
      · rw [if_neg hik]
        exact .inl (List.mem_of_getElem? hheld)
  · split at ha
    · exact .inl ha
    · rcases List.mem_append.1 ha with ha | ha
      · exact .inl ha
      · rw [List.mem_singleton.1 ha, hname]
        exact .inr rfl

namespace IsStripped

theorem refl (e : Element) : e.IsStripped e := ⟨fun _ ht => ht, fun _ ha => .inl ha⟩

theorem removeClass (h : e.IsStripped e') (token : String) :
    e.IsStripped (e'.removeClass token) := by
  rw [Element.removeClass]
  split
  · have hleft : ∀ t ∈ (e'.classes.erase token).tokens, t ∈ e.classes.tokens := fun t ht =>
      h.tokens t (List.mem_filter.1 ht).1
    refine ⟨fun t ht => hleft t ?_, fun a ha => ?_⟩
    · rwa [writeClasses, classes_writeBack] at ht
    · rcases mem_attributes_writeBack read_class ha with ha | rfl
      · exact h.attributes a ha
      · exact .inr ⟨_, hleft, rfl⟩
  · exact h

theorem dropId (h : e.IsStripped e') (name : String) :
    e.IsStripped (Inlining.dropId name e') := by
  rw [Inlining.dropId]
  split
  · refine ⟨fun t ht => h.tokens t ?_, fun a ha => h.attributes a ?_⟩
    · rwa [classes_removeAttr read_id (by decide)] at ht
    · rw [removeAttr] at ha
      split at ha
      · rw [attributes_refresh] at ha
        exact List.mem_of_mem_eraseP ha
      · exact ha
  · exact h

/-- No reference to a plain id is gained: a class that is left was there before. -/
theorem refersTo (h : e.IsStripped e') (hreads : e.ReadsClasses) (hv : References.IsPlain v)
    {a : Attribute} (ha : a ∈ e'.attributes) (hrefers : a.RefersTo v) :
    ∃ b ∈ e.attributes, b.RefersTo v := by
  rcases h.attributes a ha with ha | ⟨classes, hclasses, rfl⟩
  · exact ⟨a, ha, hrefers⟩
  · rcases hrefers with hnames | ⟨hhref, -⟩
    · rw [ReadsClasses] at hreads
      cases hattribute : e.attribute? "class" with
      | none =>
        rw [attr?, hattribute] at hreads
        have hnone : ∀ t ∈ classes.tokens, t.toList <:+: [] := fun t ht => by
          have hmem := hclasses t ht
          rw [hreads] at hmem
          cases hmem
        obtain ⟨quote, -, hinfix⟩ := References.names_of_names_write hv hnone hnames
        simpa using List.infix_nil.1 hinfix
      | some b =>
        rw [attr?, hattribute] at hreads
        refine ⟨b, List.mem_of_find?_eq_some hattribute, .inl ?_⟩
        refine References.names_of_names_write hv (fun t ht => ?_) hnames
        have hmem := hclasses t ht
        rw [hreads] at hmem
        exact ClassList.isInfix_of_mem_read hmem
    · exact absurd (show "class" = "href" from hhref) (by decide)

end IsStripped
end Element
/-! ## What is left of a document -/

namespace Document

variable {d d' : Document}

/-- Whether each element is what is left of the one that was there. -/
def IsStripped (d d' : Document) : Prop :=
  ∀ j e', d'.element? j = some e' → ∃ e, d.element? j = some e ∧ e.IsStripped e'

theorem IsStripped.refl (d : Document) : d.IsStripped d := fun _ e' he' => ⟨e', he', .refl e'⟩

theorem IsStripped.foldl_updateElement (h : d.IsStripped d') {f : Element → Element}
    (hf : ∀ e e' : Element, e.IsStripped e' → e.IsStripped (f e')) (ids : List NodeId) :
    d.IsStripped (ids.foldl (fun d a => d.updateElement a f) d') := by
  refine List.foldlRecOn (motive := d.IsStripped) ids _ h fun d' h id _ j e' he' => ?_
  rw [element?_updateElement] at he'
  split at he'
  · obtain ⟨e₁, he₁, rfl⟩ := Option.map_eq_some_iff.1 he'
    obtain ⟨e, he, hstripped⟩ := h j e₁ he₁
    exact ⟨e, he, hf e e₁ hstripped⟩
  · exact h j e' he'

end Document

namespace Inlining

open Document (root)

variable {P : QName → Prop} {options : Options} {d d' : Document} {id : NodeId} {v : String}

theorem isStripped_dropName (h : d.IsStripped d') (names : SelectorNames)
    (referenced : List String) (r : Record) :
    d.IsStripped (dropName names referenced d' r) := by
  rw [dropName]
  split
  · split
    · exact h
    · exact h.foldl_updateElement (fun _ _ h => h.removeClass _) _
  · split
    · exact h
    · exact h.foldl_updateElement (fun _ _ h => h.dropId _) _
  · exact h

theorem isStripped_inline (options : Options) (d : Document) :
    (styled options d).IsStripped (inline options d) := by
  rw [inline_eq]
  split
  · exact .refl _
  · intro j e' he'
    rw [foldl_view (fun d : Document => d.element? j) (fun d s => element?_writeBack d s j)] at he'
    exact List.foldlRecOn (motive := (styled options d).IsStripped) _ _ (.refl _)
      (fun _ h r _ => isStripped_dropName h _ _ r) j e' he'

theorem readsClasses_styled (hd : d.IsCoherent) {j : NodeId} {e : Element}
    (he : (styled options d).element? j = some e) : e.ReadsClasses := by
  have hupdate : ∀ (d : Document) (id : NodeId) (l : List Declaration),
      (∀ j e, d.element? j = some e → e.ReadsClasses) →
        ∀ j e, (d.updateElement id fun e => l.foldl offer e).element? j = some e →
          e.ReadsClasses := by
    intro d id l h j e he
    rw [Document.element?_updateElement] at he
    split at he
    · obtain ⟨e₁, he₁, rfl⟩ := Option.map_eq_some_iff.1 he
      exact List.foldlRecOn (motive := Element.ReadsClasses) l offer (h j e₁ he₁)
        fun _ h x _ => h.offer x
    · exact h j e he
  refine List.foldlRecOn
    (motive := fun d' : Document => ∀ j e, d'.element? j = some e → e.ReadsClasses)
    (inlined options d) applyRecord (fun j e he => (hd.fresh j e he).classes)
    (fun d' h r _ => ?_) j e he
  exact List.foldlRecOn
    (motive := fun d' : Document => ∀ j e, d'.element? j = some e → e.ReadsClasses) r.matched _ h
    fun d' h id _ => hupdate d' id _ h

/-! ## Ids -/

theorem idOf?_styled (options : Options) (d : Document) (id : NodeId) :
    (styled options d).idOf? id = d.idOf? id := by
  refine foldl_view (fun d : Document => d.idOf? id) (fun d r => ?_) (inlined options d) d
  exact Document.bind_element?_foldl_updateElement
    (foldl_view (fun e : Element => e.attr? "id")
      (fun e x => Element.attr?_offer x (by decide)) r.declarations.declarations) r.matched d id

theorem idOf?_dropName (hid : d.idOf? id = some v) {referenced : List String}
    (hv : v ∈ referenced) (names : SelectorNames) (r : Record) :
    (dropName names referenced d r).idOf? id = some v := by
  rw [dropName]
  split
  · split
    · exact hid
    · next token _ _ =>
      have hkeeps : ∀ e : Element, (e.removeClass token).attr? "id" = e.attr? "id" := fun e => by
        rw [Element.removeClass]
        split
        · exact Element.attr?_writeBack Element.read_class (by decide) _
        · rfl
      exact (Document.bind_element?_foldl_updateElement hkeeps r.matched d id).trans hid
  · split
    · exact hid
    · next name _ _ hunused =>
      have hne : v ≠ name := by
        rintro rfl
        rw [List.contains_iff_mem.2 hv, Bool.true_or] at hunused
        exact hunused rfl
      obtain ⟨e, he, hattr⟩ := Option.bind_eq_some_iff.1 hid
      have hfix : dropId name e = e := by
        rw [dropId, hattr, if_neg]
        simpa using hne
      rw [Document.idOf?, Document.element?_foldl_updateElement, he, Option.map_some,
        Function.iterate_fixed hfix]
      exact hattr
  · exact hid

/-- An id that is referred to when all records are applied stays. -/
theorem idOf?_inline_of_mem (hid : d.idOf? id = some v)
    (hv : v ∈ References.inDocument (styled options d)) :
    (inline options d).idOf? id = some v := by
  rw [← idOf?_styled options] at hid
  rw [inline_eq]
  split
  · exact hid
  · refine (foldl_view (fun d : Document => d.idOf? id) (fun d s => ?_) _ _).trans
      (List.foldlRecOn (motive := fun d : Document => d.idOf? id = some v) _ _ hid
        fun _ h r _ => idOf?_dropName h hv _ r)
    rw [Document.idOf?, element?_writeBack, Document.idOf?]

theorem mem_elements_styled [QName.Admits P] (hd : d.IsSound P)
    (hid : id ∈ (inline options d).elements) : id ∈ (styled options d).elements := by
  rw [(isRestyled_styled options d).elements_eq]
  exact (isRemnant_inline hd options).mem_elements hid

/-- No attribute refers to an id that is not referred to when all records are applied. -/
theorem not_refersTo_inline (hd : d.IsCoherent) (hv : References.IsPlain v)
    (hunused : v ∉ References.inDocument (styled options d)) :
    ¬ (inline options d).RefersTo v := by
  rintro ⟨j, hj, e', he', a, ha, hrefers⟩
  obtain ⟨e, he, hstripped⟩ := isStripped_inline options d j e' he'
  obtain ⟨b, hb, hrefers⟩ :=
    hstripped.refersTo (readsClasses_styled hd he) hv ha hrefers
  exact hunused (Document.mem_inDocument_of_refersTo
    ⟨j, mem_elements_styled hd.toIsSound hj, e, he, b, hb, hrefers⟩ hv)

/-! ## Declarations that stay -/

/-- Whether a declaration in a sheet refers to an id, or a body that is kept as text. -/
def Declares (sheet : Stylesheet) (v : String) : Prop :=
  (∃ x ∈ sheet.styleRules, ∃ y ∈ x.2.declarations, References.Names v y.value.toList) ∨
    ∃ body ∈ Rule.bodiesOf sheet.rules, References.Names v body.toList

/-- Whether this holds of what is not used up in a sheet. -/
def KeepsDeclaring (options : Options) (d : Document) (sheet : Stylesheet) (v : String) : Prop :=
  (∃ x ∈ sheet.styleRules, (∃ text ∈ x.2.selectors, options.usesUp d x.1 text = false) ∧
      ∃ y ∈ x.2.declarations, References.Names v y.value.toList) ∨
    ∃ body ∈ Rule.bodiesOf sheet.rules, References.Names v body.toList

theorem declares_iff_of_reduces {sheet left : Stylesheet}
    (h : Rule.Reduces (options.usesUp d) [] sheet.rules left.rules) :
    Declares left v ↔ KeepsDeclaring options d sheet v := by
  rw [Declares, KeepsDeclaring, h.bodiesOf]
  exact or_congr_left (h.exists_declarations_iff
    (q := fun l => ∃ y ∈ l, References.Names v y.value.toList))

theorem ne_nil_of_declares {sheet : Stylesheet} (h : Declares sheet v) :
    sheet.isEmpty = false := by
  rw [Stylesheet.isEmpty, List.isEmpty_eq_false_iff]
  intro hnil
  rw [Declares, Stylesheet.styleRules, hnil] at h
  rcases h with ⟨x, hx, -⟩ | ⟨body, hbody, -⟩
  · cases hx
  · cases hbody

/-- Whether a `style` element that is left declares something with an id.  The text of an
element that does not hold one of the sheets counts as a whole. -/
inductive DeclaredAfter (options : Options) (d : Document) (v : String) : Prop
  | sheet {s : Sheet} (hs : s ∈ sheetsAfter options d)
      (hleft : s.owner ∈ (inline options d).elements)
      (hwritten : (inline options d).textContent s.owner = s.sheet.write)
      (h : Declares s.sheet v)
  | other {j : NodeId} (hleft : j ∈ (inline options d).elements)
      (hstyle : (inline options d).isNamed j "style" = true)
      (hother : ∀ s ∈ sheetsOf d, j ≠ s.owner)
      (h : References.Names v ((inline options d).textContent j).toList)

/-- Whether a `style` element that no sheet stands around declares something with an id,
in what the pass does not use up. -/
inductive StaysDeclared (options : Options) (d : Document) (v : String) : Prop
  | sheet {s : Sheet} (hs : s ∈ sheetsOf d)
      (hapart : ∀ t ∈ sheetsOf d, ¬ d.IsAbove t.owner s.owner)
      (h : KeepsDeclaring options d s.sheet v)
  | other {j : NodeId} (hj : j ∈ d.elements) (hstyle : d.isNamed j "style" = true)
      (hapart : ∀ t ∈ sheetsOf d, ¬ d.IsAbove t.owner j)
      (hother : ∀ s ∈ sheetsOf d, j ≠ s.owner)
      (h : References.Names v (d.textContent j).toList)

theorem isNamed_inline_iff [QName.Admits P] (hd : d.IsSound P) {name : String} :
    (inline options d).isNamed id name = true ↔ d.isNamed id name = true := by
  have hedits := edits_inline options hd
  refine ⟨fun h => ?_, hedits.isNamed⟩
  obtain ⟨e', he', hnamed⟩ := Document.isNamed_iff.1 h
  have hsome := isSome_element?_inline options d id
  rw [he', Option.isSome_some] at hsome
  obtain ⟨e, he⟩ := Option.isSome_iff_exists.1 hsome.symm
  obtain ⟨e'', he'', hname⟩ := hedits.name_of_element? he
  obtain rfl := Option.some.inj (he''.symm.trans he')
  rw [Element.isNamed, hname] at hnamed
  exact Document.isNamed_iff.2 ⟨e, he, hnamed⟩

section Removing

variable [QName.Admits P] (hd : d.IsSound P) (hremoves : options.removesMatched = true)
include hd hremoves

theorem declaredAfter_iff : DeclaredAfter options d v ↔ StaysDeclared options d v := by
  constructor
  · intro h
    cases h with
    | @sheet s hs hleft _ h =>
      rw [sheetsAfter, if_pos hremoves] at hs
      obtain ⟨t, ht, rfl⟩ := List.mem_map.1 hs
      exact .sheet ht ((mem_elements_inline_iff hremoves hd ht).1 hleft).2
        ((declares_iff_of_reduces (reduces_reduced options ht)).1 h)
    | @other j hleft hstyle hother h =>
      have hstyle := (isNamed_inline_iff hd).1 hstyle
      have hj := (isRemnant_inline hd options).mem_elements hleft
      rw [textContent_inline_of_ne hremoves hd hother] at h
      exact .other hj hstyle ((mem_elements_inline_iff_of_ne hremoves hd hstyle hother hj).1 hleft)
        hother h
  · intro h
    cases h with
    | @sheet s hs hapart h =>
      have hdeclares := (declares_iff_of_reduces (reduces_reduced options hs)).2 h
      have hfull := ne_nil_of_declares hdeclares
      exact .sheet (reduced_mem_sheetsAfter hremoves hs)
        ((mem_elements_inline_iff hremoves hd hs).2 ⟨hfull, hapart⟩)
        (textContent_inline hremoves hd hs hfull) hdeclares
    | @other j hj hstyle hapart hother h =>
      refine .other ((mem_elements_inline_iff_of_ne hremoves hd hstyle hother hj).2 hapart)
        ((isNamed_inline_iff hd).2 hstyle) hother ?_
      rw [textContent_inline_of_ne hremoves hd hother]
      exact h

end Removing

/-- No attribute refers to a plain id that was dropped.  A declaration does, if it stays
in a `style` element: such declarations do not keep the id. -/
theorem dropped_id_declared_iff (hd : d.IsCoherent) (hv : References.IsPlain v)
    (hid : d.idOf? id = some v) (hgone : (inline options d).idOf? id ≠ some v) :
    ¬ (inline options d).RefersTo v ∧
      (DeclaredAfter options d v ↔ StaysDeclared options d v) := by
  have hunused : v ∉ References.inDocument (styled options d) := fun hmem =>
    hgone (idOf?_inline_of_mem hid hmem)
  have hremoves : options.removesMatched = true := by
    rw [← Bool.not_eq_false]
    intro hkeeps
    rw [inline_eq, hkeeps, Bool.not_false, Bool.or_true, if_pos rfl, idOf?_styled] at hgone
    exact hgone hid
  exact ⟨not_refersTo_inline hd hv hunused, declaredAfter_iff hd.toIsSound hremoves⟩

/-! ## A document in which a rule stays that uses a gradient

The rule of the gradient matches it alone and is inlined.  The rule that fills with the
gradient matches twice and stays. -/

namespace Filled

open Emptied (element)

def sheetText : String := "#g\x7bstop-color:red\x7d.a\x7bfill:url(#g)\x7d"

def document : Document :=
  ((((((Document.empty.append root (element "svg" [])).1.append 1 (element "style" [])).1.append 2
    (.text sheetText)).1.append 1 (element "linearGradient" [⟨.plain "id", "g"⟩])).1.append 1
      (element "rect" [⟨.plain "class", "a"⟩])).1.append 1
        (element "circle" [⟨.plain "class", "a"⟩])).1

def sheet : Stylesheet := ⟨[
  .style ⟨0, ["#g"], [⟨"stop-color", "red", .normal⟩]⟩,
  .style ⟨1, [".a"], [⟨"fill", "url(#g)", .normal⟩]⟩]⟩

def sheets : List Sheet := [⟨2, sheet, false⟩]

def isG : ComplexSelector := .compound [.id "g"]

theorem read_g : ComplexSelector.read "#g" = .ok isG :=
  ComplexSelector.read_of_step (by cbv) (by cbv)

theorem select_document :
    document.select root [isG] = [4] ∧ document.select root [Mixed.isA] = [5, 6] := by
  decide

theorem sheetsOf_document : sheetsOf document = sheets := by
  have helements : document.elements = [1, 2, 4, 5, 6] := by decide
  have hsheet : sheetOf? document 2 = some ⟨2, sheet, document.holdsCdata 2⟩ :=
    sheetOf?_of_read (by decide) (by decide) (by decide)
      (show Stylesheet.read sheetText = .ok sheet by cbv)
  have hother : ∀ id ∈ [1, 4, 5, 6], (document.element? id).any (isSheet document id) = false := by
    decide
  have hnone : ∀ id ∈ [1, 4, 5, 6], sheetOf? document id = none := by
    intro id hid
    rw [sheetOf?, hother id hid]
    rfl
  have hcdata : document.holdsCdata 2 = false := by decide
  rw [sheetsOf, helements]
  simp [hsheet, hnone, hcdata, sheets]

def record : Record := ⟨2, (0, 0), isG, ⟨[⟨"stop-color", "red", .normal⟩]⟩, [4]⟩

theorem inlined_document : inlined .default document = [record] := by
  have hselectors : selectorsOf sheets =
      [⟨⟨0, 0, 0⟩, 2, [], ⟨0, ["#g"], [⟨"stop-color", "red", .normal⟩]⟩, "#g"⟩,
        ⟨⟨0, 1, 0⟩, 2, [], ⟨1, [".a"], [⟨"fill", "url(#g)", .normal⟩]⟩, ".a"⟩] := rfl
  have hfilter : (recordsOf .default document (sheetsOf document)).filter
      Options.default.isEligible = [record] := by
    obtain ⟨hg, ha⟩ := select_document
    have hplain : isG.withoutPseudos = isG ∧ Mixed.isA.withoutPseudos = Mixed.isA := ⟨rfl, rfl⟩
    have hpseudo : isG.pseudoText = "" ∧ Mixed.isA.pseudoText = "" := ⟨rfl, rfl⟩
    rw [sheetsOf_document, ← filterMap_selectorsOf, hselectors]
    simp only [List.filterMap_cons, List.filterMap_nil, PlacedSelector.record?, record?, read_g,
      Mixed.read_a, hplain, hpseudo, hg, ha]
    rfl
  have hperm := perm_inlined .default document
  rw [hfilter] at hperm
  exact List.perm_singleton.1 hperm

theorem namesInUse_document :
    namesInUse ([record].foldl applyRecord document)
      (sheets.map (·.reduced [record])) = ⟨["a"], []⟩ := by
  have hname : SelectorNames.ofText ".a" = ⟨["a"], []⟩ := by cbv
  have hleft : (sheets.map (·.reduced [record])).flatMap
      (fun s => s.sheet.styleRules.flatMap (·.2.selectors)) = [".a"] := by
    decide
  have hother : (([record].foldl applyRecord document).elements.filter fun id =>
      ([record].foldl applyRecord document).isNamed id "style" &&
        !(sheets.map (·.reduced [record])).any (·.owner == id)) = [] := by
    decide
  unfold namesInUse
  rw [hleft, hother]
  show SelectorNames.empty.append (SelectorNames.ofText ".a") = ⟨["a"], []⟩
  rw [hname]
  rfl

theorem idOf?_inline_document : (inline .default document).idOf? 4 = none := by
  rw [inline_eq]
  simp only [styled, inlined_document, sheetsOf_document, namesInUse_document]
  decide

theorem isCoherent_document : document.IsCoherent := by
  have helement : ∀ name attributes, element name attributes ≠ .root := fun _ _ => nofun
  have htext : Content.text sheetText ≠ .root := nofun
  refine ⟨⟨?_, fun j e he => ⟨trivial, fun _ _ => trivial, ?_⟩⟩, fun j e he => ?_⟩
  · exact (((((Document.IsRooted.empty.append (by decide) (helement _ _)).append (by decide)
      (helement _ _)).append (by decide) htext).append (by decide) (helement _ _)).append
        (by decide) (helement _ _)).append (by decide) (helement _ _)
  · exact Document.forall_element?_of_all (Q := fun e => (e.attributes.map (·.name)).Nodup)
      (by decide) he
  · exact Document.forall_element?_of_all (Q := Element.IsFresh) (by decide) he

theorem usesUp_a : Options.default.usesUp document [] ".a" = false := by
  rw [Options.usesUp, Mixed.read_a]
  dsimp only
  rw [show Mixed.isA.withoutPseudos = Mixed.isA from rfl, select_document.2]
  decide

end Filled

/-- The gradient loses its id, and the rule that fills with it is still there. -/
theorem gradient_dropped :
    Filled.document.IsCoherent ∧ References.IsPlain "g" ∧ Filled.document.idOf? 4 = some "g" ∧
      (inline .default Filled.document).idOf? 4 ≠ some "g" ∧
      ¬ (inline .default Filled.document).RefersTo "g" ∧
      DeclaredAfter .default Filled.document "g" := by
  have hplain : References.IsPlain "g" := by
    intro c hc
    obtain rfl : c = 'g' := List.mem_singleton.1 hc
    decide
  have hid : Filled.document.idOf? 4 = some "g" := by decide
  have hgone : (inline .default Filled.document).idOf? 4 ≠ some "g" := by
    rw [Filled.idOf?_inline_document]
    exact nofun
  have hsheet : ⟨2, Filled.sheet, false⟩ ∈ sheetsOf Filled.document :=
    Filled.sheetsOf_document ▸ List.mem_singleton_self _
  have hstays : StaysDeclared .default Filled.document "g" := by
    refine .sheet hsheet ?_ (.inl
      ⟨([], ⟨1, [".a"], [⟨"fill", "url(#g)", .normal⟩]⟩), by decide,
        ⟨".a", by decide, Filled.usesUp_a⟩, _, List.mem_singleton_self _, "", by decide, by decide⟩)
    rw [Filled.sheetsOf_document]
    intro t ht
    rw [List.mem_singleton.1 ht]
    exact Filled.isCoherent_document.isForest.not_above_self 2
  obtain ⟨hclean, hdeclared⟩ :=
    dropped_id_declared_iff Filled.isCoherent_document hplain hid hgone
  exact ⟨Filled.isCoherent_document, hplain, hid, hgone, hclean, hdeclared.2 hstays⟩

end Inlining
end SvgCompact
