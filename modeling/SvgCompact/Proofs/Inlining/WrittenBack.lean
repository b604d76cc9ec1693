import SvgCompact.Proofs.Document.Cutting
import SvgCompact.Proofs.Document.Editing
import SvgCompact.Proofs.Inlining.Preservation
import SvgCompact.Proofs.Inlining.Staying
import SvgCompact.Proofs.Inlining.Survival
import SvgCompact.Proofs.Markup.Building
import SvgCompact.Proofs.Stylesheet.Selectors

/-!
Sheets after they are written back.

A sheet in which something is left replaces all that its element held, and an emptied
one takes its element along.  Either way another sheet that stands inside that element
goes, whatever is left of it: `mem_elements_inline_iff`.
-/

namespace SvgCompact

/-! ## The text that a node holds

Text and character data among the children of a node are taken together with the nodes
they stand in.  They stay when elements are unlinked, and when the text of another node is
replaced. -/

namespace Document

/-- The text and the character data among the children of a node. -/
def texts (d : Document) (id : NodeId) : List (NodeId × Content) :=
  ((d.children id).filter fun c => (d.content c).characters?.isSome).map fun c => (c, d.content c)

variable {d d' : Document} {id a : NodeId}

theorem textContent_eq (d : Document) (id : NodeId) :
    d.textContent id = String.join ((d.texts id).filterMap (·.2.characters?)) := by
  rw [textContent, texts, List.filterMap_map, List.filterMap_filter]
  congr 1
  refine List.filterMap_congr fun c _ => ?_
  cases hc : (d.content c).characters? with
  | none => rfl
  | some s => exact hc.symm

theorem textContent_of_texts (h : d'.texts id = d.texts id) :
    d'.textContent id = d.textContent id := by
  rw [textContent_eq, textContent_eq, h]

theorem texts_congr (hchildren : d'.children id = d.children id)
    (halike : ∀ c ∈ d.children id, (d.content c).Alike (d'.content c)) :
    d'.texts id = d.texts id := by
  have hkinds : (d.children id).filter (fun c => (d'.content c).characters?.isSome) =
      (d.children id).filter fun c => (d.content c).characters?.isSome :=
    List.filter_congr fun c hc => by rw [(halike c hc).characters?_eq]
  rw [texts, texts, hchildren, hkinds]
  refine List.map_congr_left fun c hc => ?_
  obtain ⟨hc, hsome⟩ := List.mem_filter.1 hc
  rw [(halike c hc).eq_of_characters? hsome]

theorem IsRestyled.texts_eq (h : d.IsRestyled d') (id : NodeId) : d'.texts id = d.texts id :=
  texts_congr (h.children_eq id) fun c _ => h.alike c

theorem texts_detach (hd : d.IsForest) (ha : d.isElement a = true) (id : NodeId) :
    (d.detach a).texts id = d.texts id := by
  simp only [texts, hd.children_detach, content_detach, List.filter_filter]
  congr 1
  refine List.filter_congr fun c _ => ?_
  by_cases hc : c = a
  · rw [hc, Content.characters?_of_isElement ha]
    rfl
  · rw [bne_iff_ne.2 hc, Bool.and_true]

theorem texts_replaceText (hd : d.IsForest) (ha : a < d.size) (cdata : Bool) (s : String)
    (hid : id ≠ a) : (d.replaceText a cdata s).texts id = d.texts id := by
  refine texts_congr (by rw [hd.children_replaceText ha, if_neg hid]) fun c hc => ?_
  have hlt := lt_size_of_parent ((hd.mem_children_iff id c).1 hc)
  rw [content_replaceText, if_neg (Nat.ne_of_lt hlt)]
  exact .refl _

end Document

namespace Inlining

open Document (root)

/-! ## Selectors that leave their sheets

A record is made for a selector at a place, and its address is taken out.  Whether that
happens depends on the text of the selector and the contexts around its rule only, so
what the pass makes of a sheet can be said without addresses. -/

section UsedUp

/-- Whether selectors with a text are inlined in some contexts: the contexts and the
pseudo parts are admitted, and without these the selector matches, once if records have
to. -/
def Options.usesUp (options : Options) (d : Document) (contexts : List String) (text : String) :
    Bool :=
  options.admits contexts &&
    match ComplexSelector.read text with
    | .ok selector =>
      let matched := (d.select Document.root [selector.withoutPseudos]).length
      options.pseudos.contains selector.pseudoText &&
        (matched == 1 || (1 < matched && !options.onlyOnce))
    | .error _ => false

variable {options : Options} {d : Document} {s : Sheet}

theorem isEligible_eq (options : Options) (r : Record) : options.isEligible r =
    (r.matched.length == 1 || (1 < r.matched.length && !options.onlyOnce)) := by
  rw [Options.isEligible]
  rcases r.matched with _ | ⟨first, _ | ⟨second, rest⟩⟩
  · rfl
  · rfl
  · simp

theorem isInlined_eq_usesUp (x : PlacedSelector) :
    x.isInlined options d = options.usesUp d x.contexts x.text := by
  unfold PlacedSelector.isInlined PlacedSelector.record? record? Options.usesUp
  cases options.admits x.contexts with
  | false => rfl
  | true =>
    cases ComplexSelector.read x.text with
    | error e => rfl
    | ok selector =>
      by_cases hpseudo : selector.pseudoText ∈ options.pseudos
      · simp [hpseudo, isEligible_eq]
      · simp [hpseudo]

theorem removes_removedFrom (hs : s ∈ sheetsOf d) :
    Rule.Removes (removedFrom (inlined options d) s.owner) (options.usesUp d)
      s.sheet.styleRules := by
  rintro ⟨contexts, rule⟩ hx k text htext
  obtain ⟨i, hi⟩ := List.mem_iff_getElem?.1 hs
  obtain ⟨j, hj⟩ := List.mem_iff_getElem?.1 hx
  have hplaced : ⟨⟨i, j, k⟩, s.owner, contexts, rule, text⟩ ∈ selectorsOf (sheetsOf d) :=
    mem_selectorsOf.2 ⟨s, hi, rfl, hj, htext⟩
  have hmem : (rule.number, k) ∈ removedFrom (inlined options d) s.owner ↔ _ :=
    mem_removedFrom_iff hplaced
  rw [isInlined_eq_usesUp] at hmem
  rw [Bool.eq_iff_iff, List.contains_iff_mem]
  exact hmem

/-- What the pass makes of a sheet. -/
theorem reduces_reduced (options : Options) (hs : s ∈ sheetsOf d) :
    Rule.Reduces (options.usesUp d) [] s.sheet.rules
      (s.reduced (inlined options d)).sheet.rules :=
  Rule.reduces_prunedOf s.sheet.rules (removes_removedFrom hs)

/-- Selectors that are left keep their order, their contexts and the declarations of their
rules, and no other selectors are lost. -/
theorem clauses_of_reduces {gone : List String → String → Bool} {contexts : List String}
    {rules rest : List Rule} (h : Rule.Reduces gone contexts rules rest) (owner : NodeId) :
    (Rule.styleRulesOf contexts rest).flatMap (clausesOfRule owner) =
      ((Rule.styleRulesOf contexts rules).flatMap (clausesOfRule owner)).filter
        fun c => !gone c.contexts c.text := by
  rw [h.styleRulesOf, flatMap_filter, List.flatMap_map, List.filter_flatMap]
  refine List.flatMap_congr fun x _ => ?_
  have hclauses : (clausesOfRule owner x).filter (fun c => !gone c.contexts c.text) =
      clausesOfRule owner
        (x.1, { x.2 with selectors := x.2.selectors.filter fun text => !gone x.1 text }) := by
    unfold clausesOfRule
    rw [List.filter_map]
    rfl
  rw [hclauses]
  -- a rule without selectors has no clauses
  split
  · rfl
  · next hnone =>
    rw [Bool.not_eq_true', Bool.not_eq_false, List.isEmpty_iff] at hnone
    rw [clausesOfRule, hnone]
    rfl

end UsedUp

variable {P : QName → Prop} {d d' : Document} {sheets : List Sheet} {s t : Sheet} {id : NodeId}

/-! ## Writing one sheet -/

/-- The content that a sheet is written into. -/
def Sheet.content (s : Sheet) : Content :=
  if s.cdata then .cdata s.sheet.write else .text s.sheet.write

theorem Sheet.isElement_content (s : Sheet) : s.content.isElement = false := by
  rw [content]
  split <;> rfl

theorem writeBack_of_full (h : s.sheet.isEmpty = false) :
    writeBack d s = d.replaceText s.owner s.cdata s.sheet.write := by
  rw [writeBack, h]
  rfl

theorem writeBack_of_empty (h : s.sheet.isEmpty = true) :
    writeBack d s = removeSheet d s.owner := by
  rw [writeBack, if_pos h]

theorem removeSheet_cases (d : Document) (id : NodeId) :
    removeSheet d id = d.detach id ∨
      ∃ p, d.parent id = some p ∧ d.isNamed p "defs" = true ∧ (d.detach id).children p = [] ∧
        removeSheet d id = (d.detach id).detach p := by
  unfold removeSheet
  dsimp only
  cases hp : d.parent id with
  | none => exact .inl rfl
  | some p =>
    dsimp only
    split
    · next h =>
      rw [Bool.and_eq_true, Document.isEmpty, List.isEmpty_iff] at h
      refine .inr ⟨p, rfl, ?_, h.2, rfl⟩
      have hname := h.1
      rwa [Document.isNamed, Document.element?_detach] at hname
    · exact .inl rfl

theorem parent_removeSheet_self (d : Document) (id : NodeId) :
    (removeSheet d id).parent id = none := by
  rcases removeSheet_cases d id with heq | ⟨p, -, -, -, heq⟩
  · rw [heq, Document.parent_detach, if_pos rfl]
  · rw [heq, Document.parent_detach, Document.parent_detach, if_pos rfl, ite_self]

/-- Where an element goes that is not on the way up from a `style` element, the way stays. -/
theorem parent_removeSheet_of_way_up {j : NodeId} (hd : d.IsForest)
    (hstyle : d.isNamed id "style" = true) (haway : ∀ a, a = id ∨ d.IsAbove a id → a ≠ t.owner)
    (hj : j = id ∨ d.IsAbove j id) : (removeSheet d t.owner).parent j = d.parent j := by
  have hdetach : ∀ a, a = id ∨ d.IsAbove a id →
      (d.detach t.owner).parent a = d.parent a := fun a ha => by
    rw [Document.parent_detach, if_neg (haway a ha)]
  rcases removeSheet_cases d t.owner with heq | ⟨q, -, hdefs, hnone, heq⟩
  · rw [heq, hdetach j hj]
  · rw [heq, Document.parent_detach, if_neg ?_, hdetach j hj]
    -- nothing is left in the definitions, so the way up does not lead through them
    rintro rfl
    rcases hj with rfl | hj
    · obtain ⟨e, he, hnamed⟩ := Document.isNamed_iff.1 hstyle
      obtain ⟨e', he', hnamed'⟩ := Document.isNamed_iff.1 hdefs
      obtain rfl : e = e' := Option.some.inj (he.symm.trans he')
      have hother := Element.isNamed_eq_false (s := "defs") Element.read_style (by decide) hnamed
      rw [Element.isNamed, hother] at hnamed'
      cases hnamed'
    · obtain ⟨c, hc, hcid⟩ := Relation.TransGen.head'_iff.1 hj
      have hway : c = id ∨ d.IsAbove c id :=
        (Relation.reflTransGen_iff_eq_or_transGen.1 hcid).imp_left Eq.symm
      have hchild := ((hd.detach t.owner).mem_children_iff j c).2 ((hdetach c hway).trans hc)
      rw [hnone] at hchild
      cases hchild

/-- A `style` element stays where it is when a sheet is written that neither contains it
nor is emptied in it. -/
theorem mem_subtree_writeBack (hd : d.IsSound P) (ht : d.isNamed t.owner "style" = true)
    (hid : id ∈ d.subtree root) (hstyle : d.isNamed id "style" = true)
    (habove : ¬ d.IsAbove t.owner id) (hself : t.owner = id → t.sheet.isEmpty = false) :
    id ∈ (writeBack d t).subtree root := by
  have hforest := hd.isForest
  refine hforest.mem_subtree_of_way_up (isSound_writeBack hd ht).isForest hid fun j hj p hp => ?_
  cases hempty : t.sheet.isEmpty with
  | false =>
    have hup : d.IsAbove p id := by
      rcases hj with rfl | hj
      · exact Document.isAbove_of_parent hp
      · exact (Document.isAbove_of_parent hp).trans hj
    have hnew : j ≠ d.size := Nat.ne_of_lt (Document.lt_size_of_parent hp)
    have hp' : d.parent j ≠ some t.owner := by
      rw [hp]
      rintro heq
      exact habove (Option.some.inj heq ▸ hup)
    rw [writeBack_of_full hempty, hforest.parent_replaceText, if_neg hnew, if_neg hp', hp]
  | true =>
    have haway : ∀ a, a = id ∨ d.IsAbove a id → a ≠ t.owner := by
      rintro a ha rfl
      rcases ha with heq | ha
      · rw [hself heq] at hempty
        cases hempty
      · exact habove ha
    rw [writeBack_of_empty hempty, parent_removeSheet_of_way_up hforest hstyle haway hj, hp]

/-! ## What stands in a sheet -/

/-- Whether a sheet stands in its element, in one node that an older document does not
have. -/
def IsWritten (d d' : Document) (s : Sheet) : Prop :=
  ∃ j, d.size ≤ j ∧ d'.children s.owner = [j] ∧ d'.content j = s.content

theorem isWritten_writeBack (hd : d.IsForest) (hs : d.isNamed s.owner "style" = true)
    (hfull : s.sheet.isEmpty = false) : IsWritten d (writeBack d s) s := by
  have hlt := Document.lt_size_of_isElement (Document.isElement_of_isNamed hs)
  refine ⟨d.size, Nat.le_refl _, ?_, ?_⟩
  · rw [writeBack_of_full hfull, hd.children_replaceText hlt, if_pos rfl]
  · rw [writeBack_of_full hfull, Document.content_replaceText, if_pos rfl, Sheet.content]

theorem content_writeBack (d : Document) (t : Sheet) {j : NodeId} (hj : j < d.size) :
    (writeBack d t).content j = d.content j := by
  cases hempty : t.sheet.isEmpty with
  | false =>
    rw [writeBack_of_full hempty, Document.content_replaceText, if_neg (Nat.ne_of_lt hj)]
  | true =>
    rw [writeBack_of_empty hempty]
    rcases removeSheet_cases d t.owner with heq | ⟨q, -, -, -, heq⟩
    · rw [heq, Document.content_detach]
    · rw [heq, Document.content_detach, Document.content_detach]

/-- What stands in a sheet stays when another sheet is written. -/
theorem IsWritten.writeBack (h : IsWritten d d' s) (hd' : d'.IsForest)
    (ht : d'.isNamed t.owner "style" = true) (hne : s.owner ≠ t.owner) :
    IsWritten d (writeBack d' t) s := by
  obtain ⟨j, hj, hchildren, hcontent⟩ := h
  have hparent : d'.parent j = some s.owner :=
    (hd'.mem_children_iff s.owner j).1 (hchildren ▸ List.mem_singleton_self j)
  have hkept : (Inlining.writeBack d' t).content j = s.content :=
    (content_writeBack d' t (Document.lt_size_of_parent hparent)).trans hcontent
  refine ⟨j, hj, ?_, hkept⟩
  -- what is unlinked is an element, and the node is none
  have hstays : ∀ a, d'.isElement a = true → [j].filter (· != a) = [j] := by
    intro a ha
    rw [List.filter_eq_self]
    intro c hc
    rw [List.mem_singleton] at hc
    rw [bne_iff_ne]
    rintro rfl
    rw [Document.isElement, hc, hcontent, s.isElement_content] at ha
    cases ha
  have howner := Document.isElement_of_isNamed ht
  cases hempty : t.sheet.isEmpty with
  | false =>
    rw [writeBack_of_full hempty,
      hd'.children_replaceText (Document.lt_size_of_isElement howner), if_neg hne, hchildren]
  | true =>
    rw [writeBack_of_empty hempty]
    rcases removeSheet_cases d' t.owner with heq | ⟨q, -, hdefs, -, heq⟩
    · rw [heq, hd'.children_detach, hchildren, hstays _ howner]
    · rw [heq, (hd'.detach _).children_detach, hd'.children_detach, hchildren, hstays _ howner,
        hstays _ (Document.isElement_of_isNamed hdefs)]

theorem textContent_of_isWritten (h : IsWritten d d' s) :
    d'.textContent s.owner = s.sheet.write := by
  obtain ⟨j, -, hchildren, hcontent⟩ := h
  have hcharacters : s.content.characters? = some s.sheet.write := by
    rw [Sheet.content]
    split <;> rfl
  rw [Document.textContent, hchildren, List.filterMap_cons, hcontent, hcharacters]
  exact String.empty_append

/-! ## Writing all sheets -/

/-- What every sheet keeps when it is written, all sheets keep. -/
theorem foldl_writeBack_keeps {Q : Document → Prop} (hd : d.IsSound P)
    (hs : ∀ s ∈ sheets, d.isNamed s.owner "style" = true)
    (hstep : ∀ d' t, t ∈ sheets → d.IsCut d' → d'.IsSound P →
      (∀ s ∈ sheets, d'.isNamed s.owner "style" = true) → Q d' → Q (writeBack d' t))
    (hq : Q d) : (sheets.foldl writeBack d).IsSound P ∧ d.IsCut (sheets.foldl writeBack d) ∧
      Q (sheets.foldl writeBack d) := by
  refine (List.foldlRecOn (motive := fun d' : Document => (d'.IsSound P ∧ d.IsCut d' ∧ Q d') ∧
    ∀ s ∈ sheets, d'.isNamed s.owner "style" = true) sheets writeBack
      ⟨⟨hd, .of_isRestyled (.refl d), hq⟩, hs⟩ fun d' h t ht => ?_).1
  obtain ⟨⟨hd', hcut, hq'⟩, hnamed⟩ := h
  have hstyle := hnamed t ht
  refine ⟨⟨isSound_writeBack hd' hstyle, hcut.trans (isCut_writeBack hd'.isForest t),
    hstep d' t ht hcut hd' hnamed hq'⟩, fun s hs => ?_⟩
  exact (edits_writeBack (P := P) hstyle).isNamed (hnamed s hs)

/-- The document into which one of the sheets is written. -/
theorem exists_before (hd : d.IsSound P) (hs : ∀ s ∈ sheets, d.isNamed s.owner "style" = true)
    (hmem : s ∈ sheets) : ∃ front back e, sheets = front ++ s :: back ∧ e.IsSound P ∧ d.IsCut e ∧
      (∀ t ∈ sheets, e.isNamed t.owner "style" = true) ∧
      sheets.foldl writeBack d = back.foldl writeBack (writeBack e s) := by
  obtain ⟨front, back, rfl⟩ := List.append_of_mem hmem
  have hfront : ∀ t ∈ front, d.isNamed t.owner "style" = true := fun t ht =>
    hs t (List.mem_append_left _ ht)
  have hedits : Document.Edits P Element.IsNoSvg d (front.foldl writeBack d) :=
    edits_foldl_writeBack hfront
  refine ⟨front, back, front.foldl writeBack d, rfl, hedits.isSound hd,
    isCut_foldl_writeBack hd hfront, fun t ht => hedits.isNamed (hs t ht), ?_⟩
  rw [List.foldl_append, List.foldl_cons]

theorem parent_foldl_writeBack (hd : d.IsSound P)
    (hs : ∀ s ∈ sheets, d.isNamed s.owner "style" = true) (hmem : s ∈ sheets)
    (hempty : s.sheet.isEmpty = true) : (sheets.foldl writeBack d).parent s.owner = none := by
  obtain ⟨front, back, e, rfl, he, -, hnamed, heq⟩ := exists_before hd hs hmem
  have howner := hnamed s hmem
  have hlt := Document.lt_size_of_isElement (Document.isElement_of_isNamed howner)
  have hedits : Document.Edits P Element.IsNoSvg e (writeBack e s) := edits_writeBack howner
  have hcut : (writeBack e s).IsCut (back.foldl writeBack (writeBack e s)) :=
    isCut_foldl_writeBack (hedits.isSound he) fun t ht =>
      hedits.isNamed (hnamed t (List.mem_append_right _ (List.mem_cons_of_mem s ht)))
  rw [heq]
  refine hcut.parent_eq_none (Nat.lt_of_lt_of_le hlt (isCut_writeBack he.isForest s).size_le) ?_
  rw [writeBack_of_empty hempty, parent_removeSheet_self]

theorem isWritten_foldl_writeBack (hd : d.IsSound P)
    (hs : ∀ s ∈ sheets, d.isNamed s.owner "style" = true)
    (hnodup : (sheets.map (·.owner)).Nodup) (hmem : s ∈ sheets)
    (hfull : s.sheet.isEmpty = false) : IsWritten d (sheets.foldl writeBack d) s := by
  obtain ⟨front, back, e, rfl, he, hcut, hnamed, heq⟩ := exists_before hd hs hmem
  have howner := hnamed s hmem
  have hedits : Document.Edits P Element.IsNoSvg e (writeBack e s) := edits_writeBack howner
  obtain ⟨j, hj, hwritten⟩ := isWritten_writeBack he.isForest howner hfull
  have hother : ∀ t ∈ back, s.owner ≠ t.owner := by
    intro t ht heq
    rw [List.map_append, List.map_cons, List.nodup_append] at hnodup
    exact (List.nodup_cons.1 hnodup.2.1).1 (heq ▸ List.mem_map_of_mem ht)
  rw [heq]
  exact (foldl_writeBack_keeps (Q := fun d' => IsWritten d d' s) (hedits.isSound he)
    (fun t ht => hedits.isNamed (hnamed t (List.mem_append_right _ (List.mem_cons_of_mem s ht))))
    (fun _ t ht _ hd' hstyle h => h.writeBack hd'.isForest (hstyle t ht) (hother t ht))
    ⟨j, Nat.le_trans hcut.size_le hj, hwritten⟩).2.2

/-- What is left in the document is not the element of an emptied sheet. -/
theorem isEmpty_eq_false_of_reached (hd : d.IsSound P)
    (hs : ∀ s ∈ sheets, d.isNamed s.owner "style" = true) (hmem : s ∈ sheets)
    (hreached : s.owner ∈ (sheets.foldl writeBack d).subtree root) :
    s.sheet.isEmpty = false := by
  have hedits : Document.Edits P Element.IsNoSvg d (sheets.foldl writeBack d) :=
    edits_foldl_writeBack hs
  rw [← Bool.not_eq_true]
  intro hempty
  rcases (hedits.isSound hd).isForest.mem_subtree_iff_parent.1 hreached with heq | ⟨p, hp, -⟩
  · have hel := Document.isElement_of_isNamed (hs s hmem)
    rw [heq, hd.not_isElement_root] at hel
    cases hel
  · rw [parent_foldl_writeBack hd hs hmem hempty] at hp
    cases hp

/-- All that is below a sheet that stands in its element is its one new node. -/
theorem IsWritten.not_isAbove (h : IsWritten d d' s) (hd : d.IsForest) (hd' : d'.IsForest)
    (hcut : d.IsCut d') (hlt : id < d.size) : ¬ d'.IsAbove s.owner id := by
  obtain ⟨j, hj, hchildren, -⟩ := h
  refine hcut.not_isAbove_of_new hd hd' hlt fun c hc => ?_
  rw [hchildren, List.mem_singleton] at hc
  rwa [hc]

/-- A `style` element goes if its sheet is emptied or another sheet stands around it. -/
theorem mem_elements_foldl_writeBack_iff (hd : d.IsSound P)
    (hs : ∀ s ∈ sheets, d.isNamed s.owner "style" = true)
    (hnodup : (sheets.map (·.owner)).Nodup) (hstyle : d.isNamed id "style" = true)
    (hreached : id ∈ d.subtree root) :
    id ∈ (sheets.foldl writeBack d).elements ↔
      (∀ t ∈ sheets, t.owner = id → t.sheet.isEmpty = false) ∧
        ∀ t ∈ sheets, ¬ d.IsAbove t.owner id := by
  have hedits : Document.Edits P Element.IsNoSvg d (sheets.foldl writeBack d) :=
    edits_foldl_writeBack hs
  have hd' := (hedits.isSound hd).isForest
  have hcut := isCut_foldl_writeBack hd hs
  have hlt := Document.lt_size_of_isElement (Document.isElement_of_isNamed hstyle)
  rw [Document.mem_elements_iff, Document.isElement_of_isNamed (hedits.isNamed hstyle),
    and_iff_left rfl]
  constructor
  · intro hbelow
    refine ⟨fun t ht heq => isEmpty_eq_false_of_reached hd hs ht (heq ▸ hbelow),
      fun t ht habove => ?_⟩
    obtain ⟨habove', hbelow'⟩ := hcut.isAbove_of_reached hd.toIsRooted hd' hlt hbelow habove
    have hfull := isEmpty_eq_false_of_reached hd hs ht hbelow'
    have hwritten := isWritten_foldl_writeBack hd hs hnodup ht hfull
    exact hwritten.not_isAbove hd.isForest hd' hcut hlt habove'
  · rintro ⟨hfull, hapart⟩
    refine (foldl_writeBack_keeps
      (Q := fun d' => d'.isNamed id "style" = true ∧ id ∈ d'.subtree root) hd hs
      (fun d' t ht hcut' hd' hstyles hkept => ?_) ⟨hstyle, hreached⟩).2.2.2
    have hapart' : ¬ d'.IsAbove t.owner id := fun habove =>
      hapart t ht (hcut'.isAbove hd.isForest hlt habove)
    exact ⟨(edits_writeBack (P := P) (hstyles t ht)).isNamed hkept.1,
      mem_subtree_writeBack hd' (hstyles t ht) hkept.2 hkept.1 hapart' (hfull t ht)⟩

/-- The text of an element stays when a sheet is written into another one. -/
theorem texts_writeBack (hd : d.IsForest) (ht : d.isNamed t.owner "style" = true)
    (hid : id ≠ t.owner) : (writeBack d t).texts id = d.texts id := by
  have howner := Document.isElement_of_isNamed ht
  cases hempty : t.sheet.isEmpty with
  | false =>
    rw [writeBack_of_full hempty,
      Document.texts_replaceText hd (Document.lt_size_of_isElement howner) _ _ hid]
  | true =>
    rw [writeBack_of_empty hempty]
    rcases removeSheet_cases d t.owner with heq | ⟨q, -, hdefs, -, heq⟩
    · rw [heq, Document.texts_detach hd howner]
    · have hdefs' : (d.detach t.owner).isElement q = true := by
        have hq := Document.isElement_of_isNamed hdefs
        rwa [Document.isElement, Document.content_detach]
      rw [heq, Document.texts_detach (hd.detach _) hdefs', Document.texts_detach hd howner]

theorem texts_foldl_writeBack (hd : d.IsSound P)
    (hs : ∀ s ∈ sheets, d.isNamed s.owner "style" = true) (hid : ∀ s ∈ sheets, id ≠ s.owner) :
    (sheets.foldl writeBack d).texts id = d.texts id :=
  (foldl_writeBack_keeps (Q := fun d' => d'.texts id = d.texts id) hd hs
    (fun _ t ht _ hd' hstyles h =>
      (texts_writeBack hd'.isForest (hstyles t ht) (hid t ht)).trans h) rfl).2.2

/-! ## The whole pass -/

theorem nodup_owners (hd : d.IsForest) : ((sheetsOf d).map (·.owner)).Nodup := by
  refine List.pairwise_map.2 (List.pairwise_filterMap.2 (((hd.nodup_subtree root).filter _).imp
    fun {i j} hij s hs t ht => ?_))
  rw [(read_of_sheetOf? hs).1, (read_of_sheetOf? ht).1]
  exact hij

theorem mem_elements_of_mem_sheetsOf (hs : s ∈ sheetsOf d) : s.owner ∈ d.elements := by
  obtain ⟨id, hid, heq⟩ := List.mem_filterMap.1 hs
  rwa [(read_of_sheetOf? heq).1]

section Inlined

variable {options : Options} (hremoves : options.removesMatched = true)
include hremoves

theorem reduced_mem_sheetsAfter (hs : s ∈ sheetsOf d) :
    s.reduced (inlined options d) ∈ sheetsAfter options d := by
  rw [sheetsAfter, if_pos hremoves]
  exact List.mem_map_of_mem hs

variable [QName.Admits P] (hd : d.IsSound P)
include hd

theorem exists_foldl_writeBack : ∃ d₁, d.IsRestyled d₁ ∧
    Document.Edits P Element.IsNoSvg d d₁ ∧
    (∀ t ∈ sheetsAfter options d, d₁.isNamed t.owner "style" = true) ∧
    ((sheetsAfter options d).map (·.owner)).Nodup ∧
    inline options d = (sheetsAfter options d).foldl writeBack d₁ := by
  obtain ⟨d₁, hrestyled, hedits, hinline⟩ := exists_isRestyled hd options
  rw [if_pos hremoves] at hinline
  refine ⟨d₁, hrestyled, hedits,
    fun t ht => hedits.isNamed (isNamed_of_mem_sheetsAfter ht), ?_, hinline⟩
  rw [owners_sheetsAfter]
  exact nodup_owners hd.isForest

theorem mem_elements_inline_iff_of_isNamed (hstyle : d.isNamed id "style" = true)
    (hid : id ∈ d.elements) :
    id ∈ (inline options d).elements ↔
      (∀ t ∈ sheetsAfter options d, t.owner = id → t.sheet.isEmpty = false) ∧
        ∀ t ∈ sheetsOf d, ¬ d.IsAbove t.owner id := by
  obtain ⟨d₁, hrestyled, hedits, hnamed, hnodup, hinline⟩ := exists_foldl_writeBack hremoves hd
  have hd₁ := hedits.isSound hd
  have hreached : id ∈ d₁.subtree root := by
    rw [hrestyled.subtree_eq]
    exact (Document.mem_elements_iff.1 hid).1
  have habove : ∀ a, d₁.IsAbove a id ↔ d.IsAbove a id := fun a => by
    unfold Document.IsAbove
    simp only [hrestyled.parent_eq]
  have hsame : (∀ t ∈ sheetsAfter options d, ¬ d₁.IsAbove t.owner id) ↔
      ∀ t ∈ sheetsOf d, ¬ d.IsAbove t.owner id := by
    simp only [habove]
    exact forall_sheetsAfter_iff (p := fun a => ¬ d.IsAbove a id)
  rw [hinline, ← hsame]
  exact mem_elements_foldl_writeBack_iff hd₁ hnamed hnodup (hedits.isNamed hstyle) hreached

theorem mem_elements_inline_iff_of_ne (hstyle : d.isNamed id "style" = true)
    (hother : ∀ s ∈ sheetsOf d, id ≠ s.owner) (hid : id ∈ d.elements) :
    id ∈ (inline options d).elements ↔ ∀ t ∈ sheetsOf d, ¬ d.IsAbove t.owner id := by
  rw [mem_elements_inline_iff_of_isNamed hremoves hd hstyle hid]
  refine and_iff_right fun t ht howner => ?_
  obtain ⟨s, hs, hsame⟩ := exists_owner_of_mem_sheetsAfter ht
  exact absurd (hsame.trans howner).symm (hother s hs)

theorem mem_elements_inline_iff (hs : s ∈ sheetsOf d) :
    s.owner ∈ (inline options d).elements ↔
      (s.reduced (inlined options d)).sheet.isEmpty = false ∧
        ∀ t ∈ sheetsOf d, ¬ d.IsAbove t.owner s.owner := by
  rw [mem_elements_inline_iff_of_isNamed hremoves hd (isNamed_of_mem_sheetsOf hs)
    (mem_elements_of_mem_sheetsOf hs)]
  refine and_congr_left fun _ => ⟨fun h => h _ (reduced_mem_sheetsAfter hremoves hs) rfl, ?_⟩
  intro hfull t ht howner
  obtain ⟨-, -, -, -, hnodup, -⟩ := exists_foldl_writeBack hremoves hd
  rw [List.inj_on_of_nodup_map hnodup ht (reduced_mem_sheetsAfter hremoves hs) howner, hfull]

theorem textContent_inline (hs : s ∈ sheetsOf d)
    (hfull : (s.reduced (inlined options d)).sheet.isEmpty = false) :
    (inline options d).textContent s.owner = (s.reduced (inlined options d)).sheet.write := by
  obtain ⟨d₁, -, hedits, hnamed, hnodup, hinline⟩ := exists_foldl_writeBack hremoves hd
  rw [hinline]
  exact textContent_of_isWritten (isWritten_foldl_writeBack (hedits.isSound hd) hnamed hnodup
    (reduced_mem_sheetsAfter hremoves hs) hfull)

theorem texts_inline_of_ne (hid : ∀ s ∈ sheetsOf d, id ≠ s.owner) :
    (inline options d).texts id = d.texts id := by
  obtain ⟨d₁, hrestyled, hedits, hnamed, -, hinline⟩ := exists_foldl_writeBack hremoves hd
  have hid' : ∀ s ∈ sheetsAfter options d, id ≠ s.owner :=
    forall_sheetsAfter_iff (p := fun a => id ≠ a) |>.2 hid
  rw [hinline, texts_foldl_writeBack (hedits.isSound hd) hnamed hid', hrestyled.texts_eq]

theorem textContent_inline_of_ne (hid : ∀ s ∈ sheetsOf d, id ≠ s.owner) :
    (inline options d).textContent id = d.textContent id :=
  Document.textContent_of_texts (texts_inline_of_ne hremoves hd hid)

end Inlined

/-- Of each sheet those selectors leave that are used up, with rules that lose their last
one and groups that lose their last rule; all else is written back as it was.  The
element of the sheet goes if nothing is left, or if another sheet stands around it. -/
theorem sheet_stays_iff (hd : d.IsSound fun _ => True) {options : Options}
    (hremoves : options.removesMatched = true) (hs : s ∈ sheetsOf d) :
    ∃ rules, Rule.Reduces (options.usesUp d) [] s.sheet.rules rules ∧
      (Rule.styleRulesOf [] rules).flatMap (clausesOfRule s.owner) =
        (s.sheet.styleRules.flatMap (clausesOfRule s.owner)).filter
          (fun c => !options.usesUp d c.contexts c.text) ∧
      (s.owner ∈ (inline options d).elements ↔
        rules ≠ [] ∧ ∀ t ∈ sheetsOf d, ¬ d.IsAbove t.owner s.owner) ∧
      (rules ≠ [] → (inline options d).textContent s.owner = Stylesheet.write ⟨rules⟩) := by
  have hfull : (s.reduced (inlined options d)).sheet.isEmpty = false ↔
      (s.reduced (inlined options d)).sheet.rules ≠ [] := List.isEmpty_eq_false_iff
  have hreduces := reduces_reduced options hs
  refine ⟨_, hreduces, clauses_of_reduces hreduces s.owner, ?_, fun hne => ?_⟩
  · rw [mem_elements_inline_iff hremoves hd hs, hfull]
  · exact textContent_inline hremoves hd hs (hfull.2 hne)

namespace Mixed

theorem isSound_document : document.IsSound fun _ => True := by
  have hbuilt : document = ((((((((Document.empty.append root (element 0 "svg" [] []).content).1.append
      1 (element 1 "style" [] []).content).1.append 2 (.text outerText)).1.append 2
        (element 2 "style" [] []).content).1.append 4 (.text innerText)).1.append 1
          (element 1 "rect" [⟨.plain "class", "a"⟩] []).content).1.append 1
            (element 1 "circle" [⟨.plain "class", "a"⟩, ⟨.plain "style", "x:y"⟩] []).content).1.append
              1 (element 1 "g" [⟨.plain "style", "a:b"⟩] []).content).1 := by
    decide +kernel
  have helement : ∀ parent name attributes children,
      (element parent name attributes children).content ≠ .root := fun _ _ _ _ => nofun
  have htext : ∀ s, Content.text s ≠ .root := fun _ => nofun
  refine ⟨?_, fun j e he => ⟨trivial, fun _ _ => trivial, ?_⟩⟩
  · rw [hbuilt]
    exact (((((((Document.IsRooted.empty.append (by decide) (helement _ _ _ _)).append (by decide)
      (helement _ _ _ _)).append (by decide) (htext _)).append (by decide) (helement _ _ _ _)).append
        (by decide) (htext _)).append (by decide) (helement _ _ _ _)).append (by decide)
          (helement _ _ _ _)).append (by decide) (helement _ _ _ _)
  · exact Document.forall_element?_of_all (Q := fun e => (e.attributes.map (·.name)).Nodup)
      (by decide) he

theorem usesUp_a : Options.default.usesUp document [] ".a" = false := by
  rw [Options.usesUp, read_a]
  dsimp only
  rw [show isA.withoutPseudos = isA from rfl, select_document.2.1]
  decide

end Mixed

/-- The sheet that stands inside another one is lost, although its only rule is left. -/
theorem sheet_lost :
    (Mixed.document.IsSound fun _ => True) ∧ ⟨4, Mixed.inner, false⟩ ∈ sheetsOf Mixed.document ∧
      ∃ rules, Rule.Reduces (Options.default.usesUp Mixed.document) [] Mixed.inner.rules rules ∧
        rules ≠ [] ∧ 4 ∉ (inline .default Mixed.document).elements := by
  have hs : ∀ s ∈ Mixed.sheets, s ∈ sheetsOf Mixed.document := fun s hs =>
    Mixed.sheetsOf_document ▸ hs
  have hinner := hs ⟨4, Mixed.inner, false⟩ (by simp [Mixed.sheets])
  have houter := hs ⟨2, Mixed.outer, false⟩ (by simp [Mixed.sheets])
  have hremoves : Options.default.removesMatched = true := rfl
  obtain ⟨rules, hreduces, hclauses, hstays, -⟩ :=
    sheet_stays_iff Mixed.isSound_document hremoves hinner
  refine ⟨Mixed.isSound_document, hinner, rules, hreduces, ?_, fun hstay => ?_⟩
  · rintro rfl
    have hleft : (Mixed.inner.styleRules.flatMap (clausesOfRule 4)).filter
        (fun c => !Options.default.usesUp Mixed.document c.contexts c.text) =
          [⟨4, [], [⟨"display", "none", .normal⟩], ".a"⟩] := by
      have hall : Mixed.inner.styleRules.flatMap (clausesOfRule 4) =
          [⟨4, [], [⟨"display", "none", .normal⟩], ".a"⟩] := rfl
      rw [hall, List.filter_cons_of_pos (by simp [Mixed.usesUp_a]), List.filter_nil]
    rw [hleft] at hclauses
    cases hclauses
  · exact (hstays.1 hstay).2 _ houter (Document.isAbove_of_parent (by decide))

end Inlining

end SvgCompact
