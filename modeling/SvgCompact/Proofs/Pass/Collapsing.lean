import SvgCompact.Proofs.Pass.Lasting

/-!
What a visit does where groups collapse, and where.

A visit of a group leaves the document as it is, or it replaces the group by its children,
after its attributes have moved to its only child if it had any (`collapseVisit_cases`).
Nothing else changes, so the walk over a branch is not seen outside the branch but in the
list of children that it hangs in.
-/

namespace SvgCompact

theorem Document.updateElement_of_fixed {d : Document} {id : NodeId} {f : Element → Element}
    (h : ∀ e, d.element? id = some e → f e = e) : d.updateElement id f = d := by
  refine ext_views (by simp) (fun j => by simp) (fun j => by simp) fun j => ?_
  rw [content_updateElement]
  split
  · next hj =>
    subst hj
    cases he : d.element? j with
    | none => exact Content.mapElement_of_element?_none f he
    | some e =>
      rw [Content.eq_element_of_element? he, Content.mapElement, h e he]
  · rfl

namespace Pass

open Document (root IsCoherent)

variable {d s t : Document} {id c p j : NodeId} {group child : Element}

/-! ## One visit -/

/-- Whether a group may be replaced by its children. -/
structure IsCollapsible (d : Document) (id : NodeId) : Prop where
  named : d.isNamed id "g" = true
  filled : d.children id ≠ []
  single : isAlternative d id = false

theorem collapseVisit_of_not (h : ¬ IsCollapsible d id) : collapseVisit d id = (d, .keep) := by
  rw [collapseVisit, if_pos]
  by_contra hcond
  simp only [Bool.or_eq_true, Bool.not_eq_true', not_or, Bool.not_eq_false, Document.isEmpty,
    List.isEmpty_iff, Bool.not_eq_true] at hcond
  exact h ⟨hcond.1.1, hcond.1.2, hcond.2⟩

theorem collapseVisit_of (h : IsCollapsible d id) :
    collapseVisit d id =
      (if ((lower d id).element? id).any (·.attributes.isEmpty) then (lower d id).unwrap id
        else lower d id, .keep) := by
  rw [collapseVisit, if_neg (by simp [h.named, h.filled, h.single, Document.isEmpty])]
  dsimp only
  split <;> rfl

theorem collapseVisit_keep (d : Document) (id : NodeId) : (collapseVisit d id).2 = .keep := by
  by_cases h : IsCollapsible d id
  · rw [collapseVisit_of h]
  · rw [collapseVisit_of_not h]

/-- A group without attributes has nothing to move. -/
theorem lower_of_bare (hd : d.IsCoherent) (hg : d.element? id = some group)
    (hbare : group.attributes = []) : lower d id = d := by
  have hsame : ∀ c, (d.updateElement c fun child => group.attributes.foldl
      (putJoined fun outer own => outer ++ " " ++ own) child).updateElement id
        (Element.filterAttrs fun _ => false) = d := by
    intro c
    have hgiven : d.updateElement c (fun child => group.attributes.foldl
        (putJoined fun outer own => outer ++ " " ++ own) child) = d :=
      Document.updateElement_of_fixed fun e _ => by rw [hbare]; rfl
    rw [hgiven]
    refine Document.updateElement_of_fixed fun e he => ?_
    obtain rfl := Option.some.inj (hg.symm.trans he)
    refine Element.IsFresh.ext (Element.isFresh_filterAttrs _ _) (hd.fresh id group hg) rfl ?_
    rw [Element.attributes_filterAttrs, hbare, List.filter_nil]
  rw [lower]
  split
  · next c _ =>
    rw [hg]
    split
    · next group' child hgroup _ =>
      obtain rfl := Option.some.inj hgroup
      split
      · exact hsame c
      · rfl
    · rfl
  · rfl

/-- Visiting a group without attributes replaces it by its children. -/
theorem collapseVisit_of_bare (hd : d.IsCoherent) (h : IsCollapsible d id)
    (hbare : (d.element? id).any (·.attributes.isEmpty) = true) :
    (collapseVisit d id).1 = d.unwrap id := by
  obtain ⟨group, hg, hnil⟩ := (Option.any_eq_true _ _).1 hbare
  rw [collapseVisit_of h, lower_of_bare hd hg (List.isEmpty_iff.1 hnil), if_pos hbare]

theorem IsLowerableTo.isBare_lowered (h : IsLowerableTo d id c group child) (hd : d.IsForest) :
    ((lowered d id c group.attributes).element? id).any (·.attributes.isEmpty) = true := by
  rw [h.element?_lowered hd, if_pos rfl, Option.any_some, Element.attributes_filterAttrs,
    List.filter_eq_nil_iff.2 fun _ _ => Bool.false_ne_true]
  rfl

theorem IsLowerableTo.lower_eq (h : IsLowerableTo d id c group child) :
    lower d id = lowered d id c group.attributes := by
  rw [lower, h.only]
  dsimp only
  rw [h.outer, h.inner]
  dsimp only
  rw [if_pos (List.all_eq_true.2 h.lowerable)]
  rfl

theorem IsLowerableTo.isCoherent_lowered (h : IsLowerableTo d id c group child)
    (hd : d.IsCoherent) : (lowered d id c group.attributes).IsCoherent ∧
      ∀ j name, (lowered d id c group.attributes).isNamed j name = d.isNamed j name := by
  have hlower :=
    isRegrouped_lower hd (Document.isNamed_iff.2 ⟨group, h.outer, h.named⟩)
  rw [h.lower_eq] at hlower
  exact ⟨hlower.1, hlower.2.named⟩

theorem IsLowerableTo.isAlternative_lowered (h : IsLowerableTo d id c group child)
    (hd : d.IsCoherent) (j : NodeId) :
    isAlternative (lowered d id c group.attributes) j = isAlternative d j := by
  simp only [isAlternative, (isRestyled_lowered d id c group.attributes).parent_eq,
    (h.isCoherent_lowered hd).2]

theorem IsLowerableTo.isCollapsible_lowered (h : IsLowerableTo d id c group child)
    (hd : d.IsCoherent) (j : NodeId) :
    IsCollapsible (lowered d id c group.attributes) j ↔ IsCollapsible d j := by
  have hnamed := (h.isCoherent_lowered hd).2 j "g"
  have hchildren := (isRestyled_lowered d id c group.attributes).children_eq j
  have halternative := h.isAlternative_lowered hd j
  exact ⟨fun ⟨hg, hfilled, hsingle⟩ => ⟨hnamed ▸ hg, hchildren ▸ hfilled, halternative ▸ hsingle⟩,
    fun ⟨hg, hfilled, hsingle⟩ =>
      ⟨hnamed.trans hg, hchildren.trans_ne hfilled, halternative.trans hsingle⟩⟩

/-- Visiting a group moves its attributes to its only child if all of them can stand there. -/
theorem collapseVisit_of_lowerable (hd : d.IsCoherent) (hcollapsible : IsCollapsible d id)
    (h : IsLowerableTo d id c group child) :
    (collapseVisit d id).1 = (lowered d id c group.attributes).unwrap id := by
  rw [collapseVisit_of hcollapsible, h.lower_eq, if_pos (h.isBare_lowered hd.isForest)]

/-- A visit changes nothing, or a group gives way to its children, after its only child got
its attributes if it had any. -/
theorem collapseVisit_cases (hd : d.IsCoherent) (id : NodeId) :
    (collapseVisit d id).1 = d ∨ IsCollapsible d id ∧
      (((d.element? id).any (·.attributes.isEmpty) = true ∧ (collapseVisit d id).1 = d.unwrap id) ∨
        ∃ c group child, IsLowerableTo d id c group child ∧ group.attributes ≠ [] ∧
          (collapseVisit d id).1 = (lowered d id c group.attributes).unwrap id) := by
  by_cases h : IsCollapsible d id
  · by_cases hbare : (d.element? id).any (·.attributes.isEmpty) = true
    · exact .inr ⟨h, .inl ⟨hbare, collapseVisit_of_bare hd h hbare⟩⟩
    · rcases lower_cases h.named with hsame | ⟨c, group, child, hlowerable, -⟩
      · rw [collapseVisit_of h, hsame, if_neg hbare]
        exact .inl rfl
      · refine .inr ⟨h, .inr ⟨c, group, child, hlowerable, fun hnil => hbare ?_,
          collapseVisit_of_lowerable hd h hlowerable⟩⟩
        rw [hlowerable.outer, Option.any_some, hnil]
        rfl
  · rw [collapseVisit_of_not h]
    exact .inl rfl

/-! ## Regions -/

/-- Whether a set of nodes holds all children of its nodes, and those at its top hang in one
node. -/
structure IsRegion (R : NodeId → Prop) (x : NodeId) (d : Document) : Prop where
  closed : ∀ y c, R y → d.parent c = some y → R c
  hung : ∀ y p, R y → d.parent y = some p → R p ∨ p = x

/-- Whether a document differs from another inside a region only, and in the list of children
that the region hangs in. -/
structure IsBeside (R : NodeId → Prop) (x : NodeId) (s t : Document) : Prop where
  isCoherent : t.IsCoherent
  isRegion : IsRegion R x t
  size_eq : t.size = s.size
  parent_eq : ∀ y, ¬ R y → t.parent y = s.parent y
  element?_eq : ∀ y, ¬ R y → t.element? y = s.element? y
  children_eq : ∀ y, ¬ R y → y ≠ x → t.children y = s.children y

section Regions

variable {R : NodeId → Prop} {x : NodeId}

theorem IsBeside.refl (hs : s.IsCoherent) (h : IsRegion R x s) : IsBeside R x s s :=
  ⟨hs, h, rfl, fun _ _ => rfl, fun _ _ => rfl, fun _ _ _ => rfl⟩

/-- The branch at a node hangs in its parent. -/
theorem isRegion_subtree (hd : d.IsForest) (hp : d.parent c = some p) :
    IsRegion (· ∈ d.subtree c) p d := by
  refine ⟨fun y c' hy hc' => hd.mem_subtree_iff_parent.2 (.inr ⟨y, hc', hy⟩), fun y q hy hq => ?_⟩
  rcases hd.mem_subtree_iff_parent.1 hy with rfl | ⟨q', hq', hmem⟩
  · exact .inr (Option.some.inj (hq.symm.trans hp))
  · obtain rfl := Option.some.inj (hq.symm.trans hq')
    exact .inl hmem

/-- What is below a node hangs in it. -/
theorem isRegion_below (d : Document) (id : NodeId) : IsRegion (d.IsAbove id) id d := by
  refine ⟨fun y c hy hc => hy.tail hc, fun y p hy hp => ?_⟩
  exact ((Document.isAbove_iff_of_parent hp).1 hy).symm.imp_right Eq.symm

theorem IsBeside.lower (h : IsBeside R x s t) (hid : R id)
    (hlowerable : IsLowerableTo t id c group child) :
    IsBeside R x s (lowered t id c group.attributes) := by
  have hforest := h.isCoherent.isForest
  have hshape := isRestyled_lowered t id c group.attributes
  have hc : R c := h.isRegion.closed id c hid ((hlowerable.parent_iff hforest c).2 rfl)
  refine ⟨(hlowerable.isCoherent_lowered h.isCoherent).1,
    ⟨fun y c hy hp => ?_, fun y p hy hp => ?_⟩, hshape.size_eq.trans h.size_eq,
    fun y hy => ?_, fun y hy => ?_, fun y hy hyx => ?_⟩
  · exact h.isRegion.closed y c hy ((hshape.parent_eq c).symm.trans hp)
  · exact h.isRegion.hung y p hy ((hshape.parent_eq y).symm.trans hp)
  · rw [hshape.parent_eq, h.parent_eq y hy]
  · have hne : y ≠ id ∧ y ≠ c := ⟨fun heq => hy (heq ▸ hid), fun heq => hy (heq ▸ hc)⟩
    rw [hlowerable.element?_lowered hforest, if_neg hne.1, if_neg hne.2, h.element?_eq y hy]
  · rw [hshape.children_eq, h.children_eq y hy hyx]

theorem IsBeside.unwrap (h : IsBeside R x s t) (hid : R id) (hp : t.parent id = some p)
    (hg : t.isNamed id "g" = true)
    (hbare : (t.element? id).any (·.attributes.isEmpty) = true) :
    IsBeside R x s (t.unwrap id) := by
  have hforest := h.isCoherent.isForest
  have hparent := hforest.parent_unwrap hp
  have hpR := h.isRegion.hung id p hid hp
  refine ⟨(isRegrouped_unwrap h.isCoherent hg hbare).1, ⟨fun y c hy hc => ?_, fun y q hy hq => ?_⟩,
    (Document.size_unwrap t id).trans h.size_eq, fun y hy => ?_, fun y hy => ?_,
    fun y hy hyx => ?_⟩
  · rw [hparent] at hc
    split at hc
    · next hcid => exact h.isRegion.closed id c hid hcid
    · split at hc
      · cases hc
      · exact h.isRegion.closed y c hy hc
  · rw [hparent] at hq
    split at hq
    · exact Option.some.inj hq ▸ hpR
    · split at hq
      · cases hq
      · exact h.isRegion.hung y q hy hq
  · have hne : y ≠ id := fun heq => hy (heq ▸ hid)
    rw [hparent, if_neg fun hyid => hy (h.isRegion.closed id y hid hyid), if_neg hne,
      h.parent_eq y hy]
  · rw [Document.element?_unwrap, h.element?_eq y hy]
  · have hne : y ≠ id := fun heq => hy (heq ▸ hid)
    have hnep : y ≠ p := by
      rintro rfl
      exact hpR.elim hy hyx
    obtain ⟨front, back, -, hchildren⟩ := hforest.children_unwrap hp
    rw [hchildren, if_neg hnep, if_neg hne, h.children_eq y hy hyx]

/-- A walk in a region is not seen outside it. -/
theorem keepsWithin_collapseVisit (R : NodeId → Prop) (x : NodeId) (s : Document) :
    collapseVisit.KeepsWithin R (IsBeside R x s) := by
  refine ⟨fun t id p ht hid hp => ?_, collapseVisit_keep, fun t id c ht hid hc => ?_⟩
  · rcases collapseVisit_cases ht.isCoherent id with hsame | ⟨h, ⟨hbare, hvisit⟩ |
      ⟨c, group, child, hlowerable, -, hvisit⟩⟩
    · rw [hsame]
      exact ht
    · rw [hvisit]
      exact ht.unwrap hid hp h.named hbare
    · rw [hvisit]
      have hshape := isRestyled_lowered t id c group.attributes
      refine (ht.lower hid hlowerable).unwrap hid ((hshape.parent_eq id).trans hp) ?_
        (hlowerable.isBare_lowered ht.isCoherent.isForest)
      rw [(hlowerable.isCoherent_lowered ht.isCoherent).2, h.named]
  · exact ht.isRegion.closed id c hid ((ht.isCoherent.isForest.mem_children_iff id c).1 hc)

end Regions

end Pass
end SvgCompact
