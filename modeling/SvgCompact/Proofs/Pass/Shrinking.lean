import SvgCompact.Proofs.Markup.Size
import SvgCompact.Proofs.Pass.Collapsing
import SvgCompact.Proofs.Pass.Spelling

/-!
Most passes never make markup longer.

A walk does not if its visits do not, since what it drops is no longer printed.  Of the
passes of this library three are left out, each of which can make markup longer: one writes
style sheets anew, one copies declarations from sheets to elements, and one writes path data
that was joined.
-/

namespace SvgCompact

open Document (Edits IsRestyled)
open Markup (PrintOptions attributeSize attributeSize_eq escapedSize escapedSize_append)

/-! ## Walks -/

/-- Whether visits leave no document longer than it was. -/
def Visit.NeverGrows (options : PrintOptions) (visit : Visit) : Prop :=
  ∀ d id, d.IsSound (fun _ => True) → (visit d id).1.markupSize options ≤ d.markupSize options

/-- Whether a pass leaves no document longer than it was, at once or with each visit of its
walk. -/
def Pass.NeverGrows (options : PrintOptions) : Pass → Prop
  | whole f => ∀ d, d.IsSound (fun _ => True) → (f d).markupSize options ≤ d.markupSize options
  | topDown visit => visit.NeverGrows options
  | bottomUp visit => visit.NeverGrows options

section Walks

variable {options : PrintOptions} {visit : Visit} {drops : Element → Prop} {n : Nat}

theorem Visit.NeverGrows.keeps (h : visit.NeverGrows options)
    (hedits : visit.IsEditing (fun _ => True) drops) :
    visit.Keeps fun d => d.IsSound (fun _ => True) ∧ d.markupSize options ≤ n where
  kept d id _ hd _ := ⟨(hedits.edits d id hd.1).isSound hd.1, (h d id hd.1).trans hd.2⟩
  dropped d id _ hd _ hv := by
    refine ⟨(hedits.edits_drop hd.1 hv).isSound hd.1, ?_⟩
    have hforest := ((hedits.edits d id hd.1).isSound hd.1).isForest
    exact ((Document.markupSize_detach_le hforest id).trans (h d id hd.1)).trans hd.2

theorem Pass.NeverGrows.markupSize_run_le {pass : Pass} (h : pass.NeverGrows options)
    (hstepwise : pass.IsStepwise (fun _ => True) drops) {d : Document}
    (hd : d.IsSound fun _ => True) : (pass.run d).markupSize options ≤ d.markupSize options := by
  cases pass with
  | whole f => exact h d hd
  | topDown visit =>
    exact ((Visit.NeverGrows.keeps h hstepwise).topDown ⟨hd, Nat.le_refl _⟩).2
  | bottomUp visit =>
    exact ((Visit.NeverGrows.keeps h hstepwise).bottomUp ⟨hd, Nat.le_refl _⟩).2

theorem Visit.neverGrows_dropping (p : Content → Bool) : (Visit.dropping p).NeverGrows options :=
  fun _ _ _ => Nat.le_refl _

theorem Visit.neverGrows_rewriting {f : Element → Element}
    (hf : ∀ e : Element, e.IsNoLonger (f e)) :
    (Visit.rewriting f).NeverGrows options :=
  fun _ _ hd => Document.markupSize_updateElement_le hd.isForest fun e _ => hf e

end Walks

namespace Pass

variable {options : PrintOptions}

/-! ## Removing -/

theorem neverGrows_removeMetadata : removeMetadata.NeverGrows options := by
  intro d id hd
  dsimp only
  split
  · split
    · exact Nat.le_refl _
    · exact Document.markupSize_updateElement_le hd.isForest fun e _ =>
        Element.isNoLonger_filterAttrs _ e
  · exact Nat.le_refl _

theorem neverGrows_removeDefaults : removeDefaults.NeverGrows options := by
  intro d id hd
  dsimp only
  split
  · exact Document.markupSize_updateElement_le hd.isForest fun e _ =>
      .foldl (fun e name => e.isNoLonger_removeAttr name) e
  · exact Nat.le_refl _

theorem neverGrows_removeHidden : removeHidden.NeverGrows options := by
  intro d id _
  dsimp only
  split
  · split <;> exact Nat.le_refl _
  · exact Nat.le_refl _

theorem neverGrows_removeEmptyContainers : removeEmptyContainers.NeverGrows options := by
  intro d id _
  dsimp only
  split
  · split <;> exact Nat.le_refl _
  · exact Nat.le_refl _

theorem neverGrows_removeUnusedNamespaces : removeUnusedNamespaces.NeverGrows options := by
  intro d hd
  refine (List.foldlRecOn
    (motive := fun d' : Document => d'.IsForest ∧ d'.markupSize options ≤ d.markupSize options)
    _ _ ⟨hd.isForest, Nat.le_refl _⟩ fun d' hd' id _ => ?_).2
  have hrestyled := IsRestyled.updateElement d' id
  refine ⟨hd'.1.of_links (hrestyled _).parent_eq (hrestyled _).children_eq, ?_⟩
  exact (Document.markupSize_updateElement_le hd'.1 fun e _ =>
    Element.isNoLonger_filterAttrs _ e).trans hd'.2

theorem neverGrows_removeXmlns : removeXmlns.NeverGrows options := by
  refine Visit.neverGrows_rewriting fun e => ?_
  split
  · exact e.isNoLonger_removeAttr _
  · exact .refl e

theorem neverGrows_sortDefs : sortDefs.NeverGrows options := by
  intro d id hd
  dsimp only
  split
  · exact Document.markupSize_setChildren_le hd.isForest (List.mergeSort_perm ..)
  · exact Nat.le_refl _

/-! ## Moving attributes -/

section Putting

variable {join : String → String → String}
  (hjoin : ∀ s t, escapedSize (join s t).toList ≤ escapedSize s.toList + escapedSize t.toList + 1)
include hjoin

theorem attributesSize_putJoined_le (e : Element) (a : Attribute) :
    (putJoined join e a).attributesSize ≤ e.attributesSize + attributeSize a := by
  rw [putJoined_eq, joinedValue]
  split
  · next hname =>
    cases hheld : e.attr? "transform" with
    | none => exact Element.attributesSize_put_le e a
    | some held =>
      have hsize := Element.attributesSize_put_of_attr? QName.read_transform hheld
        (join a.value held)
      have hle := hjoin a.value held
      rw [hname, Option.map_some, Option.getD_some, attributeSize_eq]
      omega
  · exact Element.attributesSize_put_le e a

variable (join) in
theorem attributesSize_foldl_putJoined_le (moved : List Attribute) (e : Element) :
    (moved.foldl (putJoined join) e).attributesSize ≤
      e.attributesSize + (moved.map attributeSize).sum := by
  induction moved generalizing e with
  | nil => exact Nat.le_refl _
  | cons a rest ih =>
    have hput := attributesSize_putJoined_le hjoin e a
    have hrest := ih (putJoined join e a)
    rw [List.foldl_cons, List.map_cons, List.sum_cons]
    omega

omit hjoin in
theorem name_foldl_putJoined (moved : List Attribute) (e : Element) :
    (moved.foldl (putJoined join) e).name = e.name :=
  List.foldlRecOn (motive := fun e' : Element => e'.name = e.name) moved _ rfl fun e' he' a _ => by
    rw [putJoined_eq, Element.name_put, he']

end Putting

theorem escapedSize_spaced (s t : String) :
    escapedSize (s ++ " " ++ t).toList = escapedSize s.toList + escapedSize t.toList + 1 := by
  have hblank : escapedSize " ".toList = 1 := by decide
  rw [String.toList_append, String.toList_append, escapedSize_append, escapedSize_append, hblank]
  omega

/-- Attributes that are taken away make an element shorter by their lengths. -/
theorem attributesSize_filterAttrs_le {e : Element} {moved : List Attribute}
    (hmoved : ∀ a ∈ moved, a ∈ e.attributes) (hnodup : (moved.map (·.name)).Nodup) :
    (e.filterAttrs fun a => !(moved.map (·.name)).contains a.name).attributesSize +
      (moved.map attributeSize).sum ≤ e.attributesSize := by
  have htaken : (moved.map attributeSize).sum ≤ ((e.attributes.filter fun a =>
      !!(moved.map (·.name)).contains a.name).map attributeSize).sum := by
    refine sum_map_le_of_subset (List.Nodup.of_map _ hnodup) (fun a ha => ?_)
      fun _ _ => Nat.le_refl _
    refine List.mem_filter.2 ⟨hmoved a ha, ?_⟩
    rw [Bool.not_not]
    exact List.contains_iff_mem.2 (List.mem_map_of_mem ha)
  have hparts := ((List.filter_append_perm
    (fun a => !(moved.map (·.name)).contains a.name) e.attributes).map attributeSize).sum_eq
  rw [List.map_append, List.sum_append] at hparts
  show ((e.attributes.filter _).map attributeSize).sum + _ ≤ (e.attributes.map attributeSize).sum
  omega

/-- What a group gains each of its children loses. -/
theorem IsHoistable.markupSize_hoist_le {d : Document} {id : NodeId} {group : Element}
    {moved : List Attribute} (h : IsHoistable d id group moved) (hd : d.IsRooted)
    (hfilled : d.children id ≠ []) :
    (hoist d id moved).markupSize options ≤ d.markupSize options := by
  obtain ⟨c, hc⟩ := List.exists_mem_of_ne_nil _ hfilled
  rw [hd.isForest.mem_children_iff] at hc
  obtain ⟨child, hchild, hshared⟩ := h.shared c hc
  have hne : c ≠ id := fun heq => hd.isForest.parent_ne_self id (heq ▸ hc)
  have helement := h.element?_hoist hd.isForest
  have hgroup' := helement id
  have hchild' := helement c
  rw [if_pos rfl] at hgroup'
  rw [if_neg hne, if_pos hc, hchild, Option.map_some] at hchild'
  refine (isRestyled_hoist d id moved).markupSize_le hd hc h.element hgroup'
    (name_foldl_putJoined moved group) hchild hchild' rfl ?_ fun j hj _ e he => ?_
  · have hgain := attributesSize_foldl_putJoined_le (fun own outer => outer ++ " " ++ own)
      (fun s t => (escapedSize_spaced t s).le.trans (by omega)) moved group
    have hloss := attributesSize_filterAttrs_le hshared h.nodup
    omega
  · rw [helement, if_neg hj, he]
    split
    · exact ⟨_, rfl, Element.isNoLonger_filterAttrs _ e⟩
    · exact ⟨e, rfl, .refl e⟩

theorem hoistedFrom_of_childless {d : Document} {id : NodeId} (h : d.children id = []) :
    hoistedFrom d id = [] := by
  rw [hoistedFrom, plainElements?, h]
  cases d.element? id <;> simp

theorem neverGrows_moveSharedToGroup : moveSharedToGroup.NeverGrows options := by
  intro d id hd
  cases hmoved : hoistedFrom d id with
  | nil =>
    dsimp only
    rw [hmoved]
  | cons a rest =>
    obtain ⟨group, h⟩ := isHoistable_hoistedFrom hd id (by simp [hmoved])
    have hfilled : d.children id ≠ [] := by
      intro hnil
      rw [hoistedFrom_of_childless hnil] at hmoved
      cases hmoved
    rw [hmoved] at h
    dsimp only
    rw [hmoved]
    exact h.markupSize_hoist_le hd.toIsRooted hfilled

/-- What the child gains its group loses. -/
theorem IsLowerableTo.markupSize_lowered_le {d : Document} {id c : NodeId} {group child : Element}
    (h : IsLowerableTo d id c group child) (hd : d.IsRooted) :
    (lowered d id c group.attributes).markupSize options ≤ d.markupSize options := by
  have hc := (h.parent_iff hd.isForest c).2 rfl
  have hne : c ≠ id := fun heq => hd.isForest.parent_ne_self id (heq ▸ hc)
  have helement := h.element?_lowered hd.isForest
  have hgroup' := helement id
  have hchild' := helement c
  rw [if_pos rfl] at hgroup'
  rw [if_neg hne, if_pos rfl] at hchild'
  refine (isRestyled_lowered d id c group.attributes).markupSize_le hd hc h.outer hgroup' rfl
    h.inner hchild' (name_foldl_putJoined _ _) ?_ fun j hj hjc e he => ?_
  · have hgain := attributesSize_foldl_putJoined_le (fun outer own => outer ++ " " ++ own)
      (fun s t => (escapedSize_spaced s t).le) group.attributes child
    have hbare : (group.filterAttrs fun _ => false).attributesSize = 0 := by
      simp [Element.attributesSize, Element.filterAttrs]
    have hgroup : group.attributesSize = (group.attributes.map attributeSize).sum := rfl
    omega
  · rw [helement, if_neg hj, if_neg hjc]
    exact ⟨e, he, .refl e⟩

theorem neverGrows_collapseGroups : collapseGroups.NeverGrows options := by
  intro d id hd
  show (collapseVisit d id).1.markupSize options ≤ _
  by_cases h : IsCollapsible d id
  · have hlower : (lower d id).markupSize options ≤ d.markupSize options := by
      rcases lower_cases h.named with hsame | ⟨c, group, child, hlowerable, hlowered⟩
      · rw [hsame]
      · rw [hlowered]
        exact hlowerable.markupSize_lowered_le hd.toIsRooted
    have hedits : Edits (fun _ => True) (fun _ => False) d (lower d id) := edits_lower hd id
    have hsound := hedits.isSound hd
    rw [collapseVisit_of h]
    dsimp only
    split
    · exact (Document.markupSize_unwrap_le hsound.toIsRooted id).trans hlower
    · exact hlower
  · rw [collapseVisit_of_not h]

end Pass
end SvgCompact
