import SvgCompact.Proofs.Document.Cutting
import SvgCompact.Proofs.Element.Size
import SvgCompact.Proofs.Markup.Replanting

/-!
How long compact markup is.

Compact markup is as long as what the nodes of the document contribute to it, each for
itself.  So a document that loses nodes or whose nodes contribute less prints shorter,
whatever the order is in which they stand.
-/

namespace SvgCompact

open Text (byteSize)

/-! ## Nodes -/

namespace Element

/-- What a printed element is longer than its attributes. -/
def frameSize (options : Markup.PrintOptions) (e : Element) (empty : Bool) : Nat :=
  if empty && options.selfClose then byteSize e.name.full.toList + 3
  else 2 * byteSize e.name.full.toList + 5

theorem frameSize_le (options : Markup.PrintOptions) (e : Element) {empty empty' : Bool}
    (h : empty = true → empty' = true) :
    e.frameSize options empty' ≤ e.frameSize options empty := by
  rw [frameSize, frameSize]
  cases empty with
  | true => rw [h rfl]
  | false =>
    rw [Bool.false_and, if_neg Bool.false_ne_true]
    split <;> omega

end Element

namespace Markup

/-- Sorted or not, a head is as long as its name and its attributes. -/
theorem byteSize_printHead (options : PrintOptions) (e : Element) :
    byteSize (printHead options e) = byteSize e.name.full.toList + e.attributesSize := by
  have hsorted : (if options.sortAttrs then e.attributes.mergeSort attributePrecedes
      else e.attributes).Perm e.attributes := by
    split
    · exact List.mergeSort_perm ..
    · exact .refl _
  rw [printHead, Text.byteSize_append, Text.byteSize_flatMap]
  exact congrArg _ (hsorted.map _).sum_eq

/-- What a node contributes to compact markup, apart from what is below it. -/
def contentSize (options : PrintOptions) (c : Content) (empty : Bool) : Nat :=
  match c with
  | .element e => e.attributesSize + e.frameSize options empty
  | c => byteSize (printLeaf c)

theorem contentSize_of_not_isElement (options : PrintOptions) {c : Content}
    (hc : c.isElement = false) (empty : Bool) :
    contentSize options c empty = byteSize (printLeaf c) := by
  cases c with
  | element e => cases hc
  | _ => rfl

theorem contentSize_le (options : PrintOptions) (c : Content) {empty empty' : Bool}
    (h : empty = true → empty' = true) :
    contentSize options c empty' ≤ contentSize options c empty := by
  cases c with
  | element e => exact Nat.add_le_add_left (e.frameSize_le options h) _
  | _ => exact Nat.le_refl _

theorem byteSize_writeElement (options : PrintOptions) (e : Element) (empty : Bool)
    {inner : List Char} (hinner : empty = true → inner = []) :
    byteSize (Branches.writeElement options e empty inner) =
      contentSize options (.element e) empty + byteSize inner := by
  have hshort : byteSize ['<'] + byteSize ['/', '>'] = 3 := by decide
  have hlong : byteSize ['<'] + byteSize ['>'] + byteSize ['<', '/'] + byteSize ['>'] = 5 := by
    decide
  rw [Branches.writeElement, contentSize, Element.frameSize]
  split
  · next hempty =>
    rw [hinner (Bool.and_eq_true_iff.1 hempty).1, show '<' :: printHead options e ++ ['/', '>'] =
      ['<'] ++ printHead options e ++ ['/', '>'] by simp]
    simp only [Text.byteSize_append, byteSize_printHead]
    show _ = _ + 0
    omega
  · rw [show '<' :: printHead options e ++
        '>' :: (inner ++ ('<' :: '/' :: e.name.full.toList ++ ['>']))
      = ['<'] ++ printHead options e ++ ['>'] ++ inner ++ ['<', '/'] ++ e.name.full.toList ++ ['>']
      by simp]
    simp only [Text.byteSize_append, byteSize_printHead]
    omega

end Markup

namespace Branches

open Markup

/-- Compact markup of trees is as long as their nodes are together. -/
theorem byteSize_write (options : PrintOptions) {f : Branches}
    (h : f.Forall fun c below => c.isElement = false → below = .nil) :
    byteSize (f.write options) =
      (f.nodes.map fun x => contentSize options x.1 x.2.isNil).sum := by
  induction f with
  | nil => rfl
  | node c below rest ihBelow ihRest =>
    obtain ⟨hleaf, hbelow, hrest⟩ := h
    have hempty : below.isNil = true → below.write options = [] := by
      intro hnil
      cases below with
      | nil => rfl
      | node _ _ _ => cases hnil
    have hnode : byteSize (writeContent options below.isNil (below.write options) c) =
        contentSize options c below.isNil + byteSize (below.write options) := by
      cases hc : c.isElement with
      | true =>
        obtain ⟨e, he⟩ := Option.isSome_iff_exists.1 hc
        rw [Content.eq_element_of_element? he]
        exact byteSize_writeElement options e _ hempty
      | false =>
        rw [writeContent_of_not_isElement options _ _ hc, contentSize_of_not_isElement options hc,
          hleaf hc]
        rfl
    rw [write, Text.byteSize_append, hnode, ihBelow hbelow, ihRest hrest, nodes, List.map_cons,
      List.sum_cons, List.map_append, List.sum_append, Nat.add_assoc]

end Branches

/-! ## Documents -/

namespace Document

open Markup

variable {d d' : Document} {options : PrintOptions}

/-- What a node contributes to the markup of a document. -/
def nodeSize (options : PrintOptions) (d : Document) (id : NodeId) : Nat :=
  contentSize options (d.content id) (d.isEmpty id)

/-- Length of the compact markup of a document. -/
def markupSize (options : PrintOptions) (d : Document) : Nat :=
  ((d.subtree root).map (d.nodeSize options)).sum

theorem byteSize_print (hd : d.IsRooted) (hholds : d.HoldsInElements)
    (hcompact : options.pretty = false) :
    byteSize (print options d).toList = d.markupSize options := by
  have hprints : ∀ c ∈ d.children root, PrintsTree options d d.size 0 c := by
    intro c hc
    have hparent := (hd.isForest.mem_children_iff root c).1 hc
    refine printsTree hd options 0 hparent fun a ha => ?_
    refine hd.isForest.climb_size_succ_ne a root ?_
    rw [climb_succ, ha, Option.bind_some, hparent]
  have hleaves : (d.branches (d.children root)).Forall fun c below =>
      c.isElement = false → below = .nil :=
    forall_branches hd.isForest fun _ hid _ hj => branches_children_of_leaf hd hholds hid hj
  have hroot : d.nodeSize options root = 0 := by
    rw [nodeSize, hd.content_root]
    rfl
  rw [toList_print hcompact, flatten_map_printNode hd.isForest hprints,
    Branches.laidOut_of_compact hcompact, Branches.byteSize_write options hleaves,
    nodes_branches hd.isForest, markupSize, hd.isForest.subtree_eq root, List.map_cons,
    List.sum_cons, hroot, Nat.zero_add, List.map_map]
  refine congrArg List.sum (List.map_congr_left fun j _ => ?_)
  rw [Function.comp_apply, isNil_branches hd.isForest]
  rfl

/-! ## Steps -/

theorem isEmpty_eq_true_iff {id : NodeId} : d.isEmpty id = true ↔ d.children id = [] := by
  rw [isEmpty, List.isEmpty_iff]

/-- A document with fewer nodes, none of which contributes more, is no longer. -/
theorem markupSize_le (hd' : d'.IsForest)
    (hreached : ∀ id ∈ d'.subtree root, id ∈ d.subtree root)
    (hnode : ∀ id ∈ d'.subtree root, d'.nodeSize options id ≤ d.nodeSize options id) :
    d'.markupSize options ≤ d.markupSize options :=
  sum_map_le_of_subset (hd'.nodup_subtree root) hreached hnode

theorem mem_subtree_root_mono (hd : d.IsForest) (hd' : d'.IsForest)
    (hparent : ∀ c p, d'.parent c = some p → d.parent c = some p) :
    ∀ id ∈ d'.subtree root, id ∈ d.subtree root := by
  intro id hid
  rw [hd'.mem_subtree_iff] at hid
  rw [hd.mem_subtree_iff]
  exact hid.imp_right (.mono hparent)

theorem markupSize_detach_le (hd : d.IsForest) (id : NodeId) :
    (d.detach id).markupSize options ≤ d.markupSize options := by
  refine markupSize_le (hd.detach id) (mem_subtree_root_mono hd (hd.detach id) ?_) fun j _ => ?_
  · intro c p hp
    rw [parent_detach] at hp
    split at hp
    · cases hp
    · exact hp
  · rw [nodeSize, nodeSize, content_detach]
    refine contentSize_le options _ fun hempty => ?_
    rw [isEmpty_eq_true_iff] at hempty ⊢
    rw [hd.children_detach, hempty, List.filter_nil]

theorem markupSize_setChildren_le (hd : d.IsForest) {id : NodeId} {order : List NodeId}
    (horder : order.Perm (d.children id)) :
    (d.setChildren id order).markupSize options ≤ d.markupSize options := by
  have hd' := hd.setChildren_of_perm horder
  refine markupSize_le hd' (mem_subtree_root_mono hd hd' fun c p hp => ?_) fun j _ => ?_
  · rwa [parent_setChildren] at hp
  · rw [nodeSize, nodeSize, content_setChildren]
    refine contentSize_le options _ fun hempty => ?_
    rw [isEmpty_eq_true_iff] at hempty ⊢
    rw [children_setChildren]
    split
    · next hj =>
      rw [hj.1] at hempty
      rw [hempty] at horder
      exact horder.eq_nil
    · exact hempty

theorem markupSize_updateElement_le (hd : d.IsForest) {id : NodeId} {f : Element → Element}
    (hf : ∀ e, d.element? id = some e → e.IsNoLonger (f e)) :
    (d.updateElement id f).markupSize options ≤ d.markupSize options := by
  have hd' : (d.updateElement id f).IsForest :=
    hd.of_links (parent_updateElement d id · f) (children_updateElement d id · f)
  refine markupSize_le hd' (mem_subtree_root_mono hd hd' fun c p hp => ?_) fun j _ => ?_
  · rwa [parent_updateElement] at hp
  · rw [nodeSize, nodeSize, isEmpty, isEmpty, children_updateElement, content_updateElement]
    split
    · next hj =>
      subst hj
      cases he : d.element? j with
      | none => rw [Content.mapElement_of_element?_none f he]
      | some e =>
        rw [Content.eq_element_of_element? he]
        show (f e).attributesSize + (f e).frameSize options _ ≤ _
        rw [Element.frameSize, (hf e he).name]
        exact Nat.add_le_add_right (hf e he).size _
    · exact Nat.le_refl _

theorem markupSize_unwrap_le_of_parent (hd : d.IsRooted) {id p : NodeId}
    (hp : d.parent id = some p) : (d.unwrap id).markupSize options ≤ d.markupSize options := by
  have hforest := hd.isForest
  have hd' := hforest.unwrap id
  obtain ⟨front, back, hfamily, hchildren⟩ := hforest.children_unwrap hp
  refine markupSize_le hd' (fun j hj => ?_) fun j _ => ?_
  · by_cases heq : j = id
    · subst heq
      have hnone : (d.unwrap j).parent j = none := by
        rw [hforest.parent_unwrap hp, if_neg (hforest.parent_ne_self j), if_pos rfl]
      rw [hd'.mem_subtree_iff] at hj
      rcases hj with rfl | habove
      · exact (hforest.mem_subtree_iff).2 (.inl rfl)
      · exact absurd habove (not_isAbove_of_parent_none hnone)
    · exact (hd.mem_subtree_unwrap_iff heq).1 hj
  · rw [nodeSize, nodeSize, content_unwrap]
    refine contentSize_le options _ fun hempty => ?_
    rw [isEmpty_eq_true_iff] at hempty ⊢
    rw [hchildren]
    split
    · next hj =>
      rw [hj, hfamily] at hempty
      cases List.append_eq_nil_iff.1 hempty |>.2
    · split
      · rfl
      · exact hempty

theorem markupSize_unwrap_le (hd : d.IsRooted) (id : NodeId) :
    (d.unwrap id).markupSize options ≤ d.markupSize options := by
  cases hp : d.parent id with
  | none => rw [unwrap_of_parent_none hp]
  | some p => exact markupSize_unwrap_le_of_parent hd hp

/-! ## Attributes that move -/

theorem nodeSize_of_element? {id : NodeId} {e : Element} (he : d.element? id = some e) :
    d.nodeSize options id = e.attributesSize + e.frameSize options (d.isEmpty id) := by
  rw [nodeSize, Content.eq_element_of_element? he]
  rfl

theorem IsRestyled.nodeSize_le (h : d.IsRestyled d') {id : NodeId}
    (he : ∀ e, d.element? id = some e → ∃ e', d'.element? id = some e' ∧ e.IsNoLonger e') :
    d'.nodeSize options id ≤ d.nodeSize options id := by
  rcases h.alike id with heq | ⟨-, helement⟩
  · rw [nodeSize, nodeSize, heq, isEmpty, h.children_eq, isEmpty]
  · obtain ⟨e, hcontent⟩ := Option.isSome_iff_exists.1 helement
    obtain ⟨e', hcontent', hsize⟩ := he e hcontent
    rw [nodeSize_of_element? hcontent, nodeSize_of_element? hcontent', isEmpty, h.children_eq,
      isEmpty, Element.frameSize, hsize.name]
    exact Nat.add_le_add_right hsize.size _

/-- A node may gain what a child of it loses. -/
theorem IsRestyled.markupSize_le (h : d.IsRestyled d') (hrooted : d.IsRooted) {id c : NodeId}
    (hc : d.parent c = some id) {e e' child child' : Element} (he : d.element? id = some e)
    (he' : d'.element? id = some e') (hname : e'.name = e.name) (hchild : d.element? c = some child)
    (hchild' : d'.element? c = some child') (hchildName : child'.name = child.name)
    (hpair : e'.attributesSize + child'.attributesSize ≤ e.attributesSize + child.attributesSize)
    (hothers : ∀ j, j ≠ id → j ≠ c → ∀ e, d.element? j = some e →
      ∃ e', d'.element? j = some e' ∧ e.IsNoLonger e') :
    d'.markupSize options ≤ d.markupSize options := by
  have hd := hrooted.isForest
  have hd' : d'.IsForest := hd.of_links h.parent_eq h.children_eq
  have hsame : d'.markupSize options ≤ ((d.subtree root).map (d'.nodeSize options)).sum := by
    refine sum_map_le_of_subset (hd'.nodup_subtree root) ?_ fun _ _ => Nat.le_refl _
    exact mem_subtree_root_mono hd hd' fun c p hp => (h.parent_eq c).symm.trans hp
  refine hsame.trans ?_
  have hreached : c ∈ d.subtree root ↔ id ∈ d.subtree root := by
    rw [hd.mem_subtree_iff_parent]
    constructor
    · rintro (rfl | ⟨p, hp, hreached⟩)
      · rw [hrooted.parent_root] at hc
        cases hc
      · obtain rfl := Option.some.inj (hp.symm.trans hc)
        exact hreached
    · exact fun hid => .inr ⟨id, hc, hid⟩
  have hle : ∀ j ∈ d.subtree root, j ≠ id → j ≠ c →
      d'.nodeSize options j ≤ d.nodeSize options j :=
    fun j _ hid hc => h.nodeSize_le (hothers j hid hc)
  by_cases hid : id ∈ d.subtree root
  · refine sum_map_le_of_exchange (hd.nodup_subtree root) hid (hreached.2 hid) ?_ ?_ hle
    · rintro rfl
      exact hd.parent_ne_self id hc
    · rw [nodeSize_of_element? he, nodeSize_of_element? he', nodeSize_of_element? hchild,
        nodeSize_of_element? hchild', isEmpty, h.children_eq, isEmpty, isEmpty, h.children_eq,
        isEmpty, Element.frameSize, Element.frameSize, hname, hchildName]
      simp only [Element.frameSize]
      omega
  · refine List.sum_le_sum fun j hj => hle j hj ?_ ?_
    · rintro rfl
      exact hid hj
    · rintro rfl
      exact hid (hreached.1 hj)

end Document
end SvgCompact
