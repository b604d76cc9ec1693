import Mathlib.Data.List.Perm.Basic
import SvgCompact.Proofs.Document.Branches
import SvgCompact.Proofs.Document.Lineage

/-!
Documents that lose links.

A node can be reached from the root as long as no link on its way up is lost.  What is lost
below a node does not touch the way up from it.

Nodes that are judged by their content take the nodes below them along when they are
unlinked.  So it makes no difference whether these are judged as well: two lists of unlinked
nodes leave the same tree if they agree on the nodes above which nothing is unlinked.
-/

namespace SvgCompact
namespace Document

variable {d e e' e'' : Document} {a b j p q : NodeId}

/-- Whether two documents are linked in the same way. -/
structure SharesLinks (d e : Document) : Prop where
  parent_eq : ∀ j, e.parent j = d.parent j
  children_eq : ∀ j, e.children j = d.children j

/-- Whether a document is another one with some links lost. -/
structure LosesLinks (d e : Document) : Prop where
  isForest : e.IsForest
  sublist_children : ∀ p, (e.children p).Sublist (d.children p)

theorem SharesLinks.refl (d : Document) : d.SharesLinks d :=
  ⟨fun _ => rfl, fun _ => rfl⟩

theorem LosesLinks.refl (hd : d.IsForest) : d.LosesLinks d :=
  ⟨hd, fun _ => List.Sublist.refl _⟩

theorem LosesLinks.trans (h : d.LosesLinks e) (h' : e.LosesLinks e') : d.LosesLinks e' :=
  ⟨h'.isForest, fun p => (h'.sublist_children p).trans (h.sublist_children p)⟩

theorem SharesLinks.losesLinks (h : d.SharesLinks e) (hd : d.IsForest) : d.LosesLinks e :=
  ⟨hd.of_links h.parent_eq h.children_eq, fun p => by rw [h.children_eq]⟩

theorem losesLinks_detach (hd : d.IsForest) (id : NodeId) : d.LosesLinks (d.detach id) :=
  ⟨hd.detach id, fun p => by rw [hd.children_detach]; exact List.filter_sublist⟩

namespace LosesLinks

variable (h : d.LosesLinks e) (hd : d.IsForest)
include h hd

theorem parent_of_some (hj : e.parent j = some p) : d.parent j = some p := by
  rw [← h.isForest.mem_children_iff] at hj
  exact (hd.mem_children_iff p j).1 ((h.sublist_children p).subset hj)

theorem parent_eq_none (hj : d.parent j = none) : e.parent j = none := by
  rw [Option.eq_none_iff_forall_ne_some]
  intro p hp
  rw [h.parent_of_some hd hp] at hj
  cases hj

theorem parent_cases (j : NodeId) : e.parent j = d.parent j ∨ e.parent j = none := by
  cases hj : e.parent j with
  | none => exact .inr rfl
  | some p => exact .inl (h.parent_of_some hd hj).symm

theorem isAbove (ha : e.IsAbove a j) : d.IsAbove a j :=
  ha.mono fun _ _ hp => h.parent_of_some hd hp

theorem mem_subtree (hj : j ∈ e.subtree b) : j ∈ d.subtree b := by
  rw [h.isForest.mem_subtree_iff] at hj
  exact hd.mem_subtree_iff.2 (hj.imp_right (h.isAbove hd))

/-- A node is reached if it was, and no link on its way up to the root is lost. -/
theorem mem_subtree_root_iff : j ∈ e.subtree root ↔ j ∈ d.subtree root ∧
    ∀ a, a = j ∨ d.IsAbove a j → d.IsAbove root a → e.parent a ≠ none := by
  induction j using hd.downward with
  | step j ih =>
    rw [h.isForest.mem_subtree_iff_parent, hd.mem_subtree_iff_parent]
    constructor
    · rintro (rfl | ⟨p, hp, hup⟩)
      · refine ⟨.inl rfl, fun a ha hroot => absurd ?_ (hd.not_above_self root)⟩
        rcases ha with rfl | ha
        · exact hroot
        · exact hroot.trans ha
      · have hold := h.parent_of_some hd hp
        obtain ⟨hreached, hway⟩ := (ih p hold).1 hup
        refine ⟨.inr ⟨p, hold, hreached⟩, fun a ha hroot => ?_⟩
        rcases ha with rfl | ha
        · rw [hp]
          exact Option.some_ne_none p
        · exact hway a ((isAbove_iff_of_parent hold).1 ha) hroot
    · rintro ⟨rfl | ⟨p, hp, hreached⟩, hway⟩
      · exact .inl rfl
      · have hroot : d.IsAbove root j :=
          (isAbove_iff_of_parent hp).2 ((hd.mem_subtree_iff.1 hreached).imp_left Eq.symm)
        obtain ⟨q, hq⟩ := Option.ne_none_iff_exists'.1 (hway j (.inl rfl) hroot)
        obtain rfl : q = p := Option.some.inj ((h.parent_of_some hd hq).symm.trans hp)
        refine .inr ⟨q, hq, (ih q hp).2 ⟨hreached, fun a ha => hway a (.inr ?_)⟩⟩
        exact (isAbove_iff_of_parent hp).2 ha

end LosesLinks

/-! ## What is lost below a node -/

/-- Whether only links below a node are lost, where `start` says what is below it. -/
structure LosesBelow (start : Document) (q : NodeId) (e e' : Document) : Prop
    extends e.LosesLinks e' where
  parent_eq : ∀ j, ¬ start.IsAbove q j → e'.parent j = e.parent j

namespace LosesBelow

variable {start : Document}

theorem refl (start : Document) (q : NodeId) (he : e.IsForest) : start.LosesBelow q e e :=
  ⟨.refl he, fun _ _ => rfl⟩

theorem trans (h : start.LosesBelow q e e') (h' : start.LosesBelow q e' e'') :
    start.LosesBelow q e e'' :=
  ⟨h.toLosesLinks.trans h'.toLosesLinks,
    fun j hj => (h'.parent_eq j hj).trans (h.parent_eq j hj)⟩

theorem of_child (h : start.LosesBelow b e e') (hb : start.parent b = some q) :
    start.LosesBelow q e e' :=
  ⟨h.toLosesLinks, fun j hj => h.parent_eq j fun habove => hj ((isAbove_of_parent hb).trans habove)⟩

/-- The way up from the node itself stays. -/
theorem mem_subtree_root (h : start.LosesBelow q e e') (hstart : start.IsForest)
    (he : start.LosesLinks e) (hq : q ∈ e.subtree root) : q ∈ e'.subtree root := by
  rw [h.mem_subtree_root_iff he.isForest]
  refine ⟨hq, fun a ha hroot => ?_⟩
  have hnot : ¬ start.IsAbove q a := by
    intro habove
    rcases ha with rfl | ha
    · exact hstart.not_above_self a habove
    · exact hstart.not_above_self q (habove.trans (he.isAbove hstart ha))
  rw [h.parent_eq a hnot]
  obtain ⟨p, -, hp⟩ := Relation.TransGen.tail'_iff.1 hroot
  rw [hp]
  exact Option.some_ne_none p

end LosesBelow

/-! ## Next siblings -/

/-- A next sibling comes right behind a node. -/
theorem IsForest.children_of_nextSibling? (h : d.IsForest) (hj : d.parent j = some p)
    (hb : d.nextSibling? j = some b) :
    ∃ front back, d.children p = front ++ j :: b :: back := by
  obtain ⟨front, back, hs, hi⟩ := h.indexInParent?_eq_some hj
  rw [nextSibling?, hi, Option.bind_some, siblings, hj] at hb
  dsimp only at hb
  rw [hs, List.getElem?_append_right (Nat.le_succ _), Nat.succ_sub (Nat.le_refl _),
    Nat.sub_self] at hb
  cases back with
  | nil => cases hb
  | cons x back =>
    obtain rfl := Option.some.inj hb
    exact ⟨front, back, hs⟩

theorem IsForest.parent_of_nextSibling? (h : d.IsForest) (hj : d.parent j = some p)
    (hb : d.nextSibling? j = some b) : d.parent b = some p ∧ b ≠ j := by
  obtain ⟨front, back, hs⟩ := h.children_of_nextSibling? hj hb
  refine ⟨(h.mem_children_iff p b).1 (by rw [hs]; simp), ?_⟩
  rintro rfl
  have hnodup := h.nodup_children p
  rw [hs, List.nodup_append] at hnodup
  simp at hnodup

end Document

/-! ## Trees without what is dropped -/

/-- The trees without the nodes that are dropped, and without what is below them. -/
def Branches.pruned (away : Content → Bool) : Branches → Branches
  | nil => nil
  | node c below rest =>
    if away c then rest.pruned away else node c (below.pruned away) (rest.pruned away)

namespace Document

variable {d : Document}

/-! ## Post-order -/

def postorderWithin (d : Document) : Nat → NodeId → List NodeId
  | 0, id => [id]
  | bound + 1, id => (d.children id).flatMap (postorderWithin d bound) ++ [id]

/-- A node after all nodes below it, which come child by child. -/
def postorder (d : Document) (id : NodeId) : List NodeId :=
  d.postorderWithin d.size id

namespace IsForest

variable (h : d.IsForest)
include h

theorem postorderWithin_succ {n : Nat} {id : NodeId} (hn : ∀ a, d.climb (n + 1) a ≠ some id) :
    d.postorderWithin (n + 1) id = d.postorderWithin n id := by
  induction n generalizing id with
  | zero =>
    have hnil : d.children id = [] := by
      refine List.eq_nil_iff_forall_not_mem.2 fun c hc => hn c ?_
      rw [climb_one, (h.mem_children_iff id c).1 hc]
    rw [postorderWithin, postorderWithin, hnil, List.flatMap_nil, List.nil_append]
  | succ n ih =>
    rw [postorderWithin, postorderWithin.eq_2 d id n]
    refine congrArg (· ++ [id]) (List.flatMap_congr fun c hc => ih fun a ha => hn a ?_)
    rw [climb_succ, ha, Option.bind_some, (h.mem_children_iff id c).1 hc]

theorem postorder_eq (id : NodeId) :
    d.postorder id = (d.children id).flatMap d.postorder ++ [id] := by
  rw [postorder, ← h.postorderWithin_succ fun a => h.climb_size_succ_ne a id, postorderWithin]
  rfl

theorem perm_postorder (id : NodeId) : (d.postorder id).Perm (d.subtree id) := by
  induction id using h.upward with
  | step id ih =>
    rw [h.postorder_eq, h.subtree_eq]
    exact (List.perm_append_singleton id _).trans ((List.Perm.flatMap_left _ ih).cons id)

end IsForest

/-! ## Judging by content -/

variable {away : Content → Bool}

/-- Whether a node below the root is judged away. -/
def drops (d : Document) (away : Content → Bool) (id : NodeId) : Bool :=
  (d.subtree root).tail.contains id && away (d.content id)

/-- Whether no node above a node is judged away. -/
def isClear (d : Document) (away : Content → Bool) (id : NodeId) : Bool :=
  (d.ancestors id).all fun a => !d.drops away a

/-- Whether neither a node nor one above it is judged away. -/
def isLeft (d : Document) (away : Content → Bool) (id : NodeId) : Bool :=
  !d.drops away id && d.isClear away id

namespace IsForest

variable (h : d.IsForest)
include h

theorem isClear_of_parent {id p : NodeId} (hp : d.parent id = some p) :
    d.isClear away id = d.isLeft away p := by
  rw [isClear, h.ancestors_of_parent hp, List.all_cons, isLeft, isClear]

theorem drops_eq_of_isAbove {id : NodeId} (hid : d.IsAbove root id) :
    d.drops away id = away (d.content id) := by
  rw [drops, List.contains_iff_mem.2 (h.mem_tail_subtree_iff.2 hid), Bool.true_and]

theorem isLeft_root : d.isLeft away root = true := by
  have hnot : ∀ a, a = root ∨ d.IsAbove a root → d.drops away a = false := by
    intro a ha
    rw [drops, Bool.and_eq_false_imp]
    intro hmem
    have habove := h.mem_tail_subtree_iff.1 (List.contains_iff_mem.1 hmem)
    exfalso
    rcases ha with rfl | ha
    · exact h.not_above_self root habove
    · exact h.not_above_self root (habove.trans ha)
  rw [isLeft, hnot root (.inl rfl), isClear, Bool.not_false, Bool.true_and, List.all_eq_true]
  intro a ha
  rw [hnot a (.inr (h.mem_ancestors_iff.1 ha)), Bool.not_false]

end IsForest

/-! ## What is left -/

/-- Whether a list of nodes below the root holds just the judged ones, as far as nothing
above them was judged away. -/
structure Settles (d : Document) (away : Content → Bool) (l : List NodeId) : Prop where
  isAbove : ∀ j ∈ l, d.IsAbove root j
  mem_iff : ∀ j, d.IsAbove root j → d.isClear away j = true →
    (j ∈ l ↔ away (d.content j) = true)

/-- Whether a document is another one without the nodes below the root that are judged
away, and without what is below them. -/
structure IsPrunedBy (away : Content → Bool) (d e : Document) : Prop where
  subtree_eq : e.subtree root = (d.subtree root).filter (d.isLeft away)
  content_eq : ∀ j, e.content j = d.content j
  parent_eq : ∀ j ∈ e.subtree root, e.parent j = d.parent j
  children_eq : ∀ j ∈ e.subtree root,
    e.children j = (d.children j).filter fun c => !away (d.content c)
  branches_eq : e.branches (e.children root) = (d.branches (d.children root)).pruned away

theorem detachAll_append (d : Document) (l l' : List NodeId) :
    d.detachAll (l ++ l') = (d.detachAll l).detachAll l' :=
  List.foldl_append ..

/-- To leave out what contributes nothing. -/
theorem flatMap_filter_eq {α β : Type} {l : List α} {q : α → Bool} {f g : α → List β}
    (hkept : ∀ a ∈ l, q a = true → f a = g a) (hleft : ∀ a ∈ l, q a = false → g a = []) :
    (l.filter q).flatMap f = l.flatMap g := by
  induction l with
  | nil => rfl
  | cons a l ih =>
    obtain ⟨hkept₁, hkept⟩ := List.forall_mem_cons.1 hkept
    obtain ⟨hleft₁, hleft⟩ := List.forall_mem_cons.1 hleft
    cases hq : q a with
    | true =>
      rw [List.filter_cons_of_pos hq, List.flatMap_cons, List.flatMap_cons, hkept₁ hq,
        ih hkept hleft]
    | false =>
      rw [List.filter_cons_of_neg (by simp [hq]), List.flatMap_cons, hleft₁ hq, List.nil_append,
        ih hkept hleft]

namespace Settles

variable {l : List NodeId} (hl : d.Settles away l) (h : d.IsForest)
include hl h

/-- Below a node that is left the list holds what is judged away. -/
theorem decide_notMem {id c : NodeId} (hid : id ∈ d.subtree root)
    (hleft : d.isLeft away id = true) (hc : d.parent c = some id) :
    decide (c ∉ l) = !away (d.content c) := by
  rw [Bool.eq_iff_iff, decide_eq_true_eq, Bool.not_eq_true', ← Bool.not_eq_true,
    hl.mem_iff c (h.isAbove_child hid hc) ((h.isClear_of_parent hc).trans hleft)]

omit hl in
theorem isLeft_child {id c : NodeId} (hid : id ∈ d.subtree root)
    (hleft : d.isLeft away id = true) (hc : d.parent c = some id) :
    d.isLeft away c = !away (d.content c) := by
  rw [isLeft, h.isClear_of_parent hc, hleft, Bool.and_true,
    h.drops_eq_of_isAbove (h.isAbove_child hid hc)]

theorem children_detachAll {id : NodeId} (hid : id ∈ d.subtree root)
    (hleft : d.isLeft away id = true) :
    (d.detachAll l).children id = (d.children id).filter fun c => !away (d.content c) := by
  rw [h.children_detachAll]
  exact List.filter_congr fun c hc =>
    hl.decide_notMem h hid hleft ((h.mem_children_iff id c).1 hc)

theorem subtree_detachAll {id : NodeId} (hid : id ∈ d.subtree root)
    (hleft : d.isLeft away id = true) :
    (d.detachAll l).subtree id = (d.subtree id).filter (d.isLeft away) := by
  induction id using h.upward with
  | step id ih =>
    rw [(h.detachAll l).subtree_eq, h.subtree_eq, List.filter_cons_of_pos hleft,
      hl.children_detachAll h hid hleft, List.filter_flatMap]
    congr 1
    refine flatMap_filter_eq (fun c hc hkept => ?_) fun c hc hcut => ?_
    · have hparent := (h.mem_children_iff id c).1 hc
      exact ih c hc (h.mem_subtree_iff_parent.2 (.inr ⟨id, hparent, hid⟩))
        ((isLeft_child h hid hleft hparent).trans hkept)
    · -- a node that is judged away is above all nodes below it
      have hparent := (h.mem_children_iff id c).1 hc
      have hdrops : d.drops away c = true := by
        rw [h.drops_eq_of_isAbove (h.isAbove_child hid hparent)]
        simpa using hcut
      refine List.filter_eq_nil_iff.2 fun j hj => ?_
      rw [isLeft, Bool.and_eq_true, not_and]
      intro hkeep hclear
      rcases h.mem_subtree_iff.1 hj with rfl | habove
      · rw [hdrops] at hkeep
        cases hkeep
      · have hc' := List.all_eq_true.1 hclear c (h.mem_ancestors_iff.2 habove)
        rw [hdrops] at hc'
        cases hc'

theorem isLeft_of_mem {j : NodeId} (hj : j ∈ (d.detachAll l).subtree root) :
    j ∈ d.subtree root ∧ d.isLeft away j = true := by
  rw [hl.subtree_detachAll h (h.mem_subtree_iff.2 (.inl rfl)) h.isLeft_root] at hj
  exact List.mem_filter.1 hj

theorem branches_detachAll {id : NodeId} (hid : id ∈ d.subtree root)
    (hleft : d.isLeft away id = true) : (d.detachAll l).branches ((d.detachAll l).children id) =
      (d.branches (d.children id)).pruned away := by
  induction id using h.upward with
  | step id ih =>
    rw [hl.children_detachAll h hid hleft]
    have hrow : ∀ cs ⊆ d.children id, (d.detachAll l).branches
        (cs.filter fun c => !away (d.content c)) = (d.branches cs).pruned away := by
      intro cs hcs
      induction cs with
      | nil => rw [List.filter_nil, branches_nil, branches_nil, Branches.pruned]
      | cons c cs ih' =>
        obtain ⟨hc, hcs⟩ := List.cons_subset.1 hcs
        have hparent := (h.mem_children_iff id c).1 hc
        rw [branches_cons h, Branches.pruned]
        cases haway : away (d.content c) with
        | true => rw [List.filter_cons_of_neg (by simp [haway]), if_pos rfl, ih' hcs]
        | false =>
          have hchild : d.isLeft away c = true := by
            rw [isLeft_child h hid hleft hparent, haway, Bool.not_false]
          rw [List.filter_cons_of_pos (by simp [haway]), if_neg Bool.false_ne_true,
            branches_cons (h.detachAll l), ih' hcs,
            ih c hc (h.mem_subtree_iff_parent.2 (.inr ⟨id, hparent, hid⟩)) hchild,
            content_detachAll]
    exact hrow _ (List.Subset.refl _)

theorem isPrunedBy : IsPrunedBy away d (d.detachAll l) where
  subtree_eq := hl.subtree_detachAll h (h.mem_subtree_iff.2 (.inl rfl)) h.isLeft_root
  content_eq j := content_detachAll d j l
  parent_eq j hj := by
    obtain ⟨hreached, hleft⟩ := hl.isLeft_of_mem h hj
    rw [parent_detachAll, if_neg]
    intro hmem
    have habove := hl.isAbove j hmem
    rw [isLeft, h.drops_eq_of_isAbove habove, Bool.and_eq_true] at hleft
    rw [hl.mem_iff j habove hleft.2] at hmem
    simp [hmem] at hleft
  children_eq j hj := by
    obtain ⟨hreached, hleft⟩ := hl.isLeft_of_mem h hj
    exact hl.children_detachAll h hreached hleft
  branches_eq := hl.branches_detachAll h (h.mem_subtree_iff.2 (.inl rfl)) h.isLeft_root

end Settles
end Document
end SvgCompact
