import SvgCompact.Proofs.Document.Unlinking
import SvgCompact.Proofs.Pass.Tracing

/-!
Walks during which nodes leave the document.

A visit may unlink the node behind the one it visits.  A walk from the top down enters a
node only while it is linked, so whatever it visits can still be reached.  A walk from the
bottom up goes to the children of a node before it looks whether the node is still linked.
So it visits what is below an unlinked sibling, if there is anything.
-/

namespace SvgCompact

open Document (root SharesLinks LosesLinks LosesBelow)

variable {σ : Type} {d : Document}

namespace Moment

/-- Whether the visited node can be reached at that moment. -/
def IsReached (m : Moment) : Prop :=
  m.id ∈ m.found.subtree root

/-- Whether the visit itself unlinks a node. -/
def Unlinks (m : Moment) (b : NodeId) : Prop :=
  m.found.parent b ≠ none ∧ m.left.parent b = none

end Moment

namespace Visitor

/-- A visitor that leaves the links alone, or unlinks the next sibling of what it visits. -/
def UnlinksNext (visit : Visitor σ) : Prop :=
  ∀ (s : σ × Document) (id : NodeId), s.2.SharesLinks (visit s id).1.2 ∨
    ∃ b, s.2.nextSibling? id = some b ∧ (s.2.detach b).SharesLinks (visit s id).1.2

variable {visit : Visitor σ} (h : visit.UnlinksNext)

theorem UnlinksNext.noting (h : visit.UnlinksNext) : visit.noting.UnlinksNext :=
  fun s id => h (s.1.1, s.2) id

namespace UnlinksNext

variable {s : σ × Document} {id p b j : NodeId} (hs : s.2.IsForest)
include h hs

theorem losesLinks_left (id : NodeId) : s.2.LosesLinks (visit.moment s id).left := by
  rcases h s id with hsame | ⟨b, -, hcut⟩
  · exact hsame.losesLinks hs
  · exact (Document.losesLinks_detach hs b).trans (hcut.losesLinks (hs.detach b))

omit h hs in
theorem losesLinks_after {m : Moment} (hm : m.left.IsForest) : m.left.LosesLinks m.after := by
  rw [Moment.after]
  split
  · exact Document.losesLinks_detach hm m.id
  · exact .refl hm

omit hs in
/-- What a visit unlinks is the next sibling. -/
theorem nextSibling?_of_unlinks (hb : (visit.moment s id).Unlinks b) :
    s.2.nextSibling? id = some b := by
  rcases h s id with hsame | ⟨c, hc, hcut⟩
  · exact absurd ((hsame.parent_eq b).symm.trans hb.2) hb.1
  · have hleft := (hcut.parent_eq b).symm.trans hb.2
    rw [Document.parent_detach] at hleft
    split at hleft
    · next heq => rw [heq, hc]
    · exact absurd hleft hb.1

theorem parent_left (hj : ¬ (visit.moment s id).Unlinks j) :
    (visit.moment s id).left.parent j = s.2.parent j := by
  rcases (h.losesLinks_left hs id).parent_cases hs j with heq | hnone
  · exact heq
  · by_contra hlost
    exact hj ⟨fun hnone' => hlost (hnone.trans hnone'.symm), hnone⟩

theorem not_unlinks_self (hid : s.2.parent id = some p) : ¬ (visit.moment s id).Unlinks id :=
  fun hlost => (hs.parent_of_nextSibling? hid (h.nextSibling?_of_unlinks hlost)).2 rfl

/-- A link that is lost is the one of an unlinked sibling or of the visited node. -/
theorem parent_after (hj : ¬ (visit.moment s id).Unlinks j) (hne : j ≠ id) :
    (visit.settle s id).2.parent j = s.2.parent j := by
  show (visit.moment s id).after.parent j = _
  rw [Moment.after]
  split
  · exact (Document.parent_detach ..).trans ((if_neg hne).trans (h.parent_left hs hj))
  · exact h.parent_left hs hj

theorem parent_settle_of_keep (hid : s.2.parent id = some p) (hv : (visit s id).2 = .keep) :
    (visit.settle s id).2.parent id = some p := by
  rw [settle_of_keep hv]
  exact (h.parent_left hs (h.not_unlinks_self hs hid)).trans hid

theorem losesLinks_settle : s.2.LosesLinks (visit.settle s id).2 :=
  (h.losesLinks_left hs id).trans (losesLinks_after (h.losesLinks_left hs id).isForest)

/-- A visit of a child of a node loses links of children of that node only. -/
theorem losesBelow_settle (hd : d.IsForest) (hloses : d.LosesLinks s.2)
    (hid : s.2.parent id = some p) : d.LosesBelow p s.2 (visit.settle s id).2 := by
  refine ⟨h.losesLinks_settle hs, fun j hj => h.parent_after hs (fun hlost => hj ?_) ?_⟩
  · have hparent := (hs.parent_of_nextSibling? hid (h.nextSibling?_of_unlinks hlost)).1
    exact Document.isAbove_of_parent (hloses.parent_of_some hd hparent)
  · rintro rfl
    exact hj (Document.isAbove_of_parent (hloses.parent_of_some hd hid))

end UnlinksNext
end Visitor

namespace Walk

variable {visit : Visitor σ} (h : visit.UnlinksNext) (hd : d.IsForest)

/-! ## Runs -/

namespace Run

variable {s t : σ × Document} {ms : List Moment} {j p : NodeId}
include h

theorem losesLinks (hs : s.2.IsForest) (hrun : Run visit s ms t) : s.2.LosesLinks t.2 :=
  hrun.keeps (fun _ _ _ hs' _ => hs'.trans (h.losesLinks_settle hs'.isForest)) (.refl hs)

/-- A link that is lost in a run is lost in one of its visits. -/
theorem exists_of_parent_none (hs : s.2.IsForest) (hrun : Run visit s ms t)
    (hold : s.2.parent j ≠ none) (hnew : t.2.parent j = none) :
    ∃ m ∈ ms, m.Unlinks j ∨ m.id = j := by
  induction hrun with
  | nil => exact absurd hnew hold
  | @cons s t id p ms hid hrest ih =>
    by_cases hlost : (visit.moment s id).Unlinks j
    · exact ⟨_, List.mem_cons_self, .inl hlost⟩
    · by_cases hne : j = id
      · exact ⟨_, List.mem_cons_self, .inr hne.symm⟩
      · obtain ⟨m, hm, hcases⟩ := ih (h.losesLinks_settle hs).isForest
          (by rwa [h.parent_after hs hlost hne]) hnew
        exact ⟨m, List.mem_cons_of_mem _ hm, hcases⟩

/-- What an earlier visit of a run has left is what a later one finds, with more links
lost. -/
theorem losesLinks_left (hs : s.2.IsForest) (hrun : Run visit s ms t) {m : Moment} (hm : m ∈ ms) :
    s.2.LosesLinks m.found ∧ m.found.LosesLinks m.left ∧ m.left.LosesLinks t.2 := by
  obtain ⟨front, back, rfl⟩ := List.append_of_mem hm
  obtain ⟨u, p, hfront, hmoment, -, hback⟩ := hrun.split
  have hu := hfront.losesLinks h hs
  have hleft := h.losesLinks_left hu.isForest m.id
  have hafter := Visitor.UnlinksNext.losesLinks_after hleft.isForest
  rw [hmoment]
  exact ⟨hu, hleft, hafter.trans (hback.losesLinks h (h.losesLinks_settle hu.isForest).isForest)⟩

end Run

/-! ## Links that a part of a walk loses -/

theorem losesBelow_foldl {step : σ × Document → NodeId → σ × Document} {q : NodeId}
    {cs : List NodeId}
    (hstep : ∀ c ∈ cs, ∀ s, d.LosesLinks s.2 → d.LosesBelow q s.2 (step s c).2)
    {s : σ × Document} (hs : d.LosesLinks s.2) : d.LosesBelow q s.2 (cs.foldl step s).2 := by
  induction cs generalizing s with
  | nil => exact .refl d q hs.isForest
  | cons c cs ih =>
    obtain ⟨hfirst, hrest⟩ := List.forall_mem_cons.1 hstep
    have hc := hfirst s hs
    exact hc.trans (ih hrest (hs.trans hc.toLosesLinks))

/-- The children of a node in what is left of a document are children there. -/
theorem parent_of_mem_children {e : Document} (hd : d.IsForest) (he : d.LosesLinks e)
    {id c : NodeId} (hc : c ∈ e.children id) : d.parent c = some id :=
  he.parent_of_some hd ((he.isForest.mem_children_iff id c).1 hc)

include h hd

theorem losesBelow_parentsFirst (n : Nat) {q id : NodeId} {s : σ × Document}
    (hid : d.parent id = some q) (hs : d.LosesLinks s.2) :
    d.LosesBelow q s.2 (parentsFirst visit n q s id).2 := by
  induction n generalizing q id s with
  | zero => exact .refl d q hs.isForest
  | succ n ih =>
    by_cases hparent : s.2.parent id = some q
    · have hvisit := h.losesBelow_settle hs.isForest hd hs hparent
      cases hv : (visit s id).2 with
      | drop =>
        rw [parentsFirst_of_drop hparent hv]
        exact hvisit
      | keep =>
        rw [parentsFirst_of_keep hparent hv]
        have hs' := hs.trans hvisit.toLosesLinks
        refine hvisit.trans (losesBelow_foldl (fun c hc t ht => ?_) hs')
        exact (ih (parent_of_mem_children hd hs' hc) ht).of_child hid
    · rw [parentsFirst_of_ne hparent]
      exact .refl d q hs.isForest

theorem losesBelow_childrenFirst (n : Nat) {q id : NodeId} {s : σ × Document}
    (hid : d.parent id = some q) (hs : d.LosesLinks s.2) :
    d.LosesBelow q s.2 (childrenFirst visit n q s id).2 := by
  induction n generalizing q id s with
  | zero => exact .refl d q hs.isForest
  | succ n ih =>
    have hbelow : d.LosesBelow id s.2 ((s.2.children id).foldl (childrenFirst visit n id) s).2 :=
      losesBelow_foldl (fun c hc t ht => ih (parent_of_mem_children hd hs hc) ht) hs
    generalize ht : (s.2.children id).foldl (childrenFirst visit n id) s = t at hbelow
    by_cases hparent : t.2.parent id = some q
    · rw [childrenFirst_of_parent ht hparent]
      have ht' := hs.trans hbelow.toLosesLinks
      exact (hbelow.of_child hid).trans (h.losesBelow_settle ht'.isForest hd ht' hparent)
    · rw [childrenFirst_of_ne ht hparent]
      exact hbelow.of_child hid

theorem losesBelow_children (n : Nat) (id : NodeId) {s : σ × Document} (hs : d.LosesLinks s.2) :
    d.LosesBelow id s.2 ((s.2.children id).foldl (childrenFirst visit n id) s).2 :=
  losesBelow_foldl (fun _ hc _ ht =>
    losesBelow_childrenFirst h hd n (parent_of_mem_children hd hs hc) ht) hs

/-- A node that is not linked any more is not visited. -/
theorem childrenFirst_of_unlinked {n : Nat} {q id : NodeId} {s : σ × Document}
    (hs : d.LosesLinks s.2) (hid : s.2.parent id = none) :
    childrenFirst visit (n + 1) q s id = (s.2.children id).foldl (childrenFirst visit n id) s := by
  refine childrenFirst_of_ne rfl ?_
  rw [(losesBelow_children h hd n id hs).parent_eq_none hs.isForest hid]
  exact (Option.some_ne_none q).symm

/-! ## From the top down -/

/-- A node is entered while it and the nodes above it are linked. -/
theorem isReached_parentsFirst (n : Nat) {q id : NodeId} {s : Noted σ}
    (hid : d.parent id = some q) (hs : d.LosesLinks s.2) (hq : q ∈ s.2.subtree root)
    (hms : ∀ m ∈ s.1.2, m.IsReached ∧ d.IsAbove root m.id) :
    ∀ m ∈ (parentsFirst visit.noting n q s id).1.2, m.IsReached ∧ d.IsAbove root m.id := by
  induction n generalizing q id s with
  | zero => exact hms
  | succ n ih =>
    by_cases hparent : s.2.parent id = some q
    · have hvisit := h.noting.losesBelow_settle hs.isForest hd hs hparent
      have hreached : id ∈ s.2.subtree root :=
        hs.isForest.mem_subtree_iff_parent.2 (.inr ⟨q, hparent, hq⟩)
      have habove : d.IsAbove root id := (Document.isAbove_iff_of_parent hid).2
        ((hd.mem_subtree_iff.1 (hs.mem_subtree hd hq)).imp_left Eq.symm)
      have hms' : ∀ m ∈ (visit.noting.settle s id).1.2, m.IsReached ∧ d.IsAbove root m.id := by
        rw [Visitor.settle_noting]
        exact List.forall_mem_append.2 ⟨hms, List.forall_mem_singleton.2 ⟨hreached, habove⟩⟩
      cases hv : (visit.noting s id).2 with
      | drop =>
        rw [parentsFirst_of_drop hparent hv]
        exact hms'
      | keep =>
        rw [parentsFirst_of_keep hparent hv]
        have hs' := hs.trans hvisit.toLosesLinks
        have hreached' : id ∈ (visit.noting.settle s id).2.subtree root :=
          hs'.isForest.mem_subtree_iff_parent.2
            (.inr ⟨q, h.noting.parent_settle_of_keep hs.isForest hparent hv,
              hvisit.mem_subtree_root hd hs hq⟩)
        refine (List.foldlRecOn (motive := fun t : Noted σ =>
          d.LosesLinks t.2 ∧ id ∈ t.2.subtree root ∧
            ∀ m ∈ t.1.2, m.IsReached ∧ d.IsAbove root m.id) _ _ ⟨hs', hreached', hms'⟩ ?_).2.2
        intro t ht c hc
        have hc' := parent_of_mem_children hd hs' hc
        have hbelow := losesBelow_parentsFirst h.noting hd n hc' ht.1
        exact ⟨ht.1.trans hbelow.toLosesLinks, hbelow.mem_subtree_root hd ht.1 ht.2.1,
          ih hc' ht.1 ht.2.1 ht.2.2⟩
    · rw [parentsFirst_of_ne hparent]
      exact hms

theorem isReached_topDown (t : σ) :
    ∀ m ∈ topDownVisits visit (t, d), m.IsReached ∧ d.IsAbove root m.id := by
  refine (List.foldlRecOn (motive := fun s : Noted σ =>
    d.LosesLinks s.2 ∧ root ∈ s.2.subtree root ∧
      ∀ m ∈ s.1.2, m.IsReached ∧ d.IsAbove root m.id) (d.children root) _
    ⟨.refl hd, hd.mem_subtree_iff.2 (.inl rfl), List.forall_mem_nil _⟩ ?_).2.2
  intro s hs c hc
  have hc' := (hd.mem_children_iff root c).1 hc
  have hbelow := losesBelow_parentsFirst h.noting hd (bound d) hc' hs.1
  exact ⟨hs.1.trans hbelow.toLosesLinks, hbelow.mem_subtree_root hd hs.1 hs.2.1,
    isReached_parentsFirst h hd _ hc' hs.1 hs.2.1 hs.2.2⟩

/-! ## From the bottom up -/

/-- Whether no visited node is above one that was visited after it. -/
structure Ordered (d : Document) (s : Noted σ) : Prop where
  losesLinks : d.LosesLinks s.2
  pairwise : s.1.2.Pairwise fun m m' => ¬ d.IsAbove m.id m'.id

/-- Whether a part of a walk keeps the order and visits nodes in a set only. -/
structure KeepsOrder (d : Document) (region : NodeId → Prop)
    (s t : Noted σ) : Prop where
  ordered : Ordered d t
  mem_cases : ∀ m ∈ t.1.2, m ∈ s.1.2 ∨ region m.id

omit h in
theorem keepsOrder_foldl {step : Noted σ → NodeId → Noted σ}
    {id : NodeId} {cs : List NodeId} (hcs : ∀ c ∈ cs, d.parent c = some id) (hnodup : cs.Nodup)
    (hstep : ∀ c ∈ cs, ∀ s, Ordered d s → (∀ m ∈ s.1.2, ∀ j ∈ d.subtree c, ¬ d.IsAbove m.id j) →
      KeepsOrder d (· ∈ d.subtree c) s (step s c))
    {s : Noted σ} (hs : Ordered d s)
    (hold : ∀ m ∈ s.1.2, ∀ c ∈ cs, ∀ j ∈ d.subtree c, ¬ d.IsAbove m.id j) :
    KeepsOrder d (fun v => ∃ c ∈ cs, v ∈ d.subtree c) s (cs.foldl step s) := by
  induction cs generalizing s with
  | nil => exact ⟨hs, fun m hm => .inl hm⟩
  | cons c cs ih =>
    obtain ⟨hc, hcs⟩ := List.forall_mem_cons.1 hcs
    obtain ⟨hnotin, hnodup⟩ := List.nodup_cons.1 hnodup
    obtain ⟨hfirst, hrest⟩ := List.forall_mem_cons.1 hstep
    have hpart := hfirst s hs fun m hm => hold m hm c List.mem_cons_self
    have hothers := ih hcs hnodup hrest hpart.ordered fun m hm b hb j hj habove => by
      rcases hpart.mem_cases m hm with hm | hm
      · exact hold m hm b (List.mem_cons_of_mem c hb) j hj habove
      · -- what is below a node of one child is below that child
        have hjc : j ∈ d.subtree c := hd.mem_subtree_iff.2 <|
          .inr (((hd.mem_subtree_iff.1 hm).elim (fun heq => heq ▸ habove) (·.trans habove)))
        obtain rfl := hd.eq_of_mem_subtree hc (hcs b hb) hjc hj
        exact hnotin hb
    refine ⟨hothers.ordered, fun m hm => ?_⟩
    rcases hothers.mem_cases m hm with hm | ⟨b, hb, hmb⟩
    · exact (hpart.mem_cases m hm).imp_right fun hmc => ⟨c, List.mem_cons_self, hmc⟩
    · exact .inr ⟨b, List.mem_cons_of_mem c hb, hmb⟩

theorem keepsOrder_childrenFirst (n : Nat) {q id : NodeId} {s : Noted σ}
    (hid : d.parent id = some q) (hs : Ordered d s)
    (hold : ∀ m ∈ s.1.2, ∀ j ∈ d.subtree id, ¬ d.IsAbove m.id j) :
    KeepsOrder d (· ∈ d.subtree id) s (childrenFirst visit.noting n q s id) := by
  induction n generalizing q id s with
  | zero => exact ⟨hs, fun m hm => .inl hm⟩
  | succ n ih =>
    have hchild : ∀ c ∈ s.2.children id, d.parent c = some id := fun c hc =>
      parent_of_mem_children hd hs.losesLinks hc
    have hin : ∀ c ∈ s.2.children id, d.subtree c ⊆ d.subtree id := fun c hc j hj =>
      hd.mem_subtree_iff.2 (.inr (hd.isAbove_of_mem_subtree (hchild c hc) hj))
    have hbelow := keepsOrder_foldl hd hchild (hs.losesLinks.isForest.nodup_children id)
      (fun c hc s hs hold => ih (hchild c hc) hs hold) hs
      fun m hm c hc j hj => hold m hm j (hin c hc hj)
    generalize ht : (s.2.children id).foldl (childrenFirst visit.noting n id) s = t at hbelow
    by_cases hparent : t.2.parent id = some q
    · rw [childrenFirst_of_parent ht hparent]
      have ht' := hbelow.ordered.losesLinks
      refine ⟨⟨ht'.trans (h.noting.losesLinks_settle ht'.isForest), ?_⟩, ?_⟩
      · rw [Visitor.settle_noting, List.pairwise_append]
        refine ⟨hbelow.ordered.pairwise, List.pairwise_singleton .., fun m hm m' hm' => ?_⟩
        rw [List.mem_singleton.1 hm']
        rcases hbelow.mem_cases m hm with hm | ⟨c, hc, hmc⟩
        · exact hold m hm id (hd.mem_subtree_iff.2 (.inl rfl))
        · exact fun habove => hd.not_above_self id
            ((hd.isAbove_of_mem_subtree (hchild c hc) hmc).trans habove)
      · rw [Visitor.settle_noting]
        intro m hm
        rcases List.mem_append.1 hm with hm | hm
        · exact (hbelow.mem_cases m hm).imp_right fun hex => by
            obtain ⟨c, hc, hmc⟩ := hex
            exact hin c hc hmc
        · rw [List.mem_singleton.1 hm]
          exact .inr (hd.mem_subtree_iff.2 (.inl rfl))
    · rw [childrenFirst_of_ne ht hparent]
      refine ⟨hbelow.ordered, fun m hm => (hbelow.mem_cases m hm).imp_right fun hex => ?_⟩
      obtain ⟨c, hc, hmc⟩ := hex
      exact hin c hc hmc

theorem ordered_bottomUp (t : σ) :
    Ordered d (bottomUpNoted visit (t, d)) ∧
      ∀ m ∈ bottomUpVisits visit (t, d), d.IsAbove root m.id := by
  have hchild : ∀ c ∈ d.children root, d.parent c = some root := fun c hc =>
    (hd.mem_children_iff root c).1 hc
  have hwalk : KeepsOrder d _ ((t, []), d) (bottomUpNoted visit (t, d)) :=
    keepsOrder_foldl hd hchild (hd.nodup_children root)
      (fun c hc s hs hold => keepsOrder_childrenFirst h hd _ (hchild c hc) hs hold)
      ⟨.refl hd, List.Pairwise.nil⟩ (List.forall_mem_nil _)
  refine ⟨hwalk.ordered, fun m hm => ?_⟩
  obtain ⟨c, hc, hmc⟩ := (hwalk.mem_cases m hm).resolve_left List.not_mem_nil
  exact hd.isAbove_of_mem_subtree (hchild c hc) hmc

end Walk
end SvgCompact
