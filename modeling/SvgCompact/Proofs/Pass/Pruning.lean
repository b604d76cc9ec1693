import SvgCompact.Proofs.Document.Lineage
import SvgCompact.Proofs.Pass.Walks

/-!
What is left when a walk from the top down drops nodes.

Whether a node is dropped must not depend on what was dropped before, as long as nothing
above it was.  Then exactly those nodes are left that have no dropped node above them
and are not dropped themselves: every such node is come upon, and nothing below a
dropped one is.
-/

namespace SvgCompact
namespace Document

variable {d e : Document} {drops : NodeId → Prop} {id p j : NodeId}

/-- Whether a node is in the document and neither it nor a node above it is dropped. -/
structure IsSpared (d : Document) (drops : NodeId → Prop) (id : NodeId) : Prop where
  reached : id ∈ d.subtree root
  spared : ∀ a, a = id ∨ d.IsAbove a id → ¬ drops a

/-- A document of which some nodes that may be dropped are unlinked. -/
structure IsPruned (d : Document) (drops : NodeId → Prop) (e : Document) : Prop where
  isForest : e.IsForest
  parent_cases : ∀ j, e.parent j = d.parent j ∨ drops j ∧ e.parent j = none

/-- Whether all nodes at or below a node that can be come upon and are dropped are
unlinked. -/
def IsCleared (d : Document) (drops : NodeId → Prop) (id : NodeId) (e : Document) : Prop :=
  ∀ j p, j = id ∨ d.IsAbove id j → drops j → d.parent j = some p → d.IsSpared drops p →
    e.parent j = none

theorem IsSpared.child (h : d.IsSpared drops p) (hd : d.IsForest) (hid : d.parent id = some p)
    (hkeep : ¬ drops id) : d.IsSpared drops id where
  reached := by
    have hp := h.reached
    rw [hd.mem_subtree_iff] at hp ⊢
    exact .inr ((isAbove_iff_of_parent hid).2 (hp.imp_left Eq.symm))
  spared a ha := by
    rcases ha with rfl | ha
    · exact hkeep
    · exact h.spared a ((isAbove_iff_of_parent hid).1 ha)

theorem IsSpared.parent (h : d.IsSpared drops id) (hd : d.IsForest) (hid : d.parent id = some p)
    (hroot : d.parent root = none) : d.IsSpared drops p where
  reached := by
    rcases hd.mem_subtree_iff_parent.1 h.reached with rfl | ⟨q, hq, hreached⟩
    · rw [hroot] at hid
      cases hid
    · obtain rfl : q = p := Option.some.inj (hq.symm.trans hid)
      exact hreached
  spared a ha := h.spared a (.inr ((isAbove_iff_of_parent hid).2 ha))

namespace IsPruned

theorem parent_of_some (h : d.IsPruned drops e) (hp : e.parent j = some p) :
    d.parent j = some p := by
  rcases h.parent_cases j with heq | ⟨-, hnone⟩
  · rw [← heq, hp]
  · rw [hnone] at hp
    cases hp

theorem parent_eq (h : d.IsPruned drops e) (hj : ¬ drops j) : e.parent j = d.parent j :=
  (h.parent_cases j).resolve_right fun hdrop => hj hdrop.1

/-- Above a node that is come upon nothing was unlinked. -/
theorem ancestors_eq (h : d.IsPruned drops e) (hd : d.IsRooted) (hp : e.parent id = some p)
    (hspared : d.IsSpared drops p) : e.ancestors id = d.ancestors id := by
  have hforest := hd.isForest
  induction p using hforest.downward generalizing id with
  | step p ih =>
    rw [h.isForest.ancestors_of_parent hp, hforest.ancestors_of_parent (h.parent_of_some hp)]
    congr 1
    have hparent := h.parent_eq (hspared.spared p (.inl rfl))
    cases hq : d.parent p with
    | none => rw [ancestors_of_parent_none hq, ancestors_of_parent_none (hparent.trans hq)]
    | some q => exact ih q hq (hparent.trans hq) (hspared.parent hforest hq hd.parent_root)

theorem detach (h : d.IsPruned drops e) (hid : drops id) : d.IsPruned drops (e.detach id) where
  isForest := h.isForest.detach id
  parent_cases j := by
    rw [parent_detach]
    split
    · next hj => exact .inr ⟨hj ▸ hid, rfl⟩
    · exact h.parent_cases j

end IsPruned

/-- Nothing below a dropped node can be come upon. -/
theorem not_isSpared_of_drops (hid : drops id) (hp : p = id ∨ d.IsAbove id p) :
    ¬ d.IsSpared drops p :=
  fun h => h.spared id (hp.imp_left Eq.symm) hid

theorem isCleared_of_drops (hid : drops id) (hnone : e.parent id = none) :
    d.IsCleared drops id e := by
  intro j p hj _ hp hspared
  rcases hj with rfl | hj
  · exact hnone
  · have hp' := (isAbove_iff_of_parent hp).1 hj
    exact absurd hspared (not_isSpared_of_drops hid (hp'.imp_left Eq.symm))

/-- Whether links are only lost. -/
def IsThinned (e e' : Document) : Prop :=
  ∀ j, e'.parent j = e.parent j ∨ e'.parent j = none

theorem IsThinned.refl (e : Document) : e.IsThinned e := fun _ => .inl rfl

theorem IsThinned.trans {e' e'' : Document} (h : e.IsThinned e') (h' : e'.IsThinned e'') :
    e.IsThinned e'' := by
  intro j
  rcases h' j with heq | hnone
  · rw [heq]
    exact h j
  · exact .inr hnone

theorem IsThinned.parent_none {e' : Document} (h : e.IsThinned e') (hj : e.parent j = none) :
    e'.parent j = none := by
  rcases h j with heq | hnone
  · rw [heq, hj]
  · exact hnone

theorem isThinned_detach (e : Document) (id : NodeId) : e.IsThinned (e.detach id) := by
  intro j
  rw [parent_detach]
  split
  · exact .inr rfl
  · exact .inl rfl

theorem IsCleared.thin {e' : Document} (h : d.IsCleared drops id e) (hthin : e.IsThinned e') :
    d.IsCleared drops id e' :=
  fun j p hj hdrop hp hspared => hthin.parent_none (h j p hj hdrop hp hspared)

/-- A node all of whose children are cleared is cleared, if it is not dropped itself. -/
theorem isCleared_of_children (hkeep : ¬ drops id)
    (hchildren : ∀ c, d.parent c = some id → d.IsCleared drops c e) : d.IsCleared drops id e := by
  intro j p hj hdrop hp hspared
  rcases hj with rfl | hj
  · exact absurd hdrop hkeep
  · obtain ⟨c, hc, hcj⟩ := Relation.TransGen.head'_iff.1 hj
    exact hchildren c hc j p (Relation.reflTransGen_iff_eq_or_transGen.1 hcj) hdrop hp hspared

/-- A child that a kept node has lost was dropped, so the children it has are enough. -/
theorem IsPruned.isCleared {e' : Document} (h : d.IsPruned drops e) (hthin : e.IsThinned e')
    (hkeep : ¬ drops id) (hchildren : ∀ c ∈ e.children id, d.IsCleared drops c e') :
    d.IsCleared drops id e' := by
  refine isCleared_of_children hkeep fun c hc => ?_
  by_cases hmem : c ∈ e.children id
  · exact hchildren c hmem
  · rw [h.isForest.mem_children_iff] at hmem
    obtain ⟨hdrops, hnone⟩ := (h.parent_cases c).resolve_left fun heq => hmem (heq.trans hc)
    exact isCleared_of_drops hdrops (hthin.parent_none hnone)

end Document

/-! ## The walk -/

/-- What a part of the walk leaves behind. -/
structure Visit.Trims (d : Document) (drops : NodeId → Prop) (inv : Document → Prop)
    (e e' : Document) : Prop where
  inv : inv e'
  isPruned : d.IsPruned drops e'
  isThinned : e.IsThinned e'

/-- A visit that leaves links alone and judges each node it comes upon by `drops`, where
`inv` holds of the documents on the way. -/
structure Visit.Prunes (visit : Visit) (d : Document) (drops : NodeId → Prop)
    (inv : Document → Prop) : Prop where
  parent_eq : ∀ e id j, (visit e id).1.parent j = e.parent j
  children_eq : ∀ e id j, (visit e id).1.children j = e.children j
  keeps : ∀ e id, inv e → inv (visit e id).1
  keeps_detach : ∀ e id, inv e → inv (e.detach id)
  drop_iff : ∀ e id p, inv e → d.IsPruned drops e → d.IsSpared drops p →
    e.parent id = some p → ((visit e id).2 = .drop ↔ drops id)

namespace Visit

open Document (root IsSpared IsPruned IsCleared IsThinned)

variable {visit : Visit} {d : Document} {drops : NodeId → Prop} {inv : Document → Prop} {σ : Type}

theorem Trims.trans {e e' e'' : Document} (h : Trims d drops inv e e')
    (h' : Trims d drops inv e' e'') : Trims d drops inv e e'' :=
  ⟨h'.inv, h'.isPruned, h.isThinned.trans h'.isThinned⟩

/-- Children are walked one after the other, and what was cleared stays so. -/
theorem trims_foldl (step : σ × Document → NodeId → σ × Document) (children : List NodeId)
    (hstep : ∀ s, ∀ c ∈ children, inv s.2 → d.IsPruned drops s.2 →
      Trims d drops inv s.2 (step s c).2 ∧ d.IsCleared drops c (step s c).2)
    (s : σ × Document) (hinv : inv s.2) (hpruned : d.IsPruned drops s.2) :
    Trims d drops inv s.2 (children.foldl step s).2 ∧
      ∀ c ∈ children, d.IsCleared drops c (children.foldl step s).2 := by
  induction children generalizing s with
  | nil => exact ⟨⟨hinv, hpruned, .refl _⟩, nofun⟩
  | cons c rest ih =>
    obtain ⟨htrims, hcleared⟩ := hstep s c (by simp) hinv hpruned
    obtain ⟨htrims', hcleared'⟩ := ih (fun s x hx => hstep s x (by simp [hx])) _ htrims.inv
      htrims.isPruned
    refine ⟨htrims.trans htrims', fun x hx => ?_⟩
    rcases List.mem_cons.1 hx with rfl | hx
    · exact hcleared.thin htrims'.isThinned
    · exact hcleared' x hx

namespace Prunes

variable (h : visit.Prunes d drops inv) (hd : d.IsForest)
include h hd

omit hd in
theorem isPruned_visit {e : Document} (he : d.IsPruned drops e) (id : NodeId) :
    d.IsPruned drops (visit e id).1 where
  isForest := he.isForest.of_links (h.parent_eq e id) (h.children_eq e id)
  parent_cases j := by
    rw [h.parent_eq]
    exact he.parent_cases j

/-- The induction is on the bound, of which there is enough at every depth `k`. -/
theorem trims_parentsFirst {n k : Nat} {p id : NodeId} (s : σ × Document)
    (hid : d.parent id = some p) (hspared : d.IsSpared drops p) (hk : d.climb k id = some root)
    (hn : d.size ≤ n + k) (hinv : inv s.2) (hpruned : d.IsPruned drops s.2) :
    Trims d drops inv s.2 (Walk.parentsFirst visit.visitor n p s id).2 ∧
      d.IsCleared drops id (Walk.parentsFirst visit.visitor n p s id).2 := by
  induction n generalizing k p id s with
  | zero =>
    have hlt := hd.lt_size_of_climb (Document.lt_size_of_parent hid) hk
    omega
  | succ n ih =>
    by_cases hparent : s.2.parent id = some p
    · have hdrop := h.drop_iff s.2 id p hinv hpruned hspared hparent
      have hvisited := h.isPruned_visit hpruned id
      have hthin : s.2.IsThinned (visit s.2 id).1 := fun j => .inl (h.parent_eq s.2 id j)
      cases hv : (visit s.2 id).2 with
      | drop =>
        rw [Walk.parentsFirst_drop hparent hv]
        have hdrops := hdrop.1 hv
        refine ⟨⟨h.keeps_detach _ id (h.keeps _ id hinv), hvisited.detach hdrops,
          hthin.trans (Document.isThinned_detach _ id)⟩, Document.isCleared_of_drops hdrops ?_⟩
        rw [Document.parent_detach, if_pos rfl]
      | keep =>
        rw [Walk.parentsFirst_keep hparent hv]
        have hkeep : ¬ drops id := fun hdrops => by
          rw [hdrop.2 hdrops] at hv
          cases hv
        have hchild : ∀ c, d.parent c = some id → d.climb (k + 1) c = some root := by
          intro c hc
          rw [Document.climb, hc]
          exact hk
        obtain ⟨htrims, hcleared⟩ := trims_foldl
          (Walk.parentsFirst visit.visitor n id) ((visit s.2 id).1.children id)
          (fun s' c hc hinv' hpruned' =>
            have hc := hvisited.parent_of_some ((hvisited.isForest.mem_children_iff id c).1 hc)
            ih s' hc (hspared.child hd hid hkeep) (hchild c hc) (by omega) hinv' hpruned')
          (s.1, (visit s.2 id).1) (h.keeps _ id hinv) hvisited
        exact ⟨⟨htrims.inv, htrims.isPruned, hthin.trans htrims.isThinned⟩,
          hvisited.isCleared htrims.isThinned hkeep hcleared⟩
    · rw [Walk.parentsFirst_away hparent]
      have hcases := (hpruned.parent_cases id).resolve_left fun heq => hparent (heq.trans hid)
      exact ⟨⟨hinv, hpruned, .refl _⟩, Document.isCleared_of_drops hcases.1 hcases.2⟩

end Prunes

/-- What a walk leaves is what neither is dropped nor has a dropped node above it. -/
theorem Prunes.mem_subtree_topDown_iff (h : visit.Prunes d drops inv) (hd : d.IsRooted)
    (hinv : inv d) (hroot : ¬ drops root) :
    inv ((Pass.topDown visit).run d) ∧
      ∀ j, j ∈ ((Pass.topDown visit).run d).subtree root ↔ d.IsSpared drops j := by
  have hforest := hd.isForest
  have hspared : d.IsSpared drops root := by
    refine ⟨hforest.mem_subtree_iff.2 (.inl rfl), fun a ha => ?_⟩
    rcases ha with rfl | ha
    · exact hroot
    · exact absurd ha (Document.not_isAbove_of_parent_none hd.parent_root)
  have hself : d.IsPruned drops d := ⟨hforest, fun _ => .inl rfl⟩
  obtain ⟨htrims, hcleared⟩ := trims_foldl (Walk.parentsFirst visit.visitor (Walk.bound d) root)
    (d.children root) (fun s c hc hinv' hpruned' =>
      have hc := (hforest.mem_children_iff root c).1 hc
      h.trims_parentsFirst hforest (k := 1) s hc hspared ((Document.climb_one c).trans hc)
        (by rw [Walk.bound]; omega) hinv' hpruned')
    ((), d) hinv hself
  have hall := hself.isCleared htrims.isThinned hroot hcleared
  have hforest' := htrims.isPruned.isForest
  refine ⟨htrims.inv, fun j => ⟨fun hj => ?_, fun hj => ?_⟩⟩
  · induction j using hforest'.downward with
    | step j ih =>
      rcases hforest'.mem_subtree_iff_parent.1 hj with rfl | ⟨p, hp, hreached⟩
      · exact hspared
      · have hold := htrims.isPruned.parent_of_some hp
        have hp' := ih p hp hreached
        refine hp'.child hforest hold fun hdrops => ?_
        have habove : d.IsAbove root j := (Document.isAbove_iff_of_parent hold).2
          ((hforest.mem_subtree_iff.1 hp'.reached).imp_left Eq.symm)
        rw [hall j p (.inr habove) hdrops hold hp'] at hp
        cases hp
  · exact hforest.mem_subtree_of_way_up hforest' hj.reached fun a ha p hp =>
      (htrims.isPruned.parent_eq (hj.spared a ha)).trans hp

end Visit
end SvgCompact
