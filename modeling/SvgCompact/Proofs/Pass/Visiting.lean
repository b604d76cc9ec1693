import SvgCompact.Proofs.Document.Unlinking
import SvgCompact.Proofs.Pass.Tracing

/-!
Which nodes a walk visits, in what order, and what it leaves.

A visitor that changes no document and judges nodes by their content has, at each moment,
unlinked just those of the nodes visited so far that it judged away.  So the nodes visited
say all about the state of a walk, and a walk over a part of the document adds the nodes
of that part to them.
-/

namespace SvgCompact

open Document (root)

/-- A visitor that changes no document and drops the nodes whose content is to go. -/
structure Visitor.Judges {σ : Type} (visit : Visitor σ) (away : Content → Bool) : Prop where
  document_eq : ∀ s id, (visit s id).1.2 = s.2
  verdict_eq : ∀ s id, (visit s id).2 = if away (s.2.content id) then .drop else .keep

theorem Visit.judges_dropping {σ : Type} (p : Content → Bool) :
    ((Visit.dropping p).visitor : Visitor σ).Judges p :=
  ⟨fun _ _ => rfl, fun _ _ => rfl⟩

namespace Walk

variable {σ : Type} {d : Document} {away : Content → Bool}

/-- Whether some nodes of a document were visited so far, in that order, and those that
were to go are unlinked. -/
structure Seen (d : Document) (away : Content → Bool) (ids : List NodeId)
    (s : Noted σ) : Prop where
  visited : s.1.2.map (·.id) = ids
  judged : ∀ m ∈ s.1.2, m.verdict = if away (d.content m.id) then .drop else .keep
  document : s.2 = d.detachAll (ids.filter fun id => away (d.content id))

namespace Seen

variable {ids : List NodeId} {s : Noted σ} (hs : Seen d away ids s)
include hs

theorem dropped_eq : Moment.dropped s.1.2 = ids.filter fun id => away (d.content id) := by
  rw [← hs.visited, List.filter_map, Moment.dropped]
  congr 1
  refine List.filter_congr fun m hm => ?_
  rw [hs.judged m hm, Function.comp_apply]
  cases away (d.content m.id) <;> rfl

theorem settle {visit : Visitor σ} (h : visit.Judges away) (id : NodeId) :
    Seen d away (ids ++ [id]) (visit.noting.settle s id) := by
  have hcontent : s.2.content id = d.content id := by rw [hs.document, Document.content_detachAll]
  have hverdict := h.verdict_eq (s.1.1, s.2) id
  have hdocument := h.document_eq (s.1.1, s.2) id
  simp only [hcontent] at hverdict
  refine ⟨?_, ?_, ?_⟩
  · rw [Visitor.settle_noting, List.map_append, hs.visited]
    rfl
  · rw [Visitor.settle_noting]
    exact List.forall_mem_append.2 ⟨hs.judged, List.forall_mem_singleton.2 hverdict⟩
  · show (visit.settle (s.1.1, s.2) id).2 = _
    rw [List.filter_append, List.filter_singleton, Document.detachAll_append, ← hs.document]
    cases haway : away (d.content id) with
    | true =>
      rw [haway, if_pos rfl] at hverdict
      rw [Visitor.settle_of_drop hverdict, hdocument]
      rfl
    | false =>
      rw [haway, if_neg Bool.false_ne_true] at hverdict
      rw [Visitor.settle_of_keep hverdict, hdocument]
      rfl

theorem parent_eq {id : NodeId} (hid : id ∉ ids) : s.2.parent id = d.parent id := by
  rw [hs.document, Document.parent_detachAll, if_neg fun hmem => hid (List.mem_of_mem_filter hmem)]

theorem children_eq (hd : d.IsForest) {id : NodeId} (hid : ∀ j ∈ ids, d.parent j ≠ some id) :
    s.2.children id = d.children id := by
  rw [hs.document, hd.children_detachAll, List.filter_eq_self.2]
  intro c hc
  rw [decide_eq_true_eq]
  exact fun hmem => hid c (List.mem_of_mem_filter hmem) ((hd.mem_children_iff id c).1 hc)

omit hs in
/-- The children of a node are entered one after the other.  A node at or below one of
them is visited before none of the others is entered. -/
theorem foldl (hd : d.IsForest)
    {step : Noted σ → NodeId → Noted σ}
    {visits : NodeId → List NodeId} (hvisits : ∀ c, visits c ⊆ d.subtree c) {p : NodeId}
    {cs : List NodeId} (hcs : ∀ c ∈ cs, d.parent c = some p) (hnodup : cs.Nodup)
    (hstep : ∀ c ∈ cs, ∀ ids s, Seen d away ids s → (∀ j ∈ ids, j ∉ d.subtree c) →
      Seen d away (ids ++ visits c) (step s c))
    {ids : List NodeId} {s : Noted σ} (hs : Seen d away ids s)
    (hfresh : ∀ j ∈ ids, ∀ c ∈ cs, j ∉ d.subtree c) :
    Seen d away (ids ++ cs.flatMap visits) (cs.foldl step s) := by
  induction cs generalizing ids s with
  | nil => rwa [List.flatMap_nil, List.append_nil]
  | cons c cs ih =>
    obtain ⟨hc, hcs⟩ := List.forall_mem_cons.1 hcs
    obtain ⟨hnotin, hnodup⟩ := List.nodup_cons.1 hnodup
    obtain ⟨hfirst, hrest⟩ := List.forall_mem_cons.1 hstep
    rw [List.flatMap_cons, ← List.append_assoc]
    refine ih hcs hnodup hrest (hfirst ids s hs fun j hj => hfresh j hj c (by simp)) ?_
    intro j hj b hb hjb
    rcases List.mem_append.1 hj with hj | hj
    · exact hfresh j hj b (List.mem_cons_of_mem c hb) hjb
    · obtain rfl := hd.eq_of_mem_subtree hc (hcs b hb) (hvisits c hj) hjb
      exact hnotin hb

end Seen

/-! ## From the top down -/

section TopDown

variable (hd : d.IsForest) {id : NodeId}
include hd

/-- Of what is below a node that is judged away nothing is visited. -/
theorem filter_isClear_of_drops (hdrops : d.drops away id = true)
    (hclear : d.isClear away id = true) : (d.subtree id).filter (d.isClear away) = [id] := by
  rw [hd.subtree_eq, List.filter_cons_of_pos hclear, ← hd.tail_subtree, List.filter_eq_nil_iff.2]
  intro j hj hclear'
  have habove := hd.mem_tail_subtree_iff.1 hj
  have hid := List.all_eq_true.1 hclear' id (hd.mem_ancestors_iff.2 habove)
  rw [hdrops] at hid
  cases hid

theorem filter_isClear_of_isClear (hclear : d.isClear away id = true) :
    (d.subtree id).filter (d.isClear away) =
      id :: (d.children id).flatMap fun c => (d.subtree c).filter (d.isClear away) := by
  rw [hd.subtree_eq, List.filter_cons_of_pos hclear, List.filter_flatMap]

/-- The induction is on the bound, of which there is enough at every depth `k`. -/
theorem seen_parentsFirst {visit : Visitor σ} (h : visit.Judges away) {n k : Nat} {p : NodeId}
    (hp : p ∈ d.subtree root) (hleft : d.isLeft away p = true) (hid : d.parent id = some p)
    (hk : d.climb k id = some root) (hn : d.size ≤ n + k) {ids : List NodeId}
    {s : Noted σ} (hs : Seen d away ids s)
    (hfresh : ∀ j ∈ ids, j ∉ d.subtree id) :
    Seen d away (ids ++ (d.subtree id).filter (d.isClear away))
      (parentsFirst visit.noting n p s id) := by
  induction n generalizing k p id ids s with
  | zero =>
    have hlt := hd.lt_size_of_climb (Document.lt_size_of_parent hid) hk
    omega
  | succ n ih =>
    have hclear := (hd.isClear_of_parent hid).trans hleft
    have hdrops : d.drops away id = away (d.content id) :=
      hd.drops_eq_of_isAbove (hd.isAbove_child hp hid)
    have hnew : id ∉ ids := fun hmem => hfresh id hmem (hd.mem_subtree_iff.2 (.inl rfl))
    have hparent := (hs.parent_eq hnew).trans hid
    have hcontent : s.2.content id = d.content id := by rw [hs.document, Document.content_detachAll]
    have hverdict : (visit.noting s id).2 = _ := h.verdict_eq (s.1.1, s.2) id
    simp only [hcontent] at hverdict
    have hvisited := hs.settle h id
    cases haway : away (d.content id) with
    | true =>
      rw [haway, if_pos rfl] at hverdict
      rw [parentsFirst_of_drop hparent hverdict,
        filter_isClear_of_drops hd (hdrops.trans haway) hclear]
      exact hvisited
    | false =>
      rw [haway, if_neg Bool.false_ne_true] at hverdict
      have hleft' : d.isLeft away id = true := by
        rw [Document.isLeft, hdrops, haway, hclear]
        rfl
      have hbelow : ∀ j ∈ ids ++ [id], ¬ d.IsAbove id j := by
        intro j hj habove
        rcases List.mem_append.1 hj with hj | hj
        · exact hfresh j hj (hd.mem_subtree_iff.2 (.inr habove))
        · rw [List.mem_singleton.1 hj] at habove
          exact hd.not_above_self id habove
      have hchildren := hvisited.children_eq hd fun j hj hjid =>
        hbelow j hj (Document.isAbove_of_parent hjid)
      rw [parentsFirst_of_keep hparent hverdict, hchildren,
        filter_isClear_of_isClear hd hclear, ← List.singleton_append, ← List.append_assoc]
      refine Seen.foldl hd (fun c => List.filter_subset_self _)
        (fun c hc => (hd.mem_children_iff id c).1 hc) (hd.nodup_children id)
        (fun c hc ids s hs hfresh => ?_) hvisited fun j hj c hc hjc => hbelow j hj ?_
      · have hc := (hd.mem_children_iff id c).1 hc
        refine ih (k := k + 1) (hd.mem_subtree_iff_parent.2 (.inr ⟨p, hid, hp⟩)) hleft' hc ?_
          (by omega) hs hfresh
        rw [Document.climb_of_parent hc, hk]
      · exact hd.isAbove_of_mem_subtree ((hd.mem_children_iff id c).1 hc) hjc

theorem seen_topDown {visit : Visitor σ} (h : visit.Judges away) (t : σ) :
    Seen d away ((d.subtree root).tail.filter (d.isClear away)) (topDownNoted visit (t, d)) := by
  rw [hd.tail_subtree, List.filter_flatMap, ← List.nil_append (List.flatMap _ _)]
  refine Seen.foldl hd (fun c => List.filter_subset_self _)
    (fun c hc => (hd.mem_children_iff root c).1 hc) (hd.nodup_children root)
    (fun c hc ids s hs hfresh => ?_) ⟨rfl, List.forall_mem_nil _, rfl⟩ (List.forall_mem_nil _)
  have hc := (hd.mem_children_iff root c).1 hc
  refine seen_parentsFirst hd h (k := 1) (hd.mem_subtree_iff.2 (.inl rfl)) hd.isLeft_root hc
    ((Document.climb_one c).trans hc) ?_ hs hfresh
  show d.size ≤ 2 * d.size + 1
  omega

end TopDown

/-! ## From the bottom up -/

section BottomUp

variable (hd : d.IsForest)
include hd

theorem postorder_subset (id : NodeId) : d.postorder id ⊆ d.subtree id :=
  (hd.perm_postorder id).subset

theorem seen_childrenFirst {visit : Visitor σ} (h : visit.Judges away) {n k : Nat} {p id : NodeId}
    (hid : d.parent id = some p) (hk : d.climb k id = some root) (hn : d.size ≤ n + k)
    {ids : List NodeId} {s : Noted σ} (hs : Seen d away ids s)
    (hfresh : ∀ j ∈ ids, j ∉ d.subtree id) :
    Seen d away (ids ++ d.postorder id) (childrenFirst visit.noting n p s id) := by
  induction n generalizing k p id ids s with
  | zero =>
    have hlt := hd.lt_size_of_climb (Document.lt_size_of_parent hid) hk
    omega
  | succ n ih =>
    have hbelow : ∀ j ∈ ids, ¬ d.IsAbove id j := fun j hj habove =>
      hfresh j hj (hd.mem_subtree_iff.2 (.inr habove))
    have hchildren := hs.children_eq hd fun j hj hjid =>
      hbelow j hj (Document.isAbove_of_parent hjid)
    have hwalked : Seen d away (ids ++ (d.children id).flatMap d.postorder)
        ((s.2.children id).foldl (childrenFirst visit.noting n id) s) := by
      rw [hchildren]
      refine Seen.foldl hd (postorder_subset hd) (fun c hc => (hd.mem_children_iff id c).1 hc)
        (hd.nodup_children id) (fun c hc ids s hs hfresh => ?_) hs fun j hj c hc hjc =>
          hbelow j hj (hd.isAbove_of_mem_subtree ((hd.mem_children_iff id c).1 hc) hjc)
      have hc := (hd.mem_children_iff id c).1 hc
      exact ih (k := k + 1) hc ((Document.climb_of_parent hc k).trans hk) (by omega) hs hfresh
    generalize ht : (s.2.children id).foldl (childrenFirst visit.noting n id) s = t at hwalked
    have hnew : id ∉ ids ++ (d.children id).flatMap d.postorder := by
      intro hmem
      rcases List.mem_append.1 hmem with hmem | hmem
      · exact hfresh id hmem (hd.mem_subtree_iff.2 (.inl rfl))
      · obtain ⟨c, hc, hmem⟩ := List.mem_flatMap.1 hmem
        exact hd.not_above_self id (hd.isAbove_of_mem_subtree ((hd.mem_children_iff id c).1 hc)
          (postorder_subset hd c hmem))
    rw [childrenFirst_of_parent ht ((hwalked.parent_eq hnew).trans hid), hd.postorder_eq,
      ← List.append_assoc]
    exact hwalked.settle h id

theorem seen_bottomUp {visit : Visitor σ} (h : visit.Judges away) (t : σ) :
    Seen d away ((d.children root).flatMap d.postorder) (bottomUpNoted visit (t, d)) := by
  rw [← List.nil_append (List.flatMap _ _)]
  refine Seen.foldl hd (postorder_subset hd) (fun c hc => (hd.mem_children_iff root c).1 hc)
    (hd.nodup_children root) (fun c hc ids s hs hfresh => ?_) ⟨rfl, List.forall_mem_nil _, rfl⟩
    (List.forall_mem_nil _)
  have hc := (hd.mem_children_iff root c).1 hc
  refine seen_childrenFirst hd h (k := 1) hc ((Document.climb_one c).trans hc) ?_ hs hfresh
  show d.size ≤ 2 * d.size + 1
  omega

theorem perm_flatMap_postorder :
    ((d.children root).flatMap d.postorder).Perm (d.subtree root).tail := by
  rw [hd.tail_subtree]
  exact List.Perm.flatMap_left _ fun c _ => hd.perm_postorder c

end BottomUp

/-! ## Both walks -/

section Both

variable (hd : d.IsForest)
include hd

theorem settles_topDown (away : Content → Bool) : d.Settles away
    (((d.subtree root).tail.filter (d.isClear away)).filter fun id => away (d.content id)) where
  isAbove j hj := hd.mem_tail_subtree_iff.1 (List.mem_of_mem_filter (List.mem_of_mem_filter hj))
  mem_iff j hj hclear := by
    rw [List.mem_filter, List.mem_filter, and_iff_right ⟨hd.mem_tail_subtree_iff.2 hj, hclear⟩]

theorem settles_bottomUp : d.Settles away
    (((d.children root).flatMap d.postorder).filter fun id => away (d.content id)) where
  isAbove j hj := hd.mem_tail_subtree_iff.1
    ((perm_flatMap_postorder hd).subset (List.mem_of_mem_filter hj))
  mem_iff j hj _ := by
    rw [List.mem_filter, (perm_flatMap_postorder hd).mem_iff,
      and_iff_right (hd.mem_tail_subtree_iff.2 hj)]

/-- To have no node above that is to go is to have none that was unlinked: the topmost of
them was. -/
theorem isClear_iff_notMem {l : List NodeId} (hl : d.Settles away l) (id : NodeId) :
    d.isClear away id = true ↔ ∀ a ∈ d.ancestors id, a ∉ l := by
  constructor
  · intro hclear a ha hmem
    have hup := hd.mem_ancestors_iff.1 ha
    have habove := hl.isAbove a hmem
    have hclear' : d.isClear away a = true := List.all_eq_true.2 fun b hb =>
      List.all_eq_true.1 hclear b
        (hd.mem_ancestors_iff.2 ((hd.mem_ancestors_iff.1 hb).trans hup))
    have hnot := List.all_eq_true.1 hclear a ha
    rw [hd.drops_eq_of_isAbove habove, (hl.mem_iff a habove hclear').1 hmem] at hnot
    cases hnot
  · intro hnone
    induction id using hd.downward with
    | step id ih =>
      cases hp : d.parent id with
      | none =>
        rw [Document.isClear, Document.ancestors_of_parent_none hp]
        rfl
      | some p =>
        rw [hd.ancestors_of_parent hp, List.forall_mem_cons] at hnone
        have hclear := ih p hp hnone.2
        rw [hd.isClear_of_parent hp, Document.isLeft, hclear, Bool.and_true, Bool.not_eq_true']
        refine Bool.eq_false_iff.2 fun hdrops => hnone.1 ?_
        rw [Document.drops, Bool.and_eq_true, List.contains_iff_mem, hd.mem_tail_subtree_iff]
          at hdrops
        exact (hl.mem_iff p hdrops.1 hclear).2 hdrops.2

/-- From the top down, just the nodes below the root that have no dropped node above them
are visited, in document order.  From the bottom up, all nodes below the root are, each
after those below it.  Both walks leave the same tree. -/
theorem visits_and_tree_of_judges {visit : Visitor σ} (h : visit.Judges away) (t : σ) :
    let down := topDownVisits visit (t, d)
    let up := bottomUpVisits visit (t, d)
    down.map (·.id) =
        (d.subtree root).tail.filter (fun id => ∀ a ∈ d.ancestors id, a ∉ Moment.dropped down) ∧
      up.map (·.id) = (d.children root).flatMap d.postorder ∧
      (down.map (·.id)).Nodup ∧ (up.map (·.id)).Nodup ∧
      (up.map (·.id)).Perm (d.subtree root).tail ∧
      (∀ m ∈ down ++ up, m.verdict = if away (d.content m.id) then .drop else .keep) ∧
      d.IsPrunedBy away (topDown visit (t, d)).2 ∧
      d.IsPrunedBy away (bottomUp visit (t, d)).2 := by
  intro down up
  have hdown := seen_topDown hd h t
  have hup := seen_bottomUp hd h t
  have hsettled := settles_topDown hd away
  have hdropped : Moment.dropped down = _ := hdown.dropped_eq
  have hids : down.map (·.id) = (d.subtree root).tail.filter fun id =>
      ∀ a ∈ d.ancestors id, a ∉ Moment.dropped down := by
    refine hdown.visited.trans (List.filter_congr fun id _ => ?_)
    rw [hdropped, Bool.eq_iff_iff, decide_eq_true_iff, isClear_iff_notMem hd hsettled]
  have hvisited : up.map (·.id) = (d.children root).flatMap d.postorder := hup.visited
  have hperm : (up.map (·.id)).Perm (d.subtree root).tail := by
    rw [hvisited]
    exact perm_flatMap_postorder hd
  have hnodup := (hd.nodup_subtree root).tail
  refine ⟨hids, hvisited, ?_, hperm.nodup_iff.2 hnodup, hperm,
    List.forall_mem_append.2 ⟨hdown.judged, hup.judged⟩, ?_, ?_⟩
  · rw [hids]
    exact hnodup.filter _
  · rw [← snd_topDownNoted, hdown.document]
    exact hsettled.isPrunedBy hd
  · rw [← snd_bottomUpNoted, hup.document]
    exact (settles_bottomUp hd).isPrunedBy hd

end Both

/-- A picture with a group, which holds a shape and another group, and a shape beside it. -/
def grouped : Document :=
  let element (name : String) : Content := .element (.bare (.plain name))
  (Branches.node (element "svg")
    (.node (element "g") (.node (element "rect") .nil (.node (element "g") .nil .nil))
      (.node (element "circle") .nil .nil)) .nil).plant root .empty

def isGroup (c : Content) : Bool :=
  c.element?.any (·.isNamed "g")

theorem visits_of_grouped :
    let visit : Visitor Unit := (Visit.dropping isGroup).visitor
    grouped.IsForest ∧ visit.Judges isGroup ∧
      (topDownVisits visit ((), grouped)).map (·.id) = [1, 2, 5] ∧
      (bottomUpVisits visit ((), grouped)).map (·.id) = [3, 4, 2, 5, 1] ∧
      (topDown visit ((), grouped)).2.subtree root = [0, 1, 5] ∧
      (bottomUp visit ((), grouped)).2.subtree root = [0, 1, 5] := by
  have hforest : grouped.IsForest := Branches.isForest_plant _ .empty Nat.zero_lt_one
  have hjudges := Visit.judges_dropping (σ := Unit) isGroup
  obtain ⟨hdown, hup, -, -, -, -, hleft, hleft'⟩ := visits_and_tree_of_judges hforest hjudges ()
  refine ⟨hforest, hjudges, hdown.trans ?_, hup.trans ?_, hleft.subtree_eq.trans ?_,
    hleft'.subtree_eq.trans ?_⟩
  · decide
  · decide
  · decide
  · decide

end Walk
end SvgCompact
