import SvgCompact.Proofs.Document.Lineage

/-!
The moves as operations on lists of children.

A move takes some nodes out of the lists they stand in and puts them, in a row, into one
list, in place of a stretch that may be empty.  `Relinks` says what is there afterwards: the
list that was written, and everywhere else what was there before without the nodes that
were moved.  `relinks_moves` gives the list that each move writes, and `unwrap_in_place`
that of a node which gives way to its children.
-/

namespace SvgCompact
namespace Document

variable {d e : Document} {p c old new id : NodeId} {moved removed row : List NodeId}

/-- The children of a node without some nodes. -/
def childrenBut (d : Document) (p : NodeId) (gone : List NodeId) : List NodeId :=
  (d.children p).filter (· ∉ gone)

/-- Whether `e` is `d` with some nodes moved below `p`, which now lists `row`, and with some
of its children unlinked. -/
structure Relinks (d e : Document) (p : NodeId) (moved removed row : List NodeId) : Prop where
  isForest : e.IsForest
  size_eq : e.size = d.size
  content_eq : ∀ j, e.content j = d.content j
  children_parent : e.children p = row
  children_eq : ∀ j, j ≠ p → e.children j = d.childrenBut j moved
  parent_moved : ∀ j ∈ moved, e.parent j = some p
  parent_removed : ∀ j ∈ removed, e.parent j = none
  parent_eq : ∀ j, j ∉ moved → j ∉ removed → e.parent j = d.parent j

theorem not_mem_of_mem_childrenBut (h : c ∈ d.childrenBut p moved) : c ∉ moved := by
  rw [childrenBut, List.mem_filter] at h
  exact of_decide_eq_true h.2

theorem IsForest.nodup_childrenBut (h : d.IsForest) (p : NodeId) (gone : List NodeId) :
    (d.childrenBut p gone).Nodup :=
  (h.nodup_children p).filter _

/-! ## Exchanging a stretch -/

theorem IsForest.splice_snd (h : d.IsForest) (start stop : Nat) :
    (d.splice p start stop moved).2 = ((d.childrenBut p moved).take stop).drop start := by
  rw [splice_eq, h.children_detachAll]
  rfl

theorem IsForest.children_splice (h : d.IsForest) (hp : p < d.size) (start stop : Nat)
    (j : NodeId) : (d.splice p start stop moved).1.children j =
      if j = p then (d.childrenBut p moved).take start ++ moved ++
        (d.childrenBut p moved).drop (max start stop)
      else d.childrenBut j moved := by
  rw [splice_eq]
  simp only [Document.exchange, children_setParents, children_setChildren, size_detachAll, hp,
    and_true, h.children_detachAll]
  rfl

/-- The places are counted in the list without the nodes that are put in. -/
theorem IsForest.relinks_splice (h : d.IsForest) (hp : p < d.size) (hn : moved.Nodup)
    (hmoved : ∀ c ∈ moved, d.CanHold p c) (start stop : Nat) :
    d.Relinks (d.splice p start stop moved).1 p moved (d.splice p start stop moved).2
      ((d.childrenBut p moved).take start ++ moved ++
        (d.childrenBut p moved).drop (max start stop)) := by
  have hparent := h.parent_splice (p := p) (fun c hc => (hmoved c hc).child_lt) start stop
  have hremoved : (((d.detachAll moved).children p).take stop).drop start =
      (d.splice p start stop moved).2 := rfl
  rw [hremoved] at hparent
  refine ⟨h.splice hp hn hmoved start stop, size_splice .., fun j => content_splice .., ?_,
    fun j hj => ?_, fun j hj => ?_, fun j hj => ?_, fun j hj hj' => ?_⟩
  · rw [h.children_splice hp, if_pos rfl]
  · rw [h.children_splice hp, if_neg hj]
  · rw [hparent, if_pos hj]
  · have hleft : j ∈ d.childrenBut p moved := by
      rw [h.splice_snd] at hj
      exact List.mem_of_mem_take (List.mem_of_mem_drop hj)
    rw [hparent, if_neg (not_mem_of_mem_childrenBut hleft), if_pos hj]
  · rw [hparent, if_neg hj, if_neg hj']

/-! ## Inserting and replacing -/

theorem insertChild_eq_splice (d : Document) (p : NodeId) (i : Nat) (c : NodeId) :
    d.insertChild p i c = (d.splice p i i [c]).1 := by
  have hnone : (((d.detach c).children p).take i).drop i = [] :=
    List.drop_eq_nil_of_le (List.length_take_le _ _)
  show _ = ((((d.detach c).setChildren p _).setParents none
    ((((d.detach c).children p).take i).drop i)).setParents (some p) [c])
  rw [hnone, Nat.max_self, List.append_assoc]
  rfl

theorem insertIdx_eq_append {α : Type} {l : List α} {i : Nat} (hi : i ≤ l.length) (a : α) :
    l.insertIdx i a = l.take i ++ a :: l.drop i := by
  induction l generalizing i with
  | nil =>
    obtain rfl := Nat.le_zero.1 hi
    rfl
  | cons b rest ih =>
    cases i with
    | zero => rfl
    | succ i =>
      rw [List.insertIdx_succ_cons, ih (Nat.le_of_succ_le_succ hi)]
      rfl

theorem IsForest.relinks_insertChild (h : d.IsForest) (hpc : d.CanHold p c) (i : Nat) :
    d.Relinks (d.insertChild p i c) p [c] []
      ((d.childrenBut p [c]).insertIdx (min i (d.childrenBut p [c]).length) c) := by
  have hsplice := h.relinks_splice hpc.parent_lt (List.nodup_singleton c)
    (fun x hx => List.mem_singleton.1 hx ▸ hpc) i i
  have hnone : (d.splice p i i [c]).2 = [] := by
    rw [h.splice_snd]
    exact List.drop_eq_nil_of_le (List.length_take_le _ _)
  rw [hnone, Nat.max_self, List.append_assoc] at hsplice
  rw [insertChild_eq_splice, insertIdx_eq_append (Nat.min_le_right _ _),
    ← List.take_eq_take_min, ← List.drop_eq_drop_min]
  exact hsplice

theorem IsForest.relinks_appendChild (h : d.IsForest) (hpc : d.CanHold p c) :
    d.Relinks (d.appendChild p c) p [c] [] (d.childrenBut p [c] ++ [c]) := by
  have hinsert := h.relinks_insertChild hpc (d.children p).length
  have hle : (d.childrenBut p [c]).length ≤ (d.children p).length := List.length_filter_le _ _
  rw [Nat.min_eq_right hle, List.insertIdx_length_self] at hinsert
  exact hinsert

theorem map_replace_of_nodup {front back : List NodeId} (hn : (front ++ old :: back).Nodup) :
    (front ++ old :: back).map (fun x => if x = old then new else x) =
      front ++ new :: back := by
  rw [List.nodup_middle, List.nodup_cons, List.mem_append, not_or] at hn
  obtain ⟨⟨hfront, hback⟩, -⟩ := hn
  have hkept : ∀ l : List NodeId, old ∉ l →
      l.map (fun x => if x = old then new else x) = l := by
    intro l hl
    have hsame : l.map (fun x => if x = old then new else x) = l.map fun x => x := by
      apply List.map_congr_left
      intro x hx
      rw [if_neg (by rintro rfl; exact hl hx)]
    rw [hsame, List.map_id']
  rw [List.map_append, List.map_cons, hkept front hfront, hkept back hback, if_pos rfl]

theorem IsForest.relinks_replaceChild (h : d.IsForest) (hold : d.parent old = some p)
    (hne : new ≠ old) (hpc : d.CanHold p new) :
    (d.replaceChild p old new).2 = true ∧
      d.Relinks (d.replaceChild p old new).1 p [new] [old]
        ((d.childrenBut p [new]).map fun x => if x = old then new else x) := by
  obtain ⟨front, back, hs, hr⟩ := h.replaceChild_of_parent hold (Ne.symm hne)
  have hforest : (d.replaceChild p old new).1.IsForest := h.replaceChild fun _ _ => hpc
  have hchildren : ∀ j, (d.detach new).children j = d.childrenBut j [new] :=
    h.children_detachAll [new]
  have hnodup := h.nodup_childrenBut p [new]
  rw [hchildren] at hs
  rw [hs] at hnodup ⊢
  rw [hr] at hforest ⊢
  have hparent : ∀ j, ((((d.detach new).setChildren p (front ++ new :: back)).setParent new
      (some p)).setParent old none).parent j =
        if j = old then none else if j = new then some p else d.parent j := by
    intro j
    simp only [parent_setParent, parent_setChildren, parent_detach, size_setParent,
      size_setChildren, size_detach, lt_size_of_parent hold, hpc.child_lt, and_true]
    split_ifs <;> rfl
  refine ⟨rfl, hforest, by simp, fun j => by simp, ?_, fun j hj => ?_, fun j hj => ?_,
    fun j hj => ?_, fun j hj hj' => ?_⟩
  · rw [map_replace_of_nodup hnodup, children_setParent, children_setParent, children_setChildren,
      if_pos ⟨rfl, (size_detach d new).symm ▸ hpc.parent_lt⟩]
  · rw [children_setParent, children_setParent, children_setChildren, if_neg fun hjp => hj hjp.1,
      hchildren]
  · obtain rfl := List.mem_singleton.1 hj
    rw [hparent, if_neg hne, if_pos rfl]
  · rw [hparent, if_pos (List.mem_singleton.1 hj)]
  · rw [hparent, if_neg fun heq => hj' (List.mem_singleton.2 heq),
      if_neg fun heq => hj (List.mem_singleton.2 heq)]

/-! ## The moves -/

theorem extract_min_length {α : Type} (l : List α) (start stop : Nat) :
    l.extract (min start l.length) (min stop l.length) = (l.take stop).drop start := by
  rw [List.extract_eq_take_drop, ← List.drop_take, ← List.take_eq_take_min]
  rcases Nat.le_total start l.length with hle | hle
  · rw [Nat.min_eq_left hle]
  · have hshort : (l.take stop).length ≤ l.length := List.length_take_le' stop l
    rw [Nat.min_eq_right hle, List.drop_eq_nil_of_le hshort,
      List.drop_eq_nil_of_le (Nat.le_trans hshort hle)]

/-- What the moves below `p` make of the lists of children.  The places to insert and to cut
at are counted once the moved nodes are gone, and past the end they mean the end. -/
theorem IsForest.relinks_moves (h : d.IsForest) (p : NodeId) :
    (∀ i c, d.CanHold p c → d.Relinks (d.insertChild p i c) p [c] []
      ((d.childrenBut p [c]).insertIdx (min i (d.childrenBut p [c]).length) c)) ∧
    (∀ c, d.CanHold p c →
      d.Relinks (d.appendChild p c) p [c] [] (d.childrenBut p [c] ++ [c])) ∧
    (∀ old new, d.parent old = some p → new ≠ old → d.CanHold p new →
      (d.replaceChild p old new).2 = true ∧ d.Relinks (d.replaceChild p old new).1 p [new] [old]
        ((d.childrenBut p [new]).map fun x => if x = old then new else x)) ∧
    ∀ start stop nodes, start ≤ stop → p < d.size → nodes.Nodup →
      (∀ c ∈ nodes, d.CanHold p c) →
      (d.splice p start stop nodes).2 = (d.childrenBut p nodes).extract
        (min start (d.childrenBut p nodes).length) (min stop (d.childrenBut p nodes).length) ∧
      d.Relinks (d.splice p start stop nodes).1 p nodes (d.splice p start stop nodes).2
        ((d.childrenBut p nodes).take (min start (d.childrenBut p nodes).length) ++ nodes ++
          (d.childrenBut p nodes).drop (min stop (d.childrenBut p nodes).length)) := by
  refine ⟨fun i c hpc => h.relinks_insertChild hpc i, fun c hpc => h.relinks_appendChild hpc,
    fun old new hold hne hpc => h.relinks_replaceChild hold hne hpc, ?_⟩
  intro start stop nodes hle hp hn hnodes
  have hsplice := h.relinks_splice hp hn hnodes start stop
  rw [Nat.max_eq_right hle] at hsplice
  rw [extract_min_length, ← List.take_eq_take_min, ← List.drop_eq_drop_min]
  exact ⟨h.splice_snd start stop, hsplice⟩

/-- A node with three children, of which the second has a child. -/
def fork : Document :=
  (((((Document.empty.append root (.text "a")).1.append 1 (.text "b")).1.append 1
    (.text "c")).1.append 1 (.text "d")).1.append 3 (.text "e")).1

theorem isForest_fork : fork.IsForest :=
  ((((IsForest.empty.append _ (by decide)).append _ (by decide)).append _ (by decide)).append _
    (by decide)).append _ (by decide)

theorem canHold_fork {c : NodeId} (hc : c = 4 ∨ c = 5) : fork.CanHold 1 c := by
  refine ⟨by decide, ?_, ?_, fun ha => ?_⟩
  · rcases hc with rfl | rfl <;> decide
  · rcases hc with rfl | rfl <;> decide
  · rcases (isAbove_iff_of_parent (p := root) rfl).1 ha with rfl | ha
    · rcases hc with hc | hc <;> cases hc
    · exact not_isAbove_of_parent_none rfl ha

/-- A child moves within its list, the child of a child takes the place of its parent, and a
child is put in place of a stretch that it was part of. -/
theorem relinks_moves_fork :
    (fork.insertChild 1 1 4).children 1 = [2, 4, 3] ∧
      (fork.appendChild 1 4).children 1 = [2, 3, 4] ∧
      (fork.replaceChild 1 3 5).1.children 1 = [2, 5, 4] ∧
      (fork.replaceChild 1 3 5).1.parent 3 = none ∧
      (fork.splice 1 1 3 [5, 4]).2 = [3] ∧
      (fork.splice 1 1 3 [5, 4]).1.children 1 = [2, 5, 4] := by
  obtain ⟨hinsert, happend, hreplace, hsplice⟩ := isForest_fork.relinks_moves 1
  have hinserted := hinsert 1 4 (canHold_fork (.inl rfl))
  have happended := happend 4 (canHold_fork (.inl rfl))
  have hreplaced := hreplace 3 5 rfl (by decide) (canHold_fork (.inr rfl))
  have hspliced := hsplice 1 3 [5, 4] (by decide) (by decide) (by decide) fun c hc =>
    canHold_fork (by simpa [or_comm] using hc)
  exact ⟨hinserted.children_parent, happended.children_parent, hreplaced.2.children_parent,
    hreplaced.2.parent_removed 3 (by decide), hspliced.1, hspliced.2.children_parent⟩

/-! ## Giving way to the children -/

/-- The children of a node are listed nowhere else. -/
theorem IsForest.childrenBut_children (h : d.IsForest) {j : NodeId} (hj : j ≠ old) :
    d.childrenBut j (d.children old) = d.children j := by
  rw [childrenBut, List.filter_eq_self]
  intro c hc
  rw [decide_eq_true_eq, h.mem_children_iff, (h.mem_children_iff j c).1 hc]
  exact fun heq => hj (Option.some.inj heq)

theorem childrenBut_self (d : Document) (id : NodeId) : d.childrenBut id (d.children id) = [] :=
  List.filter_eq_nil_iff.2 fun c hc => by simpa using hc

theorem IsForest.relinks_unwrap (h : d.IsForest) (hold : d.parent old = some p) :
    ∃ front back, d.children p = front ++ old :: back ∧
      d.Relinks (d.unwrap old) p (d.children old) [old] (front ++ d.children old ++ back) := by
  obtain ⟨front, back, hs, hchildren⟩ := h.children_unwrap hold
  have hparent := h.parent_unwrap hold
  refine ⟨front, back, hs, h.unwrap old, size_unwrap d old, content_unwrap d old, ?_,
    fun j hj => ?_, fun j hj => ?_, fun j hj => ?_, fun j hj hj' => ?_⟩
  · rw [hchildren, if_pos rfl]
  · rw [hchildren, if_neg hj]
    split
    · next heq => rw [heq, childrenBut_self]
    · next hne => rw [h.childrenBut_children hne]
  · rw [hparent, if_pos ((h.mem_children_iff old j).1 hj)]
  · obtain rfl := List.mem_singleton.1 hj
    rw [hparent, if_neg (h.parent_ne_self j), if_pos rfl]
  · rw [h.mem_children_iff] at hj
    rw [hparent, if_neg hj, if_neg fun heq => hj' (List.mem_singleton.2 heq)]

/-- A node of the document gives way to its children: it goes out of the document order and
nothing else does, and its children stand where it stood. -/
theorem IsForest.unwrap_in_place (h : d.IsForest) (id : NodeId) :
    (id ∈ d.subtree root → id ≠ root → ∃ p front back,
      d.parent id = some p ∧ d.children p = front ++ id :: back ∧
        (d.unwrap id).subtree root = (d.subtree root).erase id ∧
        d.Relinks (d.unwrap id) p (d.children id) [id] (front ++ d.children id ++ back) ∧
        (d.unwrap id).children id = [] ∧
        ∀ j, j ≠ p → j ≠ id → (d.unwrap id).children j = d.children j) ∧
      (d.parent id = none → d.unwrap id = d) := by
  refine ⟨fun hid hroot => ?_, unwrap_of_parent_none⟩
  obtain ⟨p, hp, -⟩ := (h.mem_subtree_iff_parent.1 hid).resolve_left hroot
  obtain ⟨front, back, hs, hrelinks⟩ := h.relinks_unwrap hp
  refine ⟨p, front, back, hp, hs, ?_, hrelinks, ?_, fun j hjp hj => ?_⟩
  · rw [h.subtree_unwrap (Ne.symm hroot), (h.nodup_subtree root).erase_eq_filter]
  · have hne : id ≠ p := fun heq => h.parent_ne_self id (hp.trans (congrArg some heq.symm))
    rw [hrelinks.children_eq id hne, childrenBut_self]
  · rw [hrelinks.children_eq j hjp, h.childrenBut_children hj]

theorem unwrap_in_place_fork :
    3 ∈ fork.subtree root ∧ (fork.unwrap 3).subtree root = [0, 1, 2, 5, 4] ∧
      (fork.unwrap 3).parent 3 = none ∧ (fork.unwrap 3).children 3 = [] ∧
      fork.unwrap root = fork := by
  have hmem : 3 ∈ fork.subtree root := by decide
  obtain ⟨p, front, back, -, -, hsubtree, hrelinks, hnil, -⟩ :=
    (isForest_fork.unwrap_in_place 3).1 hmem (by decide)
  exact ⟨hmem, hsubtree, hrelinks.parent_removed 3 (by decide), hnil,
    (isForest_fork.unwrap_in_place root).2 rfl⟩

end Document
end SvgCompact
