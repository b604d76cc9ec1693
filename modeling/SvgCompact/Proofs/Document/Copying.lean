import SvgCompact.Proofs.Document.Lineage
import SvgCompact.Proofs.Document.Relinking

/-!
Copies of nodes with all that is below them.

A set of nodes is isolated in a document if no link leads into it or out of it, and if the
nodes that are yet to come count as nodes of it.  What is done to nodes of an isolated set,
be it a legal move or not, leaves the other nodes as they are and the set isolated.  This is
shown of each write to one node, from them of each move, and from these of a whole run.

The new nodes of a copy stand in a row at the end of the table, in the document order of
what is copied.  `CopiesRow` says so of a row of nodes and is carried through the copying of
one child after another: two rows are joined by one link.  What is done to the copy
afterwards is not seen at the original, and the other way round, since no link connects the
two (`copy_stands_apart`).
-/

namespace SvgCompact
namespace Document

variable {P : NodeId → Prop} {d e f : Document} {p c id old new : NodeId} {ids : List NodeId}

/-- Whether no link connects a node of a set with another node, where every number that is
not taken yet belongs to the set. -/
structure IsIsolated (P : NodeId → Prop) (d : Document) : Prop where
  of_size_le : ∀ j, d.size ≤ j → P j
  iff_of_parent : ∀ p c, d.parent c = some p → (P p ↔ P c)
  iff_of_child : ∀ p c, c ∈ d.children p → (P p ↔ P c)

/-- Whether `e` differs from `d` at nodes of an isolated set only. -/
structure ActsWithin (P : NodeId → Prop) (d e : Document) : Prop where
  isIsolated : IsIsolated P e
  size_le : d.size ≤ e.size
  content_eq : ∀ j, ¬ P j → e.content j = d.content j
  parent_eq : ∀ j, ¬ P j → e.parent j = d.parent j
  children_eq : ∀ j, ¬ P j → e.children j = d.children j

/-- New links between nodes of the set leave it isolated. -/
theorem IsIsolated.of_linked (h : IsIsolated P d) (hsize : d.size ≤ e.size)
    (hparent : ∀ p c, e.parent c = some p → d.parent c = some p ∨ (P p ∧ P c))
    (hchildren : ∀ p c, c ∈ e.children p → c ∈ d.children p ∨ (P p ∧ P c)) : IsIsolated P e := by
  refine ⟨fun j hj => h.of_size_le j (Nat.le_trans hsize hj), fun p c hc => ?_, fun p c hc => ?_⟩
  · rcases hparent p c hc with hc | hlinked
    · exact h.iff_of_parent p c hc
    · exact iff_of_true hlinked.1 hlinked.2
  · rcases hchildren p c hc with hc | hlinked
    · exact h.iff_of_child p c hc
    · exact iff_of_true hlinked.1 hlinked.2

namespace ActsWithin

theorem refl (h : IsIsolated P d) : ActsWithin P d d :=
  ⟨h, Nat.le_refl _, fun _ _ => rfl, fun _ _ => rfl, fun _ _ => rfl⟩

theorem trans (h : ActsWithin P d e) (h' : ActsWithin P e f) : ActsWithin P d f where
  isIsolated := h'.isIsolated
  size_le := Nat.le_trans h.size_le h'.size_le
  content_eq j hj := (h'.content_eq j hj).trans (h.content_eq j hj)
  parent_eq j hj := (h'.parent_eq j hj).trans (h.parent_eq j hj)
  children_eq j hj := (h'.children_eq j hj).trans (h.children_eq j hj)

/-- What is done next starts from an isolated set again. -/
theorem andThen (h : ActsWithin P d e) (h' : IsIsolated P e → ActsWithin P e f) :
    ActsWithin P d f :=
  h.trans (h' h.isIsolated)

/-- What is done within a set is done within every larger one that is isolated. -/
theorem weaken {Q : NodeId → Prop} (h : ActsWithin P d e) (hQ : IsIsolated Q d)
    (hPQ : ∀ j, P j → Q j) : ActsWithin Q d e where
  isIsolated := by
    refine hQ.of_linked h.size_le (fun p c hc => ?_) fun p c hc => ?_
    · by_cases hP : P c
      · exact .inr ⟨hPQ p ((h.isIsolated.iff_of_parent p c hc).2 hP), hPQ c hP⟩
      · exact .inl (h.parent_eq c hP ▸ hc)
    · by_cases hP : P p
      · exact .inr ⟨hPQ p hP, hPQ c ((h.isIsolated.iff_of_child p c hc).1 hP)⟩
      · exact .inl (h.children_eq p hP ▸ hc)
  size_le := h.size_le
  content_eq j hj := h.content_eq j fun hP => hj (hPQ j hP)
  parent_eq j hj := h.parent_eq j fun hP => hj (hPQ j hP)
  children_eq j hj := h.children_eq j fun hP => hj (hPQ j hP)

/-- The document order below the other nodes stays. -/
theorem subtree_eq (h : ActsWithin P d e) (hP : IsIsolated P d) (hd : d.IsForest)
    (he : e.IsForest) {j : NodeId} (hj : ¬ P j) : e.subtree j = d.subtree j := by
  induction j using hd.upward with
  | step j ih =>
    rw [he.subtree_eq, hd.subtree_eq, h.children_eq j hj]
    refine congrArg _ (List.flatMap_congr fun c hc => ih c hc ?_)
    exact fun hc' => hj ((hP.iff_of_child j c hc).2 hc')

end ActsWithin

/-- In a forest it is enough to look at links from children to parents. -/
theorem IsForest.isIsolated (h : d.IsForest) (hnew : ∀ j, d.size ≤ j → P j)
    (hparent : ∀ p c, d.parent c = some p → p < d.size → c < d.size → (P p ↔ P c)) :
    IsIsolated P d := by
  have hboth : ∀ p c, d.parent c = some p → (P p ↔ P c) := fun p c hc =>
    hparent p c hc (lt_size_of_mem_children ((h.mem_children_iff p c).2 hc)) (lt_size_of_parent hc)
  exact ⟨hnew, hboth, fun p c hc => hboth p c ((h.mem_children_iff p c).1 hc)⟩

/-- Of the nodes that are there none is linked to one that is yet to come. -/
theorem IsForest.isIsolated_new (h : d.IsForest) : IsIsolated (d.size ≤ ·) d :=
  h.isIsolated (fun _ hj => hj) fun _ _ _ hp hc =>
    iff_of_false (Nat.not_le_of_lt hp) (Nat.not_le_of_lt hc)

namespace IsIsolated

/-- With the nodes that are yet to come, the other side is isolated as well. -/
theorem compl (h : IsIsolated P d) (hd : d.IsForest) :
    IsIsolated (fun j => ¬ P j ∨ d.size ≤ j) d := by
  refine hd.isIsolated (fun _ hj => .inr hj) fun p c hpc hp hc => ?_
  rw [or_iff_left (Nat.not_le_of_lt hp), or_iff_left (Nat.not_le_of_lt hc),
    h.iff_of_parent p c hpc]

variable (h : IsIsolated P d)
include h

/-! ## Writing to one node -/

theorem create (content : Content) : ActsWithin P d (d.create content).1 where
  isIsolated := h.of_linked (by simp) (fun p c hc => .inl (by rwa [parent_create] at hc))
    fun p c hc => .inl (by rwa [children_create] at hc)
  size_le := by rw [size_create]; exact Nat.le_succ _
  content_eq j hj := by
    rw [content_create, if_neg]
    rintro rfl
    exact hj (h.of_size_le _ (Nat.le_refl _))
  parent_eq j _ := parent_create d j content
  children_eq j _ := children_create d j content

theorem setContent (hid : P id) (content : Content) :
    ActsWithin P d (d.setContent id content) where
  isIsolated := h.of_linked (by simp) (fun p c hc => .inl (by rwa [parent_setContent] at hc))
    fun p c hc => .inl (by rwa [children_setContent] at hc)
  size_le := Nat.le_of_eq (size_setContent ..).symm
  content_eq j hj := by
    rw [content_setContent, if_neg]
    rintro ⟨rfl, -⟩
    exact hj hid
  parent_eq j _ := parent_setContent d id j content
  children_eq j _ := children_setContent d id j content

theorem setParent (hid : P id) {q : Option NodeId} (hq : ∀ p, q = some p → P p) :
    ActsWithin P d (d.setParent id q) where
  isIsolated := by
    refine h.of_linked (by simp) (fun p c hc => ?_) fun p c hc => .inl ?_
    · rw [parent_setParent] at hc
      split at hc
      · next hcid => exact .inr ⟨hq p hc, hcid.1 ▸ hid⟩
      · exact .inl hc
    · rwa [children_setParent] at hc
  size_le := Nat.le_of_eq (size_setParent ..).symm
  content_eq j _ := content_setParent d id j q
  parent_eq j hj := by
    rw [parent_setParent, if_neg]
    rintro ⟨rfl, -⟩
    exact hj hid
  children_eq j _ := children_setParent d id j q

theorem setChildren (hid : P id) (hids : ∀ c ∈ ids, P c) :
    ActsWithin P d (d.setChildren id ids) where
  isIsolated := by
    refine h.of_linked (by simp) (fun p c hc => .inl ?_) fun p c hc => ?_
    · rwa [parent_setChildren] at hc
    · rw [children_setChildren] at hc
      split at hc
      · next hpid => exact .inr ⟨hpid.1 ▸ hid, hids c hc⟩
      · exact .inl hc
  size_le := Nat.le_of_eq (size_setChildren ..).symm
  content_eq j _ := content_setChildren d id j ids
  parent_eq j _ := parent_setChildren d id j ids
  children_eq j hj := by
    rw [children_setChildren, if_neg]
    rintro ⟨rfl, -⟩
    exact hj hid

/-! ## Unlinking and linking -/

theorem of_mem_children (hp : P p) (hc : c ∈ d.children p) : P c :=
  (h.iff_of_child p c hc).1 hp

theorem detach (hid : P id) : ActsWithin P d (d.detach id) := by
  cases hp : d.parent id with
  | none =>
    rw [detach_of_parent_none hp]
    exact .refl h
  | some p =>
    rw [detach_of_parent hp]
    have hpP : P p := (h.iff_of_parent p id hp).2 hid
    refine (h.setParent hid fun q hq => ?_).andThen fun h' => h'.setChildren hpP fun c hc => ?_
    · cases hq
    · exact h.of_mem_children hpP (List.mem_of_mem_filter hc)

theorem detachAll (hids : ∀ c ∈ ids, P c) : ActsWithin P d (d.detachAll ids) := by
  induction ids generalizing d with
  | nil => exact .refl h
  | cons id rest ih =>
    exact (h.detach (hids id List.mem_cons_self)).andThen fun h' =>
      ih h' fun c hc => hids c (List.mem_cons_of_mem id hc)

theorem setParents {q : Option NodeId} (hq : ∀ p, q = some p → P p) (hids : ∀ c ∈ ids, P c) :
    ActsWithin P d (d.setParents q ids) := by
  induction ids generalizing d with
  | nil => exact .refl h
  | cons id rest ih =>
    exact (h.setParent (hids id List.mem_cons_self) hq).andThen fun h' =>
      ih h' fun c hc => hids c (List.mem_cons_of_mem id hc)

theorem exchange (hp : P p) (hids : ∀ c ∈ ids, P c) (start stop : Nat) :
    ActsWithin P d (d.exchange p start stop ids) := by
  have hrow : ∀ c ∈ (d.children p).take start ++ ids ++ (d.children p).drop (max start stop),
      P c := by
    intro c hc
    rw [List.mem_append, List.mem_append] at hc
    rcases hc with (hc | hc) | hc
    · exact h.of_mem_children hp (List.mem_of_mem_take hc)
    · exact hids c hc
    · exact h.of_mem_children hp (List.mem_of_mem_drop hc)
  have hremoved : ∀ c ∈ ((d.children p).take stop).drop start, P c := fun c hc =>
    h.of_mem_children hp (List.mem_of_mem_take (List.mem_of_mem_drop hc))
  refine ((h.setChildren hp hrow).andThen fun h' =>
    h'.setParents (fun q hq => ?_) hremoved).andThen fun h' => h'.setParents (fun q hq => ?_) hids
  · cases hq
  · exact Option.some.inj hq ▸ hp

theorem splice (hp : P p) (hids : ∀ c ∈ ids, P c) (start stop : Nat) :
    ActsWithin P d (d.splice p start stop ids).1 :=
  (h.detachAll hids).andThen fun h' => h'.exchange hp hids start stop

theorem link (hp : P p) (hc : P c) (hids : ∀ x ∈ ids, P x) :
    ActsWithin P d ((d.setChildren p ids).setParent c (some p)) :=
  (h.setChildren hp hids).andThen fun h' => h'.setParent hc fun _ hq => Option.some.inj hq ▸ hp

theorem insertChild (hp : P p) (hc : P c) (i : Nat) : ActsWithin P d (d.insertChild p i c) := by
  refine (h.detach hc).andThen fun h' => h'.link hp hc fun x hx => ?_
  rw [List.mem_append, List.mem_cons] at hx
  rcases hx with hx | rfl | hx
  · exact h'.of_mem_children hp (List.mem_of_mem_take hx)
  · exact hc
  · exact h'.of_mem_children hp (List.mem_of_mem_drop hx)

theorem append (hp : P p) (content : Content) : ActsWithin P d (d.append p content).1 :=
  (h.create content).andThen fun h' => h'.insertChild hp (h.of_size_le _ (Nat.le_refl _)) _

theorem removeChild (hc : P c) (p : NodeId) : ActsWithin P d (d.removeChild p c).1 := by
  rw [Document.removeChild]
  split
  · exact h.detach hc
  · exact .refl h

theorem replaceChild (hp : P p) (hold : P old) (hnew : P new) :
    ActsWithin P d (d.replaceChild p old new).1 := by
  rw [Document.replaceChild]
  split
  · exact .refl h
  · refine (h.detach hnew).andThen fun h' => ?_
    cases hi : (d.detach new).indexInParent? old with
    | none =>
      simp only [hi]
      exact .refl h'
    | some i =>
      simp only [hi]
      refine (h'.link hp hnew fun x hx => ?_).andThen fun hlinked =>
        hlinked.setParent hold fun q hq => by cases hq
      rcases List.mem_or_eq_of_mem_set hx with hx | rfl
      · exact h'.of_mem_children hp hx
      · exact hnew

theorem unwrap (hid : P id) : ActsWithin P d (d.unwrap id) := by
  rw [Document.unwrap]
  split
  · next p i hp _ =>
    exact (h.setChildren hid (List.forall_mem_nil _)).andThen fun h' =>
      h'.splice ((h.iff_of_parent p id hp).2 hid) (fun c hc => h.of_mem_children hid hc) i (i + 1)
  · exact .refl h

/-- A copy is linked with itself only, whatever is copied. -/
theorem copyWithin (n : Nat) (id : NodeId) :
    ActsWithin P d (copyWithin n d id).1 ∧ P (copyWithin n d id).2 := by
  induction n generalizing d id with
  | zero => exact ⟨h.create _, h.of_size_le _ (Nat.le_refl _)⟩
  | succ n ih =>
    have hcopy : P d.size := h.of_size_le _ (Nat.le_refl _)
    have hstart := h.create (d.content id)
    refine ⟨hstart.trans ?_, hcopy⟩
    refine List.foldlRecOn (motive := ActsWithin P (d.create (d.content id)).1) _ _
      (.refl hstart.isIsolated) fun e he child _ => ?_
    obtain ⟨hchild, hnew⟩ := ih he.isIsolated child
    exact (he.trans hchild).andThen fun h' => h'.insertChild hcopy hnew _

end IsIsolated

/-! ## Runs of actions -/

/-- The nodes that a move is asked to touch. -/
def Move.nodes : Move → List NodeId
  | create _ => []
  | append parent _ => [parent]
  | appendChild parent child => [parent, child]
  | insertChild parent _ child => [parent, child]
  | removeChild parent child => [parent, child]
  | replaceChild parent old new => [parent, old, new]
  | splice parent _ _ replacement => parent :: replacement
  | detach id => [id]
  | unwrap id => [id]
  | reorder parent order => parent :: order
  | copy id => [id]

/-- A move, or a change to what one node holds. -/
inductive Action
  | move (m : Move)
  | write (id : NodeId) (content : Content)

namespace Action

def nodes : Action → List NodeId
  | move m => m.nodes
  | write id _ => [id]

def run (d : Document) : Action → Document
  | move m => m.run d
  | write id content => d.setContent id content

def runAll (d : Document) (actions : List Action) : Document :=
  actions.foldl run d

end Action

namespace IsIsolated

variable (h : IsIsolated P d)
include h

theorem move (m : Move) (hm : ∀ j ∈ m.nodes, P j) : ActsWithin P d (m.run d) := by
  cases m with
  | create content => exact h.create content
  | append parent content => exact h.append (hm parent (by simp [Move.nodes])) content
  | appendChild parent child =>
    exact h.insertChild (hm parent (by simp [Move.nodes])) (hm child (by simp [Move.nodes])) _
  | insertChild parent index child =>
    exact h.insertChild (hm parent (by simp [Move.nodes])) (hm child (by simp [Move.nodes])) index
  | removeChild parent child => exact h.removeChild (hm child (by simp [Move.nodes])) parent
  | replaceChild parent old new =>
    exact h.replaceChild (hm parent (by simp [Move.nodes])) (hm old (by simp [Move.nodes]))
      (hm new (by simp [Move.nodes]))
  | splice parent start stop replacement =>
    exact h.splice (hm parent List.mem_cons_self)
      (fun c hc => hm c (List.mem_cons_of_mem parent hc)) start stop
  | detach id => exact h.detach (hm id (by simp [Move.nodes]))
  | unwrap id => exact h.unwrap (hm id (by simp [Move.nodes]))
  | reorder parent order =>
    exact h.setChildren (hm parent List.mem_cons_self)
      fun c hc => hm c (List.mem_cons_of_mem parent hc)
  | copy id => exact (h.copyWithin d.size id).1

theorem run (a : Action) (ha : ∀ j ∈ a.nodes, P j) : ActsWithin P d (a.run d) := by
  cases a with
  | move m => exact h.move m ha
  | write id content => exact h.setContent (ha id List.mem_cons_self) content

theorem runAll (actions : List Action) (ha : ∀ a ∈ actions, ∀ j ∈ a.nodes, P j) :
    ActsWithin P d (Action.runAll d actions) := by
  induction actions generalizing d with
  | nil => exact .refl h
  | cons a rest ih =>
    exact (h.run a (ha a List.mem_cons_self)).andThen fun h' =>
      ih h' fun b hb => ha b (List.mem_cons_of_mem a hb)

end IsIsolated

end Document

/-! ## Copies -/

namespace Document

variable {d e e' : Document} {id c j : NodeId} {row row' : List NodeId}
variable {below below' : NodeId → List NodeId}

/-! ## Places in a row -/

/-- The number of a node of a row when the row is numbered from `n` on. -/
def placed (n : Nat) (row : List NodeId) (j : NodeId) : NodeId :=
  n + row.idxOf j

theorem le_placed (n : Nat) (row : List NodeId) (j : NodeId) : n ≤ placed n row j :=
  Nat.le_add_right n _

theorem placed_lt (n : Nat) (hj : j ∈ row) : placed n row j < n + row.length :=
  Nat.add_lt_add_left (List.idxOf_lt_length_of_mem hj) n

theorem placed_head (n : Nat) (id : NodeId) (row : List NodeId) : placed n (id :: row) id = n := by
  rw [placed, List.idxOf_cons_self, Nat.add_zero]

theorem lt_placed_of_ne (n : Nat) (hj : j ≠ id) : n < placed n (id :: row) j := by
  rw [placed, List.idxOf_cons_ne _ (Ne.symm hj)]
  omega

theorem placed_append_left (n : Nat) (hj : j ∈ row) :
    placed n (row ++ row') j = placed n row j := by
  rw [placed, List.idxOf_append_of_mem hj, placed]

theorem placed_append_right (n : Nat) (hj : j ∉ row) :
    placed n (row ++ row') j = placed (n + row.length) row' j := by
  rw [placed, List.idxOf_append_of_notMem hj, placed, Nat.add_assoc]

theorem map_placed (n : Nat) (h : row.Nodup) :
    row.map (placed n row) = List.range' n row.length := by
  apply List.ext_getElem
  · rw [List.length_map, List.length_range']
  · intro i hi hi'
    rw [List.getElem_map, List.getElem_range', placed, h.idxOf_getElem, Nat.one_mul]

/-! ## Rows of copies -/

/-- Whether what `e` has beyond `d` are copies of the nodes of a row, with the children that
are given by `below`. -/
structure CopiesRow (d e : Document) (row : List NodeId) (below : NodeId → List NodeId) :
    Prop where
  isForest : e.IsForest
  within : ActsWithin (d.size ≤ ·) d e
  size_eq : e.size = d.size + row.length
  parent_first : e.parent d.size = none
  content_eq : ∀ j ∈ row, e.content (placed d.size row j) = d.content j
  children_eq : ∀ j ∈ row, e.children (placed d.size row j) = (below j).map (placed d.size row)

theorem IsForest.copiesRow_create (h : d.IsForest) (id : NodeId) (hid : below id = []) :
    CopiesRow d (d.create (d.content id)).1 [id] below where
  isForest := h.create _
  within := h.isIsolated_new.create _
  size_eq := size_create d _
  parent_first := (parent_create ..).trans (parent_of_size_le (Nat.le_refl _))
  content_eq j hj := by
    obtain rfl := List.mem_singleton.1 hj
    rw [placed_head, content_create, if_pos rfl]
  children_eq j hj := by
    obtain rfl := List.mem_singleton.1 hj
    rw [placed_head, children_create, hid]
    exact children_of_size_le (Nat.le_refl _)

/-- A node that stands in no list is missed in none. -/
theorem IsForest.childrenBut_of_parent_none (h : d.IsForest) (hc : d.parent c = none)
    (p : NodeId) : d.childrenBut p [c] = d.children p := by
  rw [childrenBut, List.filter_eq_self]
  intro x hx
  rw [decide_eq_true_eq, List.mem_singleton]
  rintro rfl
  rw [h.mem_children_iff, hc] at hx
  cases hx

namespace CopiesRow

theorem congr (h : CopiesRow d e row below) (hbelow : ∀ j ∈ row, below j = below' j) :
    CopiesRow d e row below' :=
  ⟨h.isForest, h.within, h.size_eq, h.parent_first, h.content_eq, fun j hj =>
    (h.children_eq j hj).trans (by rw [hbelow j hj])⟩

/-- The old nodes have below them what they had. -/
theorem subtree_eq (h : CopiesRow d e row below) (hd : d.IsForest) (hj : j < d.size) :
    e.subtree j = d.subtree j :=
  h.within.subtree_eq hd.isIsolated_new hd h.isForest (Nat.not_le_of_lt hj)

theorem size_lt (h : CopiesRow d e (id :: row) below) : d.size < e.size := by
  rw [h.size_eq, List.length_cons]
  omega

section Join

variable (h : CopiesRow d e (id :: row) below) (h' : CopiesRow e e' (c :: row') below)
include h h'

/-- The first node of a row that was copied after another goes below the first node of that
one. -/
theorem relinks_appendChild : Relinks e' (e'.appendChild d.size e.size) d.size [e.size] []
    (e'.children d.size ++ [e.size]) := by
  have hfirst : e'.parent d.size = none :=
    (h'.within.parent_eq _ (Nat.not_le_of_lt h.size_lt)).trans h.parent_first
  have hlinked := h'.isForest.relinks_appendChild (p := d.size) (c := e.size)
    ⟨Nat.lt_trans h.size_lt h'.size_lt, h'.size_lt, Nat.ne_of_gt h.size_lt,
      not_isAbove_of_parent_none hfirst⟩
  rwa [h'.isForest.childrenBut_of_parent_none h'.parent_first] at hlinked

theorem children_appendChild {k : NodeId} (hk : k ≠ d.size) :
    (e'.appendChild d.size e.size).children k = e'.children k :=
  ((relinks_appendChild h h').children_eq k hk).trans
    (h'.isForest.childrenBut_of_parent_none h'.parent_first k)

theorem within_appendChild :
    ActsWithin (d.size ≤ ·) d (e'.appendChild d.size e.size) := by
  have hle : d.size ≤ e.size := Nat.le_of_lt h.size_lt
  have hlater := h'.within.weaken h.within.isIsolated fun _ hj => Nat.le_trans hle hj
  exact (h.within.trans hlater).andThen fun hnew => hnew.insertChild (Nat.le_refl _) hle _

/-- The two rows are one row then.  The places of the first stay, and those of the second go
on from there. -/
theorem join (hlt : ∀ j ∈ c :: row', j < d.size) (hnodup : (id :: row ++ c :: row').Nodup)
    (hbelow : ∀ j ∈ id :: row, ∀ x ∈ below j, x ∈ id :: row)
    (hbelow' : ∀ j ∈ c :: row', ∀ x ∈ below j, x ∈ c :: row') :
    CopiesRow d (e'.appendChild d.size e.size) (id :: row ++ c :: row')
      (Function.update below id (below id ++ [c])) := by
  have hlinked := relinks_appendChild h h'
  have hapart := (List.nodup_append.1 hnodup).2.2
  have hleft : ∀ j ∈ id :: row, placed d.size (id :: row ++ c :: row') j =
      placed d.size (id :: row) j := fun j hj => placed_append_left _ hj
  have hright : ∀ j ∈ c :: row', placed d.size (id :: row ++ c :: row') j =
      placed e.size (c :: row') j := fun j hj => by
    rw [placed_append_right _ fun hj' => hapart j hj' j hj rfl, ← h.size_eq]
  have hold : ∀ j ∈ id :: row, ¬ e.size ≤ placed d.size (id :: row) j := fun j hj => by
    rw [h.size_eq]
    exact Nat.not_le_of_lt (placed_lt _ hj)
  refine ⟨hlinked.isForest, within_appendChild h h', ?_, ?_, fun j hj => ?_, fun j hj => ?_⟩
  · rw [hlinked.size_eq, h'.size_eq, h.size_eq, List.length_append, Nat.add_assoc]
  · rw [hlinked.parent_eq _ (by simpa using Nat.ne_of_lt h.size_lt) List.not_mem_nil,
      h'.within.parent_eq _ (Nat.not_le_of_lt h.size_lt), h.parent_first]
  · rw [hlinked.content_eq]
    rcases List.mem_append.1 hj with hj | hj
    · rw [hleft j hj, h'.within.content_eq _ (hold j hj), h.content_eq j hj]
    · rw [hright j hj, h'.content_eq j hj, h.within.content_eq j (Nat.not_le_of_lt (hlt j hj))]
  · rcases List.mem_append.1 hj with hj | hj
    · -- as in the first row, but for one child more of the first node
      have hrow : e'.children (placed d.size (id :: row) j) =
          (below j).map (placed d.size (id :: row ++ c :: row')) := by
        rw [h'.within.children_eq _ (hold j hj), h.children_eq j hj]
        exact List.map_congr_left fun x hx => (hleft x (hbelow j hj x hx)).symm
      rw [hleft j hj]
      by_cases hjid : j = id
      · subst hjid
        rw [placed_head] at hrow ⊢
        rw [hlinked.children_parent, hrow, Function.update_self, List.map_append,
          List.map_singleton, hright c List.mem_cons_self, placed_head]
      · rw [children_appendChild h h' (Nat.ne_of_gt (lt_placed_of_ne _ hjid)), hrow,
          Function.update_of_ne hjid]
    · have hjid : j ≠ id := fun heq => hapart id List.mem_cons_self j hj heq.symm
      have hne : placed e.size (c :: row') j ≠ d.size :=
        Nat.ne_of_gt (Nat.lt_of_lt_of_le h.size_lt (le_placed _ _ _))
      rw [hright j hj, children_appendChild h h' hne, h'.children_eq j hj,
        Function.update_of_ne hjid]
      exact List.map_congr_left fun x hx => (hright x (hbelow' j hj x hx)).symm

end Join

end CopiesRow

/-! ## Copying a subtree -/

theorem copyWithin_snd (n : Nat) (d : Document) (id : NodeId) :
    (copyWithin n d id).2 = d.size := by
  cases n <;> rfl

namespace IsForest

variable (h : d.IsForest)
include h

theorem lt_size_of_mem_subtree (hid : id < d.size) (hj : j ∈ d.subtree id) : j < d.size := by
  rcases h.mem_subtree_iff_parent.1 hj with rfl | ⟨p, hp, -⟩
  · exact hid
  · exact lt_size_of_parent hp

theorem mem_subtree_of_child (hj : j ∈ d.subtree id) (hc : c ∈ d.children j) : c ∈ d.subtree id :=
  h.mem_subtree_iff_parent.2 (.inr ⟨j, (h.mem_children_iff j c).1 hc, hj⟩)

theorem length_subtree_le (id : NodeId) : (d.subtree id).length ≤ d.size + 1 := by
  have hnodup := h.nodup_subtree id
  have hlt : ∀ j ∈ (d.subtree id).tail, j ∈ List.range d.size := by
    intro j hj
    obtain ⟨p, -, hp⟩ := Relation.TransGen.tail'_iff.1 (h.mem_tail_subtree_iff.1 hj)
    exact List.mem_range.2 (lt_size_of_parent hp)
  have hle := (hnodup.tail.subperm hlt).length_le
  rw [List.length_tail, List.length_range] at hle
  omega

section Branches

variable {done rest : List NodeId}

theorem nodup_branches (hs : d.children id = done ++ c :: rest) :
    (id :: done.flatMap d.subtree ++ d.subtree c).Nodup := by
  have hall := h.nodup_subtree id
  rw [h.subtree_eq, hs, List.flatMap_append, List.flatMap_cons, ← List.append_assoc,
    ← List.cons_append, ← List.cons_append] at hall
  exact (List.nodup_append.1 hall).1

theorem mem_branches_of_child (hj : j ∈ done.flatMap d.subtree) (hc : c ∈ d.children j) :
    c ∈ done.flatMap d.subtree := by
  obtain ⟨a, ha, hja⟩ := List.mem_flatMap.1 hj
  exact List.mem_flatMap.2 ⟨a, ha, h.mem_subtree_of_child hja hc⟩

/-- One more child is copied: what is copied so far are the node and the branches at the
children that are done. -/
theorem copiesRow_appendChild (hs : d.children id = done ++ c :: rest)
    (he : CopiesRow d e (id :: done.flatMap d.subtree) (Function.update d.children id done))
    (he' : CopiesRow e e' (d.subtree c) e.children) :
    CopiesRow d (e'.appendChild d.size e.size) (id :: (done ++ [c]).flatMap d.subtree)
      (Function.update d.children id (done ++ [c])) := by
  have hc : c < d.size := lt_size_of_parent ((h.mem_children_iff id c).1 (by simp [hs]))
  have hlt : ∀ j ∈ d.subtree c, j < d.size := fun j hj => h.lt_size_of_mem_subtree hc hj
  have hnodup := h.nodup_branches hs
  have hnew : ∀ j ∈ d.subtree c, j ≠ id := fun j hj heq =>
    (List.nodup_append.1 hnodup).2.2 id List.mem_cons_self j hj heq.symm
  have hdone : ∀ j ∈ done.flatMap d.subtree, j ≠ id := by
    rintro j hj rfl
    exact (List.nodup_cons.1 (List.nodup_append.1 hnodup).1).1 hj
  have hcopy : CopiesRow e e' (d.subtree c) (Function.update d.children id done) :=
    he'.congr fun j hj => by
      rw [he.within.children_eq j (Nat.not_le_of_lt (hlt j hj)), Function.update_of_ne (hnew j hj)]
  have hcons : d.subtree c = c :: (d.children c).flatMap d.subtree := h.subtree_eq c
  have hjoin := he.join (hcons ▸ hcopy) (hcons ▸ hlt) (hcons ▸ hnodup) (fun j hj x hx => ?_)
    (fun j hj x hx => ?_)
  · rw [Function.update_self, Function.update_idem, ← hcons] at hjoin
    rwa [List.flatMap_append, List.flatMap_singleton, ← List.cons_append]
  · rcases List.mem_cons.1 hj with rfl | hj
    · rw [Function.update_self] at hx
      exact List.mem_cons_of_mem j (List.mem_flatMap.2 ⟨x, hx, h.mem_subtree_iff.2 (.inl rfl)⟩)
    · rw [Function.update_of_ne (hdone j hj)] at hx
      exact List.mem_cons_of_mem id (h.mem_branches_of_child hj hx)
  · rw [← hcons] at hj ⊢
    rw [Function.update_of_ne (hnew j hj)] at hx
    exact h.mem_subtree_of_child hj hx

end Branches

omit h in
/-- The bound counts the nodes below the one that is copied, of which each child has fewer. -/
theorem copiesRow_copyWithin {n : Nat} (h : d.IsForest) (hn : (d.subtree id).length ≤ n + 1) :
    CopiesRow d (copyWithin n d id).1 (d.subtree id) d.children := by
  induction n generalizing d id with
  | zero =>
    have hleaf : d.children id = [] := by
      refine List.eq_nil_iff_forall_not_mem.2 fun c hc => ?_
      have hlt := h.length_subtree_lt hc
      rw [h.subtree_eq c, List.length_cons] at hlt
      omega
    rw [h.subtree_eq id, hleaf]
    exact h.copiesRow_create id hleaf
  | succ n ih =>
    -- over the children that are left: the row holds the branches at those that are done
    have hloop : ∀ (rest done : List NodeId) (e : Document), d.children id = done ++ rest →
        CopiesRow d e (id :: done.flatMap d.subtree) (Function.update d.children id done) →
        CopiesRow d (rest.foldl (fun e child =>
          (copyWithin n e child).1.appendChild d.size (copyWithin n e child).2) e)
          (d.subtree id) d.children := by
      intro rest
      induction rest with
      | nil =>
        intro done e hs he
        rw [List.append_nil] at hs
        rwa [← hs, ← h.subtree_eq, Function.update_eq_self] at he
      | cons c rest ihr =>
        intro done e hs he
        have hc : c ∈ d.children id := by simp [hs]
        have hsame : e.subtree c = d.subtree c :=
          he.subtree_eq h (lt_size_of_parent ((h.mem_children_iff id c).1 hc))
        have hlength : (e.subtree c).length ≤ n + 1 := by
          have hlt := h.length_subtree_lt hc
          rw [hsame]
          omega
        have hcopy := ih he.isForest hlength
        rw [hsame] at hcopy
        rw [List.foldl_cons, copyWithin_snd]
        exact ihr (done ++ [c]) _ (by rw [hs, List.append_assoc]; rfl)
          (h.copiesRow_appendChild hs he hcopy)
    exact hloop (d.children id) [] _ rfl
      (h.copiesRow_create id (Function.update_self id [] d.children))

end IsForest

/-! ## The copy and the original -/

/-- The node of a copy that stands for a node of what is copied. -/
def copyOf (d : Document) (id j : NodeId) : NodeId :=
  placed d.size (d.subtree id) j

/-- Whether `e` is `d` with a copy of a node and of all that is below it, which nothing is
above. -/
structure HasCopy (d e : Document) (id : NodeId) : Prop where
  isForest : e.IsForest
  size_eq : e.size = d.size + (d.subtree id).length
  parent_first : e.parent d.size = none
  map_copyOf : (d.subtree id).map (d.copyOf id) = List.range' d.size (d.subtree id).length
  subtree_copyOf : ∀ j ∈ d.subtree id, e.subtree (d.copyOf id j) = (d.subtree j).map (d.copyOf id)
  content_copyOf : ∀ j ∈ d.subtree id, e.content (d.copyOf id j) = d.content j
  children_copyOf : ∀ j ∈ d.subtree id,
    e.children (d.copyOf id j) = (d.children j).map (d.copyOf id)
  parent_copyOf : ∀ j ∈ d.subtree id, ∀ c ∈ d.children j,
    e.parent (d.copyOf id c) = some (d.copyOf id j)
  content_eq : ∀ j < d.size, e.content j = d.content j
  parent_eq : ∀ j < d.size, e.parent j = d.parent j
  children_eq : ∀ j < d.size, e.children j = d.children j

theorem CopiesRow.subtree_copyOf (h : CopiesRow d e (d.subtree id) d.children) (hd : d.IsForest)
    (hj : j ∈ d.subtree id) : e.subtree (d.copyOf id j) = (d.subtree j).map (d.copyOf id) := by
  induction j using hd.upward with
  | step j ih =>
    have hchildren : e.children (d.copyOf id j) = (d.children j).map (d.copyOf id) :=
      h.children_eq j hj
    rw [h.isForest.subtree_eq, hd.subtree_eq j, hchildren, List.map_cons, List.flatMap_map,
      List.map_flatMap]
    exact congrArg _ (List.flatMap_congr fun c hc => ih c hc (hd.mem_subtree_of_child hj hc))

theorem CopiesRow.hasCopy (h : CopiesRow d e (d.subtree id) d.children) (hd : d.IsForest) :
    d.HasCopy e id where
  isForest := h.isForest
  size_eq := h.size_eq
  parent_first := h.parent_first
  map_copyOf := map_placed d.size (hd.nodup_subtree id)
  subtree_copyOf _ hj := h.subtree_copyOf hd hj
  content_copyOf := h.content_eq
  children_copyOf := h.children_eq
  parent_copyOf j hj c hc := by
    rw [← h.isForest.mem_children_iff]
    exact h.children_eq j hj ▸ List.mem_map_of_mem hc
  content_eq j hj := h.within.content_eq j (Nat.not_le_of_lt hj)
  parent_eq j hj := h.within.parent_eq j (Nat.not_le_of_lt hj)
  children_eq j hj := h.within.children_eq j (Nat.not_le_of_lt hj)

theorem copyOf_self (h : d.IsForest) (id : NodeId) : d.copyOf id id = d.size := by
  rw [copyOf, h.subtree_eq, placed_head]

/-- A copy takes the numbers that come next, in document order, and is linked in itself as
what was copied is.  Whatever is done to the copy, and to nodes that come later, leaves the
old nodes as they were, and what is done to those leaves the copy. -/
theorem IsForest.copy_stands_apart (h : d.IsForest) (id : NodeId) :
    (d.copy id).2 = d.size ∧ d.HasCopy (d.copy id).1 id ∧
      (d.copy id).1.subtree d.size = List.range' d.size (d.subtree id).length ∧
      (∀ actions : List Action, (∀ a ∈ actions, ∀ j ∈ a.nodes, d.size ≤ j) → ∀ j < d.size,
        (Action.runAll (d.copy id).1 actions).content j = d.content j ∧
          (Action.runAll (d.copy id).1 actions).parent j = d.parent j ∧
          (Action.runAll (d.copy id).1 actions).children j = d.children j) ∧
      ∀ actions : List Action,
        (∀ a ∈ actions, ∀ j ∈ a.nodes, j < d.size ∨ (d.copy id).1.size ≤ j) →
        ∀ j, d.size ≤ j → j < (d.copy id).1.size →
          (Action.runAll (d.copy id).1 actions).content j = (d.copy id).1.content j ∧
            (Action.runAll (d.copy id).1 actions).parent j = (d.copy id).1.parent j ∧
            (Action.runAll (d.copy id).1 actions).children j = (d.copy id).1.children j := by
  have hrow := h.copiesRow_copyWithin (h.length_subtree_le id)
  have hcopy : d.HasCopy (d.copy id).1 id := hrow.hasCopy h
  have hself : id ∈ d.subtree id := h.mem_subtree_iff.2 (.inl rfl)
  have hnew : IsIsolated (d.size ≤ ·) (d.copy id).1 := hrow.within.isIsolated
  refine ⟨copyWithin_snd .., hcopy, ?_, fun actions hactions j hj => ?_,
    fun actions hactions j hj hj' => ?_⟩
  · have hsubtree := hcopy.subtree_copyOf id hself
    rwa [copyOf_self h, hcopy.map_copyOf] at hsubtree
  · have hrun := hrow.within.trans (hnew.runAll actions hactions)
    have hout : ¬ d.size ≤ j := Nat.not_le_of_lt hj
    exact ⟨hrun.content_eq j hout, hrun.parent_eq j hout, hrun.children_eq j hout⟩
  · have hrun := (hnew.compl hcopy.isForest).runAll actions fun a ha x hx =>
      (hactions a ha x hx).imp_left Nat.not_le_of_lt
    have hout : ¬ (¬ d.size ≤ j ∨ (d.copy id).1.size ≤ j) := by omega
    exact ⟨hrun.content_eq j hout, hrun.parent_eq j hout, hrun.children_eq j hout⟩

/-- The copy of a branch with one child, before and after that child is rewritten and taken
out, first that of the copy and then that of the original. -/
theorem copy_stands_apart_fork :
    (fork.copy 3).2 = 6 ∧ (fork.copy 3).1.subtree 6 = [6, 7] ∧
      (fork.copy 3).1.content 7 = .text "e" ∧
      (Action.runAll (fork.copy 3).1 [.write 7 (.text "f"), .move (.detach 7)]).content 5 =
        .text "e" ∧
      (Action.runAll (fork.copy 3).1 [.write 7 (.text "f"), .move (.detach 7)]).children 3 = [5] ∧
      (Action.runAll (fork.copy 3).1 [.write 5 (.text "f"), .move (.detach 5)]).content 7 =
        .text "e" ∧
      (Action.runAll (fork.copy 3).1 [.write 5 (.text "f"), .move (.detach 5)]).children 6 =
        [7] := by
  obtain ⟨hid, hcopy, hsubtree, hold, hnew⟩ := isForest_fork.copy_stands_apart 3
  have hcopied : ∀ a ∈ [Action.write 7 (.text "f"), .move (.detach 7)], ∀ j ∈ a.nodes,
      fork.size ≤ j := by decide
  have horiginal : ∀ a ∈ [Action.write 5 (.text "f"), .move (.detach 5)], ∀ j ∈ a.nodes,
      j < fork.size ∨ (fork.copy 3).1.size ≤ j := by decide
  exact ⟨hid, hsubtree, hcopy.content_copyOf 5 (by decide), (hold _ hcopied 5 (by decide)).1,
    (hold _ hcopied 3 (by decide)).2.2, (hnew _ horiginal 7 (by decide) (by decide)).1,
    (hnew _ horiginal 6 (by decide) (by decide)).2.2⟩

end Document
end SvgCompact
