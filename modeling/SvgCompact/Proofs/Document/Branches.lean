import SvgCompact.Proofs.Document.Lineage
import SvgCompact.Proofs.Document.Numbering

/-!
Documents as labelled trees.

The table of a document tells nodes apart by their numbers; what is printed and read
depends on contents and order alone.  `Document.branches` is a document without its
numbers, and `Branches.plant` numbers such nodes anew, each as it is met.
-/

namespace SvgCompact

/-- Nodes in a row, each with what is below it. -/
inductive Branches
  | nil
  | node (c : Content) (below rest : Branches)

namespace Branches

def isNil : Branches → Bool
  | nil => true
  | node _ _ _ => false

/-- The number of nodes. -/
def count : Branches → Nat
  | nil => 0
  | node _ below rest => below.count + rest.count + 1

/-- The characters of the nodes in the row, joined. -/
def characters : Branches → String
  | nil => ""
  | node c _ rest => c.characters?.getD "" ++ rest.characters

/-- The contents in document order, each with the trees below it. -/
def nodes : Branches → List (Content × Branches)
  | nil => []
  | node c below rest => (c, below) :: (below.nodes ++ rest.nodes)

/-- The contents in document order, each with the characters directly below it. -/
def entries (f : Branches) : List (Content × String) :=
  f.nodes.map fun x => (x.1, x.2.characters)

/-- Adds the nodes below a node of a document, in order. -/
def plant (p : NodeId) : Branches → Document → Document
  | nil, d => d
  | node c below rest, d => rest.plant p (below.plant d.size (d.append p c).1)

/-- Whether all nodes are of a kind that depends on their content and on what is below
them. -/
def Forall (P : Content → Branches → Prop) : Branches → Prop
  | nil => True
  | node c below rest => P c below ∧ below.Forall P ∧ rest.Forall P

theorem entries_node (c : Content) (below rest : Branches) : (node c below rest).entries =
    (c, below.characters) :: (below.entries ++ rest.entries) := by
  rw [entries, nodes, List.map_cons, List.map_append]
  rfl

theorem forall_iff {P : Content → Branches → Prop} {f : Branches} :
    f.Forall P ↔ ∀ x ∈ f.nodes, P x.1 x.2 := by
  induction f with
  | nil => simp [Forall, nodes]
  | node c below rest ihBelow ihRest =>
    rw [Forall, ihBelow, ihRest, nodes, List.forall_mem_cons, List.forall_mem_append]

end Branches

/-! ## Planting -/

namespace Document

/-- The content of a node with the characters directly below it. -/
def entry (d : Document) (id : NodeId) : Content × String :=
  (d.content id, d.textContent id)

variable {d : Document} {p : NodeId}

theorem lt_size_append {j : NodeId} (hj : j < d.size) (p : NodeId) (c : Content) :
    j < (d.append p c).1.size := by
  rw [size_append]
  exact Nat.lt_succ_of_lt hj

theorem size_lt_size_append (d : Document) (p : NodeId) (c : Content) :
    d.size < (d.append p c).1.size := by
  rw [size_append]
  exact Nat.lt_succ_self _

theorem content_append_of_lt {j : NodeId} (hj : j < d.size) (p : NodeId) (c : Content) :
    (d.append p c).1.content j = d.content j := by
  rw [content_append, if_neg (Nat.ne_of_lt hj)]

theorem join_append (l m : List String) :
    String.join (l ++ m) = String.join l ++ String.join m := by
  rw [← String.toList_inj]
  simp

theorem textContent_append (h : d.IsForest) (hp : p < d.size) (c : Content) (j : NodeId) :
    (d.append p c).1.textContent j =
      if j = p then d.textContent p ++ c.characters?.getD "" else d.textContent j := by
  have hold : ∀ q, ((d.children q).filterMap fun c' => ((d.append p c).1.content c').characters?) =
      (d.children q).filterMap fun c' => (d.content c').characters? := fun q => by
    refine List.filterMap_congr fun c' hc' => ?_
    rw [content_append_of_lt (lt_size_of_parent ((h.mem_children_iff q c').1 hc'))]
  have hnew : String.join ([d.size].filterMap fun c' => ((d.append p c).1.content c').characters?) =
      c.characters?.getD "" := by
    rw [List.filterMap_cons, content_append, if_pos rfl]
    cases c.characters? with
    | none => rfl
    | some s => exact String.empty_append
  rw [textContent, children_append h hp]
  by_cases hj : j = p
  · rw [if_pos hj, if_pos hj, List.filterMap_append, hold, join_append, hnew, textContent]
  · rw [if_neg hj, if_neg hj, hold, textContent]

theorem textContent_of_size_le {j : NodeId} (hj : d.size ≤ j) : d.textContent j = "" := by
  rw [textContent, children_of_size_le hj]
  rfl

end Document

namespace Branches

open Document (root)

variable {d : Document} {p : NodeId}

theorem size_plant (f : Branches) (p : NodeId) (d : Document) :
    (f.plant p d).size = d.size + f.count := by
  induction f generalizing p d with
  | nil => rfl
  | node c below rest ihBelow ihRest =>
    rw [plant, ihRest, ihBelow, Document.size_append, count]
    omega

theorem lt_size_plant (f : Branches) (p : NodeId) {j : NodeId} (hj : j < d.size) :
    j < (f.plant p d).size := by
  rw [size_plant]
  exact Nat.lt_add_right _ hj

theorem isForest_plant (f : Branches) (h : d.IsForest) (hp : p < d.size) :
    (f.plant p d).IsForest := by
  induction f generalizing p d with
  | nil => exact h
  | node c below rest ihBelow ihRest =>
    exact ihRest (ihBelow (h.append c hp) (Document.size_lt_size_append d p c))
      (lt_size_plant below _ (Document.lt_size_append hp p c))

theorem content_plant (f : Branches) (p : NodeId) {j : NodeId} (hj : j < d.size) :
    (f.plant p d).content j = d.content j := by
  induction f generalizing p d with
  | nil => rfl
  | node c below rest ihBelow ihRest =>
    have hj' := Document.lt_size_append hj p c
    rw [plant, ihRest _ (lt_size_plant below _ hj'), ihBelow _ hj',
      Document.content_append_of_lt hj]

/-- Nodes that were there keep their characters, but for the one that gets more below it. -/
theorem textContent_plant (f : Branches) (h : d.IsForest) (hp : p < d.size) {j : NodeId}
    (hj : j < d.size) : (f.plant p d).textContent j =
      if j = p then d.textContent p ++ f.characters else d.textContent j := by
  induction f generalizing p d j with
  | nil =>
    rw [plant, characters, String.append_empty]
    split
    · next hjp => rw [hjp]
    · rfl
  | node c below rest ihBelow ihRest =>
    have hforest := h.append c hp
    have hnew := Document.size_lt_size_append d p c
    -- what is below the new node adds nothing to the nodes before it
    have hkept : ∀ {q}, q < d.size → (below.plant d.size (d.append p c).1).textContent q =
        if q = p then d.textContent p ++ c.characters?.getD "" else d.textContent q := by
      intro q hq
      rw [ihBelow hforest hnew (Document.lt_size_append hq p c), if_neg (Nat.ne_of_lt hq),
        Document.textContent_append h hp]
    have hlt : ∀ {q}, q < d.size → q < (below.plant d.size (d.append p c).1).size :=
      fun hq => lt_size_plant below _ (Document.lt_size_append hq p c)
    rw [plant, ihRest (isForest_plant below hforest hnew) (hlt hp) (hlt hj), hkept hp, hkept hj,
      if_pos rfl, characters, String.append_assoc]
    split <;> rfl

/-- The new nodes in the order of their numbers. -/
theorem map_entry_plant (f : Branches) (h : d.IsForest) (hp : p < d.size) :
    (List.range' d.size f.count).map (f.plant p d).entry = f.entries := by
  induction f generalizing p d with
  | nil => rfl
  | node c below rest ihBelow ihRest =>
    have hforest := h.append c hp
    have hnew := Document.size_lt_size_append d p c
    have hp' := Document.lt_size_append hp p c
    have hbelow := ihBelow hforest hnew
    have hforest' := isForest_plant below hforest hnew
    have hp'' := lt_size_plant below d.size hp'
    have hrest := ihRest hforest' hp''
    rw [Document.size_append] at hbelow
    rw [size_plant, Document.size_append] at hrest
    -- what comes after the nodes below the new one leaves them as they are
    have hkept : ∀ j, d.size ≤ j → j < d.size + 1 + below.count →
        (rest.plant p (below.plant d.size (d.append p c).1)).entry j =
          (below.plant d.size (d.append p c).1).entry j := by
      intro j hle hlt
      have hj : j < (below.plant d.size (d.append p c).1).size := by
        rwa [size_plant, Document.size_append]
      refine Prod.ext (content_plant rest p hj) ?_
      show (rest.plant p _).textContent j = _
      rw [textContent_plant rest hforest' hp'' hj,
        if_neg (Nat.ne_of_gt (Nat.lt_of_lt_of_le hp hle))]
      rfl
    rw [plant, count, List.range'_succ, List.map_cons, ← List.range'_append_1, List.map_append,
      hrest, entries_node]
    refine congrArg₂ List.cons ?_ (congrArg (· ++ rest.entries) ?_)
    · rw [hkept _ (Nat.le_refl _) (by omega)]
      refine Prod.ext ?_ ?_
      · show (below.plant _ _).content d.size = c
        rw [content_plant below _ hnew, Document.content_append, if_pos rfl]
      · show (below.plant _ _).textContent d.size = below.characters
        rw [textContent_plant below hforest hnew hnew, if_pos rfl,
          Document.textContent_append h hp, if_neg (Nat.ne_of_gt hp),
          Document.textContent_of_size_le (Nat.le_refl _), String.empty_append]
    · rw [← hbelow]
      refine List.map_congr_left fun j hj => ?_
      obtain ⟨hle, hlt⟩ := List.mem_range'_1.1 hj
      exact hkept j (Nat.le_of_succ_le hle) hlt

end Branches

/-! ## The trees of a document -/

namespace Document

/-- The nodes with at most a number of levels below them. -/
def branchesWithin (d : Document) : Nat → List NodeId → Branches
  | 0, ids => ids.foldr (fun id rest => .node (d.content id) .nil rest) .nil
  | bound + 1, ids => ids.foldr (fun id rest =>
    .node (d.content id) (branchesWithin d bound (d.children id)) rest) .nil

def branches (d : Document) (ids : List NodeId) : Branches :=
  d.branchesWithin d.size ids

variable {d : Document}

@[simp] theorem branches_nil (d : Document) : d.branches [] = .nil := by
  rw [branches]
  cases d.size <;> rfl

theorem branchesWithin_cons (bound : Nat) (id : NodeId) (rest : List NodeId) :
    d.branchesWithin (bound + 1) (id :: rest) = .node (d.content id)
      (d.branchesWithin bound (d.children id)) (d.branchesWithin (bound + 1) rest) := rfl

theorem IsForest.climb_size_succ_ne (h : d.IsForest) (a id : NodeId) :
    d.climb (d.size + 1) a ≠ some id := by
  intro ha
  have hup := ha
  rw [climb] at hup
  obtain ⟨p, hp, -⟩ := Option.bind_eq_some_iff.1 hup
  exact absurd (h.lt_size_of_climb (lt_size_of_parent hp) ha) (Nat.not_lt.2 (Nat.le_succ _))

/-- Where no way down has more than `n` steps, more levels show nothing more. -/
theorem branchesWithin_succ (h : d.IsForest) {n : Nat} {ids : List NodeId}
    (hn : ∀ id ∈ ids, ∀ a, d.climb (n + 1) a ≠ some id) :
    d.branchesWithin (n + 1) ids = d.branchesWithin n ids := by
  induction n generalizing ids with
  | zero =>
    induction ids with
    | nil => rfl
    | cons id rest ih =>
      have hnone : d.children id = [] := by
        refine List.eq_nil_iff_forall_not_mem.2 fun c hc => hn id (by simp) c ?_
        rw [climb_one, (h.mem_children_iff id c).1 hc]
      rw [branchesWithin_cons, ih fun c hc => hn c (by simp [hc]), hnone]
      rfl
  | succ n ih =>
    induction ids with
    | nil => rfl
    | cons id rest ih' =>
      rw [branchesWithin_cons, branchesWithin_cons, ih' fun c hc => hn c (by simp [hc]), ih]
      intro c hc a ha
      refine hn id (by simp) a ?_
      rw [climb_succ, ha, Option.bind_some, (h.mem_children_iff id c).1 hc]

theorem branches_cons (h : d.IsForest) (id : NodeId) (rest : List NodeId) :
    d.branches (id :: rest) =
      .node (d.content id) (d.branches (d.children id)) (d.branches rest) := by
  rw [branches, ← branchesWithin_succ h, branchesWithin_cons, branchesWithin_succ h]
  · rfl
  · exact fun c _ a => h.climb_size_succ_ne a c
  · exact fun c _ a => h.climb_size_succ_ne a c

theorem characters_branches (h : d.IsForest) (ids : List NodeId) :
    (d.branches ids).characters =
      String.join (ids.filterMap fun c => (d.content c).characters?) := by
  induction ids with
  | nil => rw [branches_nil]; rfl
  | cons id rest ih =>
    rw [branches_cons h, Branches.characters, ih, List.filterMap_cons]
    cases (d.content id).characters? with
    | none => exact String.empty_append
    | some s => exact String.join_cons.symm

/-- Walking through some nodes and those below them meets their trees. -/
theorem nodes_branches (h : d.IsForest) (ids : List NodeId) : (d.branches ids).nodes =
    (ids.flatMap d.subtree).map fun j => (d.content j, d.branches (d.children j)) := by
  have hrow : ∀ ids : List NodeId,
      (∀ id ∈ ids, (d.branches (d.children id)).nodes = ((d.children id).flatMap d.subtree).map
        fun j => (d.content j, d.branches (d.children j))) →
      (d.branches ids).nodes =
        (ids.flatMap d.subtree).map fun j => (d.content j, d.branches (d.children j)) := by
    intro ids hids
    induction ids with
    | nil =>
      rw [branches_nil]
      rfl
    | cons id rest ih =>
      rw [branches_cons h, Branches.nodes, hids id (by simp), ih fun c hc => hids c (by simp [hc]),
        List.flatMap_cons, h.subtree_eq, List.map_append, List.map_cons]
      rfl
  exact hrow ids fun id _ => h.upward (fun id ih => hrow (d.children id) ih) id

theorem entries_branches (h : d.IsForest) (ids : List NodeId) :
    (d.branches ids).entries = (ids.flatMap d.subtree).map d.entry := by
  rw [Branches.entries, nodes_branches h, List.map_map]
  refine List.map_congr_left fun j _ => ?_
  rw [Function.comp_apply, characters_branches h]
  rfl

/-- What holds of the nodes of a tree, each with what is below it, holds of the tree. -/
theorem forall_branches (h : d.IsForest) {P : Content → Branches → Prop} {ids : List NodeId}
    (hp : ∀ id ∈ ids, ∀ j ∈ d.subtree id, P (d.content j) (d.branches (d.children j))) :
    (d.branches ids).Forall P := by
  rw [Branches.forall_iff, nodes_branches h, List.forall_mem_map]
  intro j hj
  obtain ⟨id, hid, hj⟩ := List.mem_flatMap.1 hj
  exact hp id hid j hj

/-- Only elements have anything below them. -/
theorem branches_children_of_leaf (h : d.IsRooted) (hholder : d.HoldsInElements)
    {id j : NodeId} (hid : id ∈ d.children root) (hj : j ∈ d.subtree id)
    (hnot : (d.content j).isElement = false) : d.branches (d.children j) = .nil := by
  have hj' : j ≠ root := by
    rintro rfl
    have hup := (h.isForest.mem_children_iff root id).1 hid
    rcases (h.isForest.mem_subtree_iff).1 hj with heq | habove
    · rw [← heq, h.parent_root] at hup
      cases hup
    · exact not_isAbove_of_parent_none h.parent_root habove
  have hchildren : d.children j = [] := by
    refine List.eq_nil_iff_forall_not_mem.2 fun c hc => ?_
    rcases hholder c j ((h.isForest.mem_children_iff j c).1 hc) with heq | helement
    · exact hj' heq
    · rw [isElement, hnot] at helement
      cases helement
  rw [hchildren, branches_nil]

end Document
end SvgCompact
