import SvgCompact.Element.Kinds
import SvgCompact.Proofs.Document.Editing
import SvgCompact.Proofs.Document.Order

/-!
What is combined on the way from the top of a document down to a node.

Inherited values, joined transforms and the question whether a node is in the document
at all are such combinations.  A combination stays what it is at all nodes but one when
something is moved between that node and its children, and when a node that adds nothing
is replaced by its children.
-/

namespace SvgCompact
namespace Document

variable {α : Type} {op : α → α → α} {unit : α} {own own' : NodeId → α} {d d' : Document}

/-- The values of the nodes above a node, the outer ones on the left. -/
def outer (op : α → α → α) (unit : α) (own : NodeId → α) (d : Document) (id : NodeId) : α :=
  (d.ancestors id).foldr (fun a above => op above (own a)) unit

/-- The values of a node and of all nodes above it. -/
def gathered (op : α → α → α) (unit : α) (own : NodeId → α) (d : Document) (id : NodeId) : α :=
  (id :: d.ancestors id).foldr (fun a above => op above (own a)) unit

theorem gathered_eq (d : Document) (id : NodeId) :
    d.gathered op unit own id = op (d.outer op unit own id) (own id) := rfl

theorem ancestors_of_parent_none {id : NodeId} (hp : d.parent id = none) :
    d.ancestors id = [] := by
  rw [ancestors]
  cases d.size with
  | zero => rfl
  | succ n => rw [ancestorsWithin, hp]

theorem outer_of_parent_none {id : NodeId} (hp : d.parent id = none) :
    d.outer op unit own id = unit := by
  rw [outer, ancestors_of_parent_none hp, List.foldr_nil]

namespace IsForest

variable (h : d.IsForest)
include h

theorem ancestors_of_parent {id p : NodeId} (hp : d.parent id = some p) :
    d.ancestors id = p :: d.ancestors p := by
  rw [← h.ancestorsWithin_of_size_le (Nat.le_succ d.size) id, ancestorsWithin, hp]
  rfl

theorem outer_of_parent {id p : NodeId} (hp : d.parent id = some p) :
    d.outer op unit own id = d.gathered op unit own p := by
  rw [outer, h.ancestors_of_parent hp, gathered]

/-- What holds of a node once it holds of its parent holds of all nodes. -/
theorem downward {motive : NodeId → Prop}
    (step : ∀ id, (∀ p, d.parent id = some p → motive p) → motive id) (id : NodeId) :
    motive id := by
  generalize hn : (d.ancestors id).length = n
  induction n using Nat.strong_induction_on generalizing id with
  | _ n ih =>
    refine step id fun p hp => ih (d.ancestors p).length ?_ p rfl
    rw [← hn, h.ancestors_of_parent hp, List.length_cons]
    exact Nat.lt_succ_self _

/-- Nodes have the same ancestors in documents that agree on their parents and on those of
their parents. -/
theorem ancestors_eq {e : Document} (he : e.IsForest) {P : NodeId → Prop}
    (hparent : ∀ j, P j → e.parent j = d.parent j)
    (hup : ∀ j p, P j → d.parent j = some p → P p) {id : NodeId} (hid : P id) :
    e.ancestors id = d.ancestors id := by
  induction id using h.downward with
  | step id ih =>
    have heq := hparent id hid
    cases hp : d.parent id with
    | none => rw [ancestors_of_parent_none hp, ancestors_of_parent_none (heq.trans hp)]
    | some p =>
      rw [h.ancestors_of_parent hp, he.ancestors_of_parent (heq.trans hp),
        ih p hp (hup id p hid hp)]

theorem length_subtree_lt {id c : NodeId} (hc : c ∈ d.children id) :
    (d.subtree c).length < (d.subtree id).length := by
  have hsublist : (d.subtree c).Sublist ((d.children id).flatMap d.subtree) :=
    List.sublist_flatten_of_mem (List.mem_map_of_mem hc)
  rw [h.subtree_eq id, List.length_cons]
  exact Nat.lt_succ_of_le hsublist.length_le

/-- What holds of a node once it holds of its children holds of all nodes. -/
theorem upward {motive : NodeId → Prop}
    (step : ∀ id, (∀ c ∈ d.children id, motive c) → motive id) (id : NodeId) : motive id := by
  generalize hn : (d.subtree id).length = n
  induction n using Nat.strong_induction_on generalizing id with
  | _ n ih =>
    refine step id fun c hc => ih (d.subtree c).length ?_ c rfl
    rw [← hn]
    exact h.length_subtree_lt hc

theorem mem_subtree_iff_parent {id r : NodeId} :
    id ∈ d.subtree r ↔ id = r ∨ ∃ p, d.parent id = some p ∧ p ∈ d.subtree r := by
  rw [h.mem_subtree_iff]
  refine or_congr_right ⟨fun habove => ?_, fun ⟨p, hp, hbelow⟩ => ?_⟩
  · obtain ⟨p, hrp, hp⟩ := Relation.TransGen.tail'_iff.1 habove
    exact ⟨p, hp, h.mem_subtree_iff.2 (Relation.reflTransGen_iff_eq_or_transGen.1 hrp)⟩
  · exact (isAbove_iff_of_parent hp).2 ((h.mem_subtree_iff.1 hbelow).imp_left Eq.symm)

/-- Below a node is what is at or below one of its children. -/
theorem mem_subtree_iff_child {id r : NodeId} :
    id ∈ d.subtree r ↔ id = r ∨ ∃ c ∈ d.children r, id ∈ d.subtree c := by
  simp only [h.mem_subtree_iff, h.mem_children_iff]
  refine or_congr_right ⟨fun habove => ?_, fun hex => ?_⟩
  · obtain ⟨c, hc, hbelow⟩ := Relation.TransGen.head'_iff.1 habove
    exact ⟨c, hc, (Relation.reflTransGen_iff_eq_or_transGen.1 hbelow)⟩
  · obtain ⟨c, hc, rfl | hbelow⟩ := hex
    · exact isAbove_of_parent hc
    · exact (isAbove_of_parent hc).trans hbelow

theorem tail_subtree (id : NodeId) :
    (d.subtree id).tail = (d.children id).flatMap d.subtree := by
  rw [h.subtree_eq, List.tail_cons]

theorem mem_tail_subtree_iff {id j : NodeId} : j ∈ (d.subtree id).tail ↔ d.IsAbove id j := by
  have hcons : d.subtree id = id :: (d.subtree id).tail := by rw [h.subtree_eq, List.tail_cons]
  have hmem : j ∈ d.subtree id ↔ j = id ∨ j ∈ (d.subtree id).tail := by
    rw [← List.mem_cons, ← hcons]
  have hnotin : id ∉ (d.subtree id).tail := by
    have hnodup := h.nodup_subtree id
    rw [hcons] at hnodup
    exact (List.nodup_cons.1 hnodup).1
  rw [h.mem_subtree_iff] at hmem
  constructor
  · intro hj
    refine (hmem.2 (.inr hj)).resolve_left ?_
    rintro rfl
    exact hnotin hj
  · intro hj
    refine (hmem.1 (.inr hj)).resolve_left ?_
    rintro rfl
    exact h.not_above_self j hj

theorem isAbove_child {r id c : NodeId} (hid : id ∈ d.subtree r) (hc : d.parent c = some id) :
    d.IsAbove r c :=
  (isAbove_iff_of_parent hc).2 ((h.mem_subtree_iff.1 hid).imp_left Eq.symm)

theorem isAbove_of_mem_subtree {id c j : NodeId} (hc : d.parent c = some id)
    (hj : j ∈ d.subtree c) : d.IsAbove id j := by
  rcases h.mem_subtree_iff.1 hj with rfl | habove
  · exact isAbove_of_parent hc
  · exact (isAbove_of_parent hc).trans habove

/-- The branches at two children of a node are apart. -/
theorem eq_of_mem_subtree {c c' p id : NodeId} (hc : d.parent c = some p)
    (hc' : d.parent c' = some p) (hid : id ∈ d.subtree c) (hid' : id ∈ d.subtree c') : c = c' := by
  rw [h.mem_subtree_iff] at hid hid'
  rcases hid with rfl | hid <;> rcases hid' with rfl | hid'
  · rfl
  · exact absurd hid' (h.not_isAbove_of_siblings hc' hc)
  · exact absurd hid (h.not_isAbove_of_siblings hc hc')
  · rcases isAbove_trichotomy hid hid' with heq | habove | habove
    · exact heq
    · exact absurd habove (h.not_isAbove_of_siblings hc hc')
    · exact absurd habove (h.not_isAbove_of_siblings hc' hc)

theorem mem_subtree_iff_of_parent_eq {e : Document} (he : e.IsForest)
    (hparent : ∀ j, e.parent j = d.parent j) {id r : NodeId} :
    id ∈ e.subtree r ↔ id ∈ d.subtree r := by
  rw [he.mem_subtree_iff, h.mem_subtree_iff, IsAbove, IsAbove]
  simp only [hparent]

/-- A node stays below another if the way up from it stays. -/
theorem mem_subtree_of_way_up {e : Document} (he : e.IsForest) {id r : NodeId}
    (hid : id ∈ d.subtree r)
    (hway : ∀ j, j = id ∨ d.IsAbove j id → ∀ p, d.parent j = some p → e.parent j = some p) :
    id ∈ e.subtree r := by
  induction id using h.downward with
  | step id ih =>
    rcases h.mem_subtree_iff_parent.1 hid with rfl | ⟨p, hp, hbelow⟩
    · exact he.mem_subtree_iff.2 (.inl rfl)
    · have hup := ih p hp hbelow fun j hj => hway j (.inr ((isAbove_iff_of_parent hp).2 hj))
      exact he.mem_subtree_iff_parent.2 (.inr ⟨p, hway id (.inl rfl) p hp, hup⟩)

/-- Of the nodes with a property at or above a node, one has no other above it. -/
theorem exists_uppermost {q : NodeId → Prop} {id a : NodeId} (ha : a = id ∨ d.IsAbove a id)
    (hq : q a) : ∃ b, (b = id ∨ d.IsAbove b id) ∧ q b ∧ ∀ c, d.IsAbove c b → ¬ q c := by
  induction id using h.downward generalizing a with
  | step id ih =>
    by_cases hup : ∃ c, d.IsAbove c id ∧ q c
    · obtain ⟨c, hc, hqc⟩ := hup
      obtain ⟨p, -, hp⟩ := Relation.TransGen.tail'_iff.1 hc
      obtain ⟨b, hb, hqb⟩ := ih p hp ((isAbove_iff_of_parent hp).1 hc) hqc
      exact ⟨b, .inr ((isAbove_iff_of_parent hp).2 hb), hqb⟩
    · rcases ha with rfl | ha
      · exact ⟨a, .inl rfl, hq, fun c hc hqc => hup ⟨c, hc, hqc⟩⟩
      · exact absurd ⟨a, ha, hq⟩ hup

/-- A node without children can go without others. -/
theorem mem_subtree_detach_iff {id r : NodeId} (hleaf : d.children id = []) {j : NodeId}
    (hj : j ≠ id) : j ∈ (d.detach id).subtree r ↔ j ∈ d.subtree r := by
  induction j using h.downward with
  | step j ih =>
    rw [h.mem_subtree_iff_parent, (h.detach id).mem_subtree_iff_parent, parent_detach, if_neg hj]
    refine or_congr_right (exists_congr fun p => and_congr_right fun hp => ih p hp ?_)
    rintro rfl
    rw [← h.mem_children_iff, hleaf] at hp
    cases hp

theorem parent_ne_self (id : NodeId) : d.parent id ≠ some id :=
  fun hp => h.not_above_self id (isAbove_of_parent hp)

/-- Moving something between a node and its children is seen at that node only. -/
theorem gathered_of_shifted (h' : d'.IsForest) (hassoc : ∀ x y z, op (op x y) z = op x (op y z))
    {id : NodeId} (hparent : ∀ j, d'.parent j = d.parent j)
    (hown : ∀ j, j ≠ id → d.parent j ≠ some id → own' j = own j)
    (hshift : ∀ c, d.parent c = some id → op (own' id) (own' c) = op (own id) (own c))
    {j : NodeId} (hj : j ≠ id) :
    d'.gathered op unit own' j = d.gathered op unit own j := by
  -- above the node nothing changes, and below it what it gathers counts with its child
  have hboth : (j = id → d'.outer op unit own' j = d.outer op unit own j) ∧
      (j ≠ id → d'.gathered op unit own' j = d.gathered op unit own j) := by
    clear hj
    induction j using h.downward with
    | step j ih =>
      have houter : d.parent j ≠ some id → d'.outer op unit own' j = d.outer op unit own j := by
        intro hne
        cases hp : d.parent j with
        | none => rw [outer_of_parent_none hp, outer_of_parent_none ((hparent j).trans hp)]
        | some p =>
          rw [h.outer_of_parent hp, h'.outer_of_parent ((hparent j).trans hp)]
          exact (ih p hp).2 fun heq => hne (heq ▸ hp)
      refine ⟨fun hj => houter (hj ▸ h.parent_ne_self j), fun hj => ?_⟩
      by_cases hp : d.parent j = some id
      · rw [gathered_eq, gathered_eq, h.outer_of_parent hp,
          h'.outer_of_parent ((hparent j).trans hp), gathered_eq, gathered_eq,
          (ih id hp).1 rfl, hassoc, hassoc, hshift j hp]
      · rw [gathered_eq, gathered_eq, houter hp, hown j hj hp]
  exact hboth.2 hj

/-- A node that adds nothing can give way to its children. -/
theorem gathered_unwrap (own : NodeId → α) (hunit : ∀ x, op x unit = x) {id : NodeId}
    (hid : own id = unit) {j : NodeId} (hj : j ≠ id) :
    (d.unwrap id).gathered op unit own j = d.gathered op unit own j := by
  cases hp : d.parent id with
  | none => rw [unwrap_of_parent_none hp]
  | some p =>
    have hparent := h.parent_unwrap hp
    have hpid : p ≠ id := fun heq => h.parent_ne_self id (heq ▸ hp)
    have hboth : (j = id → (d.unwrap id).gathered op unit own p = d.gathered op unit own p) ∧
        (j ≠ id → (d.unwrap id).gathered op unit own j = d.gathered op unit own j) := by
      clear hj
      induction j using h.downward with
      | step j ih =>
        refine ⟨fun hj => (ih p (hj ▸ hp)).2 hpid, fun hj => ?_⟩
        rw [gathered_eq, gathered_eq]
        congr 1
        by_cases hji : d.parent j = some id
        · have hlifted : (d.unwrap id).parent j = some p := by rw [hparent, if_pos hji]
          rw [h.outer_of_parent hji, (h.unwrap id).outer_of_parent hlifted, gathered_eq d id, hid,
            hunit, h.outer_of_parent hp]
          exact (ih id hji).1 rfl
        · have hsame : (d.unwrap id).parent j = d.parent j := by
            rw [hparent, if_neg hji, if_neg hj]
          cases hq : d.parent j with
          | none => rw [outer_of_parent_none hq, outer_of_parent_none (hsame.trans hq)]
          | some q =>
            rw [h.outer_of_parent hq, (h.unwrap id).outer_of_parent (hsame.trans hq)]
            exact (ih q hq).2 fun heq => hji (heq ▸ hq)
    exact hboth.2 hj

/-- Replacing a node by its children takes nothing but the node out of the document order. -/
theorem subtree_unwrap {m j : NodeId} (hj : j ≠ m) :
    (d.unwrap m).subtree j = (d.subtree j).filter (· != m) := by
  cases hp : d.parent m with
  | none =>
    rw [unwrap_of_parent_none hp, List.filter_eq_self.2]
    intro x hx
    rcases h.mem_subtree_iff_parent.1 hx with rfl | ⟨q, hq, -⟩
    · exact bne_iff_ne.2 hj
    · refine bne_iff_ne.2 ?_
      rintro rfl
      rw [hp] at hq
      cases hq
  | some p =>
    obtain ⟨front, back, hs, hchildren⟩ := h.children_unwrap hp
    have hboth : (j = m →
          (d.children m).flatMap (d.unwrap m).subtree = (d.subtree m).filter (· != m)) ∧
        (j ≠ m → (d.unwrap m).subtree j = (d.subtree j).filter (· != m)) := by
      clear hj
      have hbranches : ∀ l : List NodeId,
          (∀ c ∈ l, (d.unwrap m).subtree c = (d.subtree c).filter (· != m)) →
          l.flatMap (d.unwrap m).subtree = (l.flatMap d.subtree).filter (· != m) := by
        intro l hl
        rw [List.filter_flatMap]
        exact List.flatMap_congr hl
      induction j using h.upward with
      | step j ih =>
        refine ⟨?_, fun hj => ?_⟩
        · rintro rfl
          rw [h.subtree_eq j, List.filter_cons_of_neg (by simp)]
          refine hbranches _ fun c hc => (ih c hc).2 ?_
          rintro rfl
          exact h.parent_ne_self c ((h.mem_children_iff c c).1 hc)
        · rw [(h.unwrap m).subtree_eq, h.subtree_eq j, List.filter_cons_of_pos (by simpa using hj),
            hchildren]
          congr 1
          split
          · next hjp =>
            subst hjp
            have hnodup := h.nodup_children j
            rw [hs] at ih hnodup ⊢
            have hne : ∀ c ∈ front ++ back, c ≠ m := by
              rintro c hc rfl
              rw [List.nodup_middle] at hnodup
              exact (List.nodup_cons.1 hnodup).1 hc
            have hm := (ih m (by simp)).1 rfl
            rw [List.flatMap_append, List.flatMap_append, List.flatMap_append, List.flatMap_cons,
              List.filter_append, List.filter_append, hm,
              hbranches front fun c hc => (ih c (by simp [hc])).2 (hne c (by simp [hc])),
              hbranches back fun c hc => (ih c (by simp [hc])).2 (hne c (by simp [hc])),
              List.append_assoc]
          · next hjp =>
            refine hbranches _ fun c hc => (ih c hc).2 ?_
            rintro rfl
            exact hjp (Option.some.inj (((h.mem_children_iff j c).1 hc).symm.trans hp))
    exact hboth.2 hj

theorem isAbove_unwrap_iff {m a j : NodeId} (ha : a ≠ m) (hj : j ≠ m) :
    (d.unwrap m).IsAbove a j ↔ d.IsAbove a j := by
  have hmem : j ∈ (d.unwrap m).subtree a ↔ j ∈ d.subtree a := by
    rw [h.subtree_unwrap ha, List.mem_filter, and_iff_left (bne_iff_ne.2 hj)]
  rw [(h.unwrap m).mem_subtree_iff, h.mem_subtree_iff] at hmem
  by_cases heq : j = a
  · rw [heq]
    exact iff_of_false ((h.unwrap m).not_above_self a) (h.not_above_self a)
  · rwa [or_iff_right heq, or_iff_right heq] at hmem

end IsForest

/-! ## What a node inherits -/

def property? (d : Document) (p : String) (id : NodeId) : Option String :=
  (d.element? id).bind (·.property? p)

def transform? (d : Document) (id : NodeId) : Option String :=
  (d.element? id).bind (·.attr? "transform")

/-- The value of a property at a node: its own, or else the nearest above. -/
def resolved? (d : Document) (p : String) (id : NodeId) : Option String :=
  (id :: d.ancestors id).findSome? (d.property? p)

/-- The transforms under which a node is drawn, joined from the top down. -/
def jointTransform (d : Document) (id : NodeId) : String :=
  " ".intercalate ((id :: d.ancestors id).reverse.filterMap d.transform?)

theorem findSome?_eq_gathered (own : NodeId → Option α) (d : Document) (id : NodeId) :
    (id :: d.ancestors id).findSome? own =
      d.gathered (fun outer inner => inner.or outer) none own id := by
  rw [gathered]
  induction id :: d.ancestors id with
  | nil => rfl
  | cons a rest ih =>
    rw [List.findSome?_cons, List.foldr_cons, ← ih]
    cases own a <;> rfl

theorem resolved?_eq_gathered (d : Document) (p : String) (id : NodeId) :
    d.resolved? p id = d.gathered (fun outer inner => inner.or outer) none (d.property? p) id :=
  findSome?_eq_gathered (d.property? p) d id

/-- Two transforms one inside the other. -/
def nested : Option String → Option String → Option String
  | some outer, some inner => some (outer ++ " " ++ inner)
  | some outer, none => some outer
  | none, inner => inner

@[simp] theorem nested_none (t : Option String) : nested t none = t := by
  cases t <;> rfl

@[simp] theorem none_nested (t : Option String) : nested none t = t := rfl

theorem nested_assoc (s t u : Option String) : nested (nested s t) u = nested s (nested t u) := by
  cases s <;> cases t <;> cases u <;> simp [nested, String.append_assoc]

theorem intercalate_concat {l : List String} (hl : l ≠ []) (s : String) :
    " ".intercalate (l ++ [s]) = " ".intercalate l ++ " " ++ s := by
  induction l with
  | nil => exact absurd rfl hl
  | cons t rest ih =>
    cases rest with
    | nil => simp
    | cons u rest =>
      have htail := ih (List.cons_ne_nil u rest)
      rw [List.cons_append] at htail
      rw [List.cons_append, List.cons_append, String.intercalate_cons_cons, htail,
        String.intercalate_cons_cons]
      simp only [String.append_assoc]

theorem jointTransform_eq_gathered (d : Document) (id : NodeId) :
    d.jointTransform id = (d.gathered nested none d.transform? id).getD "" := by
  have hjoined : ∀ l : List NodeId,
      l.foldr (fun a above => nested above (d.transform? a)) none =
        if l.reverse.filterMap d.transform? = [] then none
        else some (" ".intercalate (l.reverse.filterMap d.transform?)) := by
    intro l
    induction l with
    | nil => rfl
    | cons a rest ih =>
      rw [List.foldr_cons, ih, List.reverse_cons, List.filterMap_append]
      generalize rest.reverse.filterMap d.transform? = above
      cases ha : d.transform? a with
      | none => simp [ha]
      | some s =>
        by_cases hnil : above = []
        · simp [ha, hnil]
        · rw [if_neg hnil, if_neg (by simp [hnil])]
          simp [ha, intercalate_concat hnil, nested]
  rw [jointTransform, gathered, hjoined]
  split
  · next hnil => rw [hnil]; rfl
  · rfl

theorem IsForest.mem_subtree_root_iff (h : d.IsForest) {id : NodeId} :
    id ∈ d.subtree root ↔ d.gathered (· || ·) false (· == root) id = true := by
  have hmem : ∀ l : List NodeId,
      l.foldr (fun a above => above || a == root) false = true ↔ root ∈ l := by
    intro l
    induction l with
    | nil => simp
    | cons a rest ih =>
      rw [List.foldr_cons, Bool.or_eq_true, ih, List.mem_cons, or_comm, beq_iff_eq, eq_comm]
  rw [h.mem_subtree_iff, gathered, hmem, List.mem_cons, h.mem_ancestors_iff, eq_comm]

/-- Replacing a node by its children takes no other node out. -/
theorem IsRooted.mem_subtree_unwrap_iff (h : d.IsRooted) {id j : NodeId} (hj : j ≠ id) :
    j ∈ (d.unwrap id).subtree root ↔ j ∈ d.subtree root := by
  cases hp : d.parent id with
  | none => rw [unwrap_of_parent_none hp]
  | some p =>
    have hroot : (id == root) = false := by
      rw [beq_eq_false_iff_ne]
      rintro rfl
      rw [h.parent_root] at hp
      cases hp
    rw [h.isForest.mem_subtree_root_iff, (h.isForest.unwrap id).mem_subtree_root_iff,
      h.isForest.gathered_unwrap (· == root) Bool.or_false hroot hj]

theorem IsRooted.elements_unwrap (h : d.IsRooted) {id : NodeId} (hid : d.isElement id = true) :
    (d.unwrap id).elements = d.elements.filter (· != id) := by
  have hne : root ≠ id := by
    rintro rfl
    rw [h.not_isElement_root] at hid
    cases hid
  have helement : (d.unwrap id).isElement = d.isElement := by
    funext j
    rw [isElement, content_unwrap, isElement]
  rw [elements, elements, h.isForest.subtree_unwrap hne, helement, List.filter_filter,
    List.filter_filter]
  exact List.filter_congr fun j _ => Bool.and_comm ..

end Document
end SvgCompact
