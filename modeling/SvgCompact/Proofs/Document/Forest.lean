import Mathlib.Logic.Relation
import SvgCompact.Proofs.Document.Views

/-!
The table of a document holds an ordered forest.

Links are stored twice, as lists of children and as parents.  `IsForest` says that
the two agree, that no child is listed twice and that no node is above itself.
The moves that link nodes are all cases of one step, `IsForest.of_relinked`: a
stretch of a list of children is exchanged for nodes without parents.  The main
statement, `links_of_reached`, follows by induction over the moves.
-/

namespace SvgCompact
namespace Document

/-- Whether the first node is a proper ancestor of the second. -/
def IsAbove (d : Document) : NodeId → NodeId → Prop :=
  Relation.TransGen fun p c => d.parent c = some p

/-- Links agree in both directions, lists of children do not repeat, and there are
no cycles. -/
structure IsForest (d : Document) : Prop where
  mem_children_iff : ∀ p c, c ∈ d.children p ↔ d.parent c = some p
  nodup_children : ∀ p, (d.children p).Nodup
  not_above_self : ∀ id, ¬ d.IsAbove id id

/-- Whether a node can be put below another: both exist, and the first is neither
the second nor above it. -/
structure CanHold (d : Document) (p c : NodeId) : Prop where
  parent_lt : p < d.size
  child_lt : c < d.size
  ne : c ≠ p
  not_above : ¬ d.IsAbove c p

/-! ## Ancestors -/

theorem isAbove_of_parent {d : Document} {p c : NodeId} (h : d.parent c = some p) :
    d.IsAbove p c :=
  .single h

theorem not_isAbove_of_parent_none {d : Document} {a c : NodeId} (h : d.parent c = none) :
    ¬ d.IsAbove a c := by
  intro ha
  obtain ⟨b, -, hb⟩ := Relation.TransGen.tail'_iff.1 ha
  rw [h] at hb
  cases hb

theorem isAbove_iff_of_parent {d : Document} {a p c : NodeId} (h : d.parent c = some p) :
    d.IsAbove a c ↔ a = p ∨ d.IsAbove a p := by
  constructor
  · intro ha
    obtain ⟨b, hab, hb⟩ := Relation.TransGen.tail'_iff.1 ha
    obtain rfl : b = p := Option.some.inj (hb.symm.trans h)
    exact (Relation.reflTransGen_iff_eq_or_transGen.1 hab).imp (Eq.symm) id
  · intro hcase
    rcases hcase with rfl | ha
    · exact isAbove_of_parent h
    · exact ha.tail h

theorem IsAbove.mono {d e : Document} (h : ∀ c p, d.parent c = some p → e.parent c = some p)
    {a c : NodeId} (ha : d.IsAbove a c) : e.IsAbove a c :=
  Relation.TransGen.mono (fun p c => h c p) _ _ ha

/-- A path through links of `E` and links from `p` to `R` runs through the former
alone, or it goes to `p` and on from one of `R`: no way leads from `R` back to
`p`. -/
theorem transGen_or_through {α : Type} {E : α → α → Prop} {p : α} {R : α → Prop}
    (hR : ∀ r, R r → ¬ Relation.ReflTransGen E r p) {a b : α}
    (h : Relation.TransGen (fun x y => E x y ∨ (x = p ∧ R y)) a b) :
    Relation.TransGen E a b ∨
      ∃ r, R r ∧ Relation.ReflTransGen E a p ∧ Relation.ReflTransGen E r b := by
  induction h with
  | single hab =>
    rcases hab with hab | ⟨rfl, hr⟩
    · exact .inl (.single hab)
    · exact .inr ⟨_, hr, .refl, .refl⟩
  | tail _ hbc ih =>
    rcases hbc with hbc | ⟨rfl, hc⟩
    · rcases ih with ih | ⟨r, hr, hap, hrb⟩
      · exact .inl (ih.tail hbc)
      · exact .inr ⟨r, hr, hap, hrb.tail hbc⟩
    · rcases ih with ih | ⟨r, hr, hap, hrb⟩
      · exact .inr ⟨_, hc, ih.to_reflTransGen, .refl⟩
      · exact absurd hrb (hR r hr)

/-! ## The step behind all moves -/

namespace IsForest

variable {d e : Document}

theorem of_links (h : d.IsForest) (hparent : ∀ j, e.parent j = d.parent j)
    (hchildren : ∀ j, e.children j = d.children j) : e.IsForest where
  mem_children_iff p c := by rw [hchildren, hparent]; exact h.mem_children_iff p c
  nodup_children p := by rw [hchildren]; exact h.nodup_children p
  not_above_self id ha :=
    h.not_above_self id (ha.mono fun c p hc => by rw [← hparent]; exact hc)

theorem lt_size_of_isAbove (h : d.IsForest) {a c : NodeId} (ha : d.IsAbove a c) : a < d.size := by
  obtain ⟨b, hb, -⟩ := Relation.TransGen.head'_iff.1 ha
  exact lt_size_of_mem_children ((h.mem_children_iff a b).2 hb)

/-- New links from `p` to nodes that are not above it close no cycle. -/
theorem not_isAbove_self_of_linked (h : d.IsForest) {p : NodeId} {added : List NodeId}
    (hfree : ∀ r ∈ added, r ≠ p ∧ ¬ d.IsAbove r p)
    (hlinks : ∀ x y, e.parent y = some x → d.parent y = some x ∨ (x = p ∧ y ∈ added))
    (id : NodeId) : ¬ e.IsAbove id id := by
  intro ha
  have hback : ∀ r, r ∈ added →
      ¬ Relation.ReflTransGen (fun x y => d.parent y = some x) r p := by
    intro r hr hrp
    rcases Relation.reflTransGen_iff_eq_or_transGen.1 hrp with heq | habove
    · exact (hfree r hr).1 heq.symm
    · exact (hfree r hr).2 habove
  have hpath := transGen_or_through hback (Relation.TransGen.mono hlinks _ _ ha)
  rcases hpath with hd | ⟨r, hr, hap, hra⟩
  · exact h.not_above_self id hd
  · exact hback r hr (hra.trans hap)

/-- The children of `p` are `front`, `removed` and `back`; those in the middle give
way to `added`, nodes without parents of which none is `p` or above it. -/
theorem of_relinked (h : d.IsForest) (p : NodeId) (front removed back added : List NodeId)
    (hp : d.children p = front ++ removed ++ back) (hadded : added.Nodup)
    (hfree : ∀ r ∈ added, d.parent r = none ∧ r ≠ p ∧ ¬ d.IsAbove r p)
    (hchildren : ∀ j, e.children j = if j = p then front ++ added ++ back else d.children j)
    (hparent : ∀ j, e.parent j =
      if j ∈ added then some p else if j ∈ removed then none else d.parent j) :
    e.IsForest := by
  have hold : ∀ c, c ∈ front ++ removed ++ back ↔ d.parent c = some p := fun c => by
    rw [← hp]; exact h.mem_children_iff p c
  have hnodup : (front ++ removed ++ back).Nodup := hp ▸ h.nodup_children p
  have hnew : ∀ r ∈ added, r ∉ front ++ removed ++ back := fun r hr hm => by
    have hrp := (hold r).1 hm
    rw [(hfree r hr).1] at hrp
    cases hrp
  refine ⟨fun q c => ?_, fun q => ?_, h.not_isAbove_self_of_linked
    (fun r hr => (hfree r hr).2) fun x y hy => ?_⟩
  · have hq := h.mem_children_iff q c
    rw [hchildren, hparent]
    by_cases hca : c ∈ added
    · have hcq := (hfree c hca).1
      by_cases hqp : q = p <;> simp_all [eq_comm]
    · by_cases hcr : c ∈ removed
      · have hcp : d.parent c = some p := (hold c).1 (by simp [hcr])
        have hcf : c ∉ front := fun hf => by
          simp only [List.nodup_append, List.mem_append] at hnodup; grind
        have hcb : c ∉ back := fun hb => by
          simp only [List.nodup_append, List.mem_append] at hnodup; grind
        by_cases hqp : q = p <;> simp_all [eq_comm]
      · rw [if_neg hca, if_neg hcr]
        by_cases hqp : q = p
        · subst hqp
          rw [if_pos rfl, ← hold c]
          simp [hca, hcr]
        · rw [if_neg hqp]
          exact hq
  · rw [hchildren]
    split
    · simp only [List.nodup_append, List.mem_append] at hnodup hnew ⊢
      grind
    · exact h.nodup_children q
  · rw [hparent] at hy
    split at hy
    · next hya => exact .inr ⟨(Option.some.inj hy).symm, hya⟩
    · split at hy
      · cases hy
      · exact .inl hy

/-! ## Unlinking -/

theorem detach (h : d.IsForest) (id : NodeId) : (d.detach id).IsForest where
  mem_children_iff p c := by
    rw [children_detach, parent_detach]
    have hp := h.mem_children_iff p c
    by_cases hc : c = id
    · subst hc
      split <;> simp_all
    · split <;> simp_all
  nodup_children p := by
    rw [children_detach]
    split
    · exact (h.nodup_children p).filter _
    · exact h.nodup_children p
  not_above_self a ha := by
    refine h.not_above_self a (ha.mono fun c p hc => ?_)
    rw [parent_detach] at hc
    split at hc
    · cases hc
    · exact hc

theorem children_detach (h : d.IsForest) (id j : NodeId) :
    (d.detach id).children j = (d.children j).filter (· != id) := by
  rw [Document.children_detach]
  split
  · rfl
  · next hp =>
    rw [List.filter_eq_self.2]
    intro c hc
    have hcp := (h.mem_children_iff j c).1 hc
    simp only [bne_iff_ne]
    intro heq
    subst heq
    exact hp hcp

theorem detachAll (h : d.IsForest) (ids : List NodeId) : (d.detachAll ids).IsForest := by
  induction ids generalizing d with
  | nil => exact h
  | cons id rest ih => exact ih (h.detach id)

theorem children_detachAll (h : d.IsForest) (ids : List NodeId) (j : NodeId) :
    (d.detachAll ids).children j = (d.children j).filter (· ∉ ids) := by
  induction ids generalizing d with
  | nil => exact (List.filter_eq_self.2 fun c _ => by simp).symm
  | cons id rest ih =>
    refine (ih (h.detach id)).trans ?_
    rw [h.children_detach, List.filter_filter]
    congr 1
    funext c
    by_cases hc : c = id <;> simp [hc]

/-- A place among the children is known from the parent. -/
theorem indexInParent?_eq_some (h : d.IsForest) {p c : NodeId} (hc : d.parent c = some p) :
    ∃ front back, d.children p = front ++ c :: back ∧ d.indexInParent? c = some front.length := by
  have hm := (h.mem_children_iff p c).2 hc
  obtain ⟨front, back, hs, hf⟩ := List.eq_append_cons_of_mem hm
  refine ⟨front, back, hs, ?_⟩
  rw [indexInParent?, siblings, hc]
  simp only [hs]
  rw [List.idxOf?_eq_some_iff]
  refine ⟨by simp, by simp, fun j hj he => hf ?_⟩
  rw [List.getElem_append_left hj] at he
  exact he ▸ List.getElem_mem hj

/-! ## Creating and linking -/

theorem empty : Document.empty.IsForest := by
  have hparent : ∀ j, Document.empty.parent j = none := fun j => by
    match j with
    | 0 => rfl
    | j + 1 => rfl
  have hchildren : ∀ j, Document.empty.children j = [] := fun j => by
    match j with
    | 0 => rfl
    | j + 1 => rfl
  refine ⟨fun p c => by simp [hparent, hchildren], fun p => by simp [hchildren], fun id ha => ?_⟩
  exact not_isAbove_of_parent_none (hparent id) ha

theorem create (h : d.IsForest) (content : Content) : (d.create content).1.IsForest :=
  h.of_links (parent_create d · content) (children_create d · content)

theorem setContent (h : d.IsForest) (id : NodeId) (content : Content) :
    (d.setContent id content).IsForest :=
  h.of_links (parent_setContent d id · content) (children_setContent d id · content)

theorem setChildren_of_perm (h : d.IsForest) {p : NodeId} {order : List NodeId}
    (ho : order.Perm (d.children p)) : (d.setChildren p order).IsForest := by
  have hchildren : ∀ j, ((d.setChildren p order).children j).Perm (d.children j) := fun j => by
    rw [children_setChildren]
    split
    · next hj => exact hj.1 ▸ ho
    · exact .refl _
  refine ⟨fun q c => ?_, fun q => ?_, fun id ha => ?_⟩
  · rw [(hchildren q).mem_iff, parent_setChildren]
    exact h.mem_children_iff q c
  · exact (hchildren q).nodup_iff.2 (h.nodup_children q)
  · exact h.not_above_self id (ha.mono fun c p hc => by rwa [parent_setChildren] at hc)

end IsForest

theorem CanHold.detach {d : Document} {p c : NodeId} (h : d.CanHold p c) (id : NodeId) :
    (d.detach id).CanHold p c where
  parent_lt := (size_detach d id).symm ▸ h.parent_lt
  child_lt := (size_detach d id).symm ▸ h.child_lt
  ne := h.ne
  not_above ha := h.not_above <| ha.mono fun c p hc => by
    rw [parent_detach] at hc
    split at hc
    · cases hc
    · exact hc

/-! ## Moving -/

namespace IsForest

variable {d : Document} {p c : NodeId}

theorem parent_insertChild (h : d.CanHold p c) (i : Nat) (j : NodeId) :
    (d.insertChild p i c).parent j = if j = c then some p else d.parent j := by
  rw [insertChild, parent_setParent, parent_setChildren, parent_detach, size_setChildren,
    size_detach]
  have hc := h.child_lt
  by_cases hj : j = c <;> simp [hj, hc]

theorem children_insertChild (h : d.IsForest) (hpc : d.CanHold p c) (i : Nat) (j : NodeId) :
    (d.insertChild p i c).children j =
      if j = p then
        ((d.children p).filter (· != c)).take i ++ c :: ((d.children p).filter (· != c)).drop i
      else (d.children j).filter (· != c) := by
  have hp := hpc.parent_lt
  rw [insertChild, children_setParent, children_setChildren, size_detach,
    h.children_detach, h.children_detach]
  by_cases hj : j = p <;> simp [hj, hp]

theorem insertChild (h : d.IsForest) (hpc : d.CanHold p c) (i : Nat) :
    (d.insertChild p i c).IsForest := by
  have hd := h.detach c
  have hchildren := h.children_insertChild hpc i
  refine hd.of_relinked p (((d.detach c).children p).take i) []
    (((d.detach c).children p).drop i) [c] (by simp) (by simp)
    (fun r hr => ?_) (fun j => ?_) fun j => ?_
  · rw [List.mem_singleton] at hr
    subst hr
    exact ⟨by simp [parent_detach], hpc.ne, (hpc.detach r).not_above⟩
  · rw [hchildren, h.children_detach, h.children_detach]
    simp
  · rw [parent_insertChild hpc, parent_detach]
    by_cases hj : j = c <;> simp [hj]

theorem appendChild (h : d.IsForest) (hpc : d.CanHold p c) : (d.appendChild p c).IsForest :=
  h.insertChild hpc _

theorem canHold_create (h : d.IsForest) (content : Content) (hp : p < d.size) :
    (d.create content).1.CanHold p d.size where
  parent_lt := by rw [size_create]; exact Nat.lt_succ_of_lt hp
  child_lt := by rw [size_create]; exact Nat.lt_succ_self _
  ne := Nat.ne_of_gt hp
  not_above ha := by
    have hc := (h.create content).mem_children_iff d.size
    obtain ⟨b, hb, -⟩ := Relation.TransGen.head'_iff.1 ha
    have hm := (hc b).2 hb
    rw [children_create] at hm
    exact Nat.lt_irrefl _ (lt_size_of_mem_children hm)

theorem append (h : d.IsForest) (content : Content) (hp : p < d.size) :
    (d.append p content).1.IsForest :=
  (h.create content).appendChild (h.canHold_create content hp)

theorem removeChild (h : d.IsForest) (p c : NodeId) : (d.removeChild p c).1.IsForest := by
  rw [Document.removeChild]
  split
  · exact h.detach c
  · exact h

/-- What replacing a child comes to when there is one to replace. -/
theorem replaceChild_of_parent (h : d.IsForest) {old new : NodeId} (ho : d.parent old = some p)
    (hne : old ≠ new) : ∃ front back, (d.detach new).children p = front ++ old :: back ∧
      d.replaceChild p old new =
        ((((d.detach new).setChildren p (front ++ new :: back)).setParent new (some p)).setParent
          old none, true) := by
  have hop : (d.detach new).parent old = some p := by rw [parent_detach, if_neg hne, ho]
  obtain ⟨front, back, hs, hi⟩ := (h.detach new).indexInParent?_eq_some hop
  refine ⟨front, back, hs, ?_⟩
  rw [Document.replaceChild, if_neg (by simp [ho, hne])]
  simp only [hi, hs]
  rw [List.set_append_right _ _ (Nat.le_refl _)]
  simp

theorem replaceChild (h : d.IsForest) {old new : NodeId}
    (hnew : d.parent old = some p → old ≠ new → d.CanHold p new) :
    (d.replaceChild p old new).1.IsForest := by
  by_cases ho : d.parent old = some p ∧ old ≠ new
  · obtain ⟨ho, hne⟩ := ho
    have hpc := hnew ho hne
    obtain ⟨front, back, hs, hr⟩ := h.replaceChild_of_parent ho hne
    have hp := hpc.parent_lt
    have hc := hpc.child_lt
    have hlt := lt_size_of_parent ho
    rw [hr]
    refine (h.detach new).of_relinked p front [old] back [new] (by simp [hs]) (by simp)
      (fun r hr => ?_) (fun j => ?_) fun j => ?_
    · rw [List.mem_singleton] at hr
      subst hr
      exact ⟨by simp [parent_detach], hpc.ne, (hpc.detach r).not_above⟩
    · simp [children_setChildren, hp]
    · simp only [parent_setParent, parent_setChildren, size_setParent, size_setChildren,
        size_detach, List.mem_singleton]
      by_cases hjn : j = new
      · simp [hjn, hc, Ne.symm hne]
      · by_cases hjo : j = old
        · simp [hjo, hne, hlt]
        · simp [hjn, hjo]
  · rw [Document.replaceChild, if_pos (by
      rcases Decidable.not_and_iff_not_or_not.1 ho with h' | h'
      · exact .inl h'
      · exact .inr (Decidable.not_not.1 h'))]
    exact h

end IsForest

/-! ## Exchanging a stretch of children -/

theorem CanHold.detachAll {d : Document} {p c : NodeId} (h : d.CanHold p c) (ids : List NodeId) :
    (d.detachAll ids).CanHold p c := by
  induction ids generalizing d with
  | nil => exact h
  | cons id rest ih => exact ih (h.detach id)

/-- What the exchange of a stretch of children does once the replacement is
unlinked. -/
def exchange (d : Document) (p : NodeId) (start stop : Nat) (added : List NodeId) : Document :=
  let l := d.children p
  ((d.setChildren p (l.take start ++ added ++ l.drop (max start stop))).setParents none
    ((l.take stop).drop start)).setParents (some p) added

theorem splice_eq (d : Document) (p : NodeId) (start stop : Nat) (added : List NodeId) :
    d.splice p start stop added = ((d.detachAll added).exchange p start stop added,
      (((d.detachAll added).children p).take stop).drop start) := rfl

theorem take_append_drop_take_append_drop {α : Type} (l : List α) (start stop : Nat) :
    l.take start ++ (l.take stop).drop start ++ l.drop (max start stop) = l := by
  have hmax : max start stop = start + (stop - start) := by omega
  rw [List.drop_take, hmax, ← List.drop_drop, List.append_assoc, List.take_append_drop,
    List.take_append_drop]

namespace IsForest

variable {d : Document} {p : NodeId}

/-- The nodes that are put in have no parent. -/
theorem exchange (h : d.IsForest) {added : List NodeId} (hp : p < d.size) (hn : added.Nodup)
    (hfree : ∀ c ∈ added, d.parent c = none ∧ d.CanHold p c) (start stop : Nat) :
    (d.exchange p start stop added).IsForest := by
  refine h.of_relinked p ((d.children p).take start) (((d.children p).take stop).drop start)
    ((d.children p).drop (max start stop)) added
    (take_append_drop_take_append_drop _ start stop).symm hn
    (fun c hc => ⟨(hfree c hc).1, (hfree c hc).2.ne, (hfree c hc).2.not_above⟩)
    (fun j => ?_) fun j => ?_
  · simp [Document.exchange, children_setChildren, hp]
  · simp only [Document.exchange, parent_setParents, size_setParents, parent_setChildren,
      size_setChildren]
    by_cases hja : j ∈ added
    · simp [hja, (hfree j hja).2.child_lt]
    · by_cases hjr : j ∈ ((d.children p).take stop).drop start
      · have hjp := (h.mem_children_iff p j).1 (List.mem_of_mem_take (List.mem_of_mem_drop hjr))
        simp [hja, hjr, lt_size_of_parent hjp]
      · simp [hja, hjr]

theorem splice (h : d.IsForest) {added : List NodeId} (hp : p < d.size) (hn : added.Nodup)
    (hadded : ∀ c ∈ added, d.CanHold p c) (start stop : Nat) :
    (d.splice p start stop added).1.IsForest := by
  rw [splice_eq]
  refine (h.detachAll added).exchange (by rwa [size_detachAll]) hn (fun c hc => ⟨?_, ?_⟩) _ _
  · rw [parent_detachAll, if_pos hc]
  · exact (hadded c hc).detachAll added

theorem canHold_grandchild (h : d.IsForest) {id c : NodeId} (hid : d.parent id = some p)
    (hc : d.parent c = some id) : d.CanHold p c where
  parent_lt := lt_size_of_mem_children ((h.mem_children_iff p id).2 hid)
  child_lt := lt_size_of_parent hc
  ne hcp := h.not_above_self id ((isAbove_of_parent hc).tail (hcp ▸ hid))
  not_above ha := h.not_above_self id (((isAbove_of_parent hc).trans ha).tail hid)

end IsForest

/-- Forgetting the list of children before or after they are unlinked is the same. -/
theorem detach_setChildren_nil (d : Document) {id c : NodeId}
    (hc : d.parent c = some id ∨ d.parent c = none) :
    (d.setChildren id []).detach c = (d.detach c).setChildren id [] := by
  refine ext_views (by simp) (fun j => ?_) (fun j => ?_) fun j => by simp
  · simp only [parent_detach, parent_setChildren]
  · simp only [children_detach, parent_setChildren, children_setChildren, size_detach]
    by_cases hj : j = id
    · by_cases hs : id < d.size <;> simp [hj, hs]
    · rcases hc with hc | hc <;> simp [hc, hj, Ne.symm hj]

theorem detachAll_setChildren_nil (d : Document) {id : NodeId} {ids : List NodeId}
    (hids : ∀ c ∈ ids, d.parent c = some id ∨ d.parent c = none) :
    (d.setChildren id []).detachAll ids = (d.detachAll ids).setChildren id [] := by
  induction ids generalizing d with
  | nil => rfl
  | cons c rest ih =>
    have hrest : ∀ x ∈ rest, (d.detach c).parent x = some id ∨ (d.detach c).parent x = none := by
      intro x hx
      rw [parent_detach]
      split
      · exact .inr rfl
      · exact hids x (List.mem_cons_of_mem c hx)
    rw [detachAll, detachAll, List.foldl_cons, List.foldl_cons,
      detach_setChildren_nil d (hids c (List.mem_cons_self ..))]
    exact ih (d.detach c) hrest

namespace IsForest

variable {d : Document}

theorem detachAll_children (h : d.IsForest) (id : NodeId) :
    (d.setChildren id []).detachAll (d.children id) = d.detachAll (d.children id) := by
  rw [detachAll_setChildren_nil d fun c hc => .inl ((h.mem_children_iff id c).1 hc)]
  refine ext_views (by simp) (fun j => by simp) (fun j => ?_) fun j => by simp
  rw [children_setChildren, h.children_detachAll]
  split
  · next hj => simp [hj.1]
  · rfl

theorem unwrap_of_parent (h : d.IsForest) {id p : NodeId} (hid : d.parent id = some p) :
    ∃ front back, d.children p = front ++ id :: back ∧
      d.unwrap id = (d.splice p front.length (front.length + 1) (d.children id)).1 := by
  obtain ⟨front, back, hs, hi⟩ := h.indexInParent?_eq_some hid
  refine ⟨front, back, hs, ?_⟩
  rw [unwrap, hid, hi]
  simp only [splice_eq, h.detachAll_children]

theorem unwrap (h : d.IsForest) (id : NodeId) : (d.unwrap id).IsForest := by
  cases hid : d.parent id with
  | none =>
    rw [Document.unwrap, hid]
    exact h
  | some p =>
    obtain ⟨front, back, -, hu⟩ := h.unwrap_of_parent hid
    rw [hu]
    refine h.splice (lt_size_of_mem_children ((h.mem_children_iff p id).2 hid))
      (h.nodup_children id) (fun c hc => ?_) _ _
    exact h.canHold_grandchild hid ((h.mem_children_iff id c).1 hc)

end IsForest

/-! ## Copying -/

/-- A document grown from another: still a forest, with the parents of the old nodes
as they were. -/
structure GrowsFrom (d e : Document) : Prop where
  isForest : e.IsForest
  size_le : d.size ≤ e.size
  parent_eq : ∀ j, j < d.size → e.parent j = d.parent j

theorem GrowsFrom.trans {d e f : Document} (hde : d.GrowsFrom e) (hef : e.GrowsFrom f) :
    d.GrowsFrom f where
  isForest := hef.isForest
  size_le := Nat.le_trans hde.size_le hef.size_le
  parent_eq j hj := (hef.parent_eq j (Nat.lt_of_lt_of_le hj hde.size_le)).trans (hde.parent_eq j hj)

namespace IsForest

theorem growsFrom_create {d : Document} (h : d.IsForest) (content : Content) :
    d.GrowsFrom (d.create content).1 where
  isForest := h.create content
  size_le := by rw [size_create]; exact Nat.le_succ _
  parent_eq j _ := parent_create d j content

/-- Linking a node that is not among the first `n` to one without parent. -/
theorem growsFrom_appendChild {d e : Document} (h : d.GrowsFrom e) {p c : NodeId}
    (hp : e.parent p = none) (hps : p < e.size) (hc : d.size ≤ c) (hcs : c < e.size)
    (hne : c ≠ p) : d.GrowsFrom (e.appendChild p c) ∧ (e.appendChild p c).parent p = none
      ∧ (e.appendChild p c).size = e.size := by
  have hpc : e.CanHold p c := ⟨hps, hcs, hne, not_isAbove_of_parent_none hp⟩
  have hsize : (e.appendChild p c).size = e.size := by
    simp [Document.appendChild, Document.insertChild]
  refine ⟨⟨h.isForest.appendChild hpc, hsize ▸ h.size_le, fun j hj => ?_⟩, ?_, hsize⟩
  · rw [Document.appendChild, parent_insertChild hpc,
      if_neg (Nat.ne_of_lt (Nat.lt_of_lt_of_le hj hc)), h.parent_eq j hj]
  · rw [Document.appendChild, parent_insertChild hpc, if_neg (Ne.symm hne), hp]

/-- The copy is the first new node; the induction is on the bound, and within it
over the children that are copied so far. -/
theorem growsFrom_copyWithin (n : Nat) {d : Document} (h : d.IsForest) (id : NodeId) :
    d.GrowsFrom (copyWithin n d id).1 ∧ (copyWithin n d id).2 = d.size
      ∧ d.size < (copyWithin n d id).1.size := by
  induction n generalizing d id with
  | zero => exact ⟨h.growsFrom_create _, rfl, by simp [copyWithin]⟩
  | succ n ih =>
    have hchildren : ∀ (ids : List NodeId) (e : Document), d.GrowsFrom e →
        e.parent d.size = none → d.size < e.size →
        let e' := ids.foldl (fun e child =>
          (copyWithin n e child).1.appendChild d.size (copyWithin n e child).2) e
        d.GrowsFrom e' ∧ d.size < e'.size := by
      intro ids
      induction ids with
      | nil => exact fun e he _ hs => ⟨he, hs⟩
      | cons child rest ihr =>
        intro e he hroot hs
        obtain ⟨hg, hid, hlt⟩ := ih he.isForest child
        have hroot' : (copyWithin n e child).1.parent d.size = none :=
          (hg.parent_eq _ hs).trans hroot
        obtain ⟨hg', hp', hs'⟩ := growsFrom_appendChild (he.trans hg) hroot'
          (Nat.lt_trans hs hlt) (Nat.le_trans he.size_le (Nat.le_of_eq hid.symm)) (hid ▸ hlt)
          (hid ▸ Nat.ne_of_gt hs)
        exact ihr _ hg' hp' (hs' ▸ Nat.lt_trans hs hlt)
    have hcreate := h.growsFrom_create (d.content id)
    have hparent : (d.create (d.content id)).1.parent d.size = none := by
      rw [parent_create, parent_of_size_le (Nat.le_refl _)]
    obtain ⟨hg, hs⟩ := hchildren (d.children id) _ hcreate hparent (by simp)
    exact ⟨hg, rfl, hs⟩

theorem copy {d : Document} (h : d.IsForest) (id : NodeId) : (d.copy id).1.IsForest :=
  (growsFrom_copyWithin d.size h id).1.isForest

end IsForest

/-! ## Runs of moves -/

/-- A move of nodes.  To remove a node is to unlink it. -/
inductive Move
  | create (content : Content)
  | append (parent : NodeId) (content : Content)
  | appendChild (parent child : NodeId)
  | insertChild (parent : NodeId) (index : Nat) (child : NodeId)
  | removeChild (parent child : NodeId)
  | replaceChild (parent old new : NodeId)
  | splice (parent : NodeId) (start stop : Nat) (replacement : List NodeId)
  | detach (id : NodeId)
  | unwrap (id : NodeId)
  | reorder (parent : NodeId) (order : List NodeId)
  | copy (id : NodeId)

namespace Move

def run (d : Document) : Move → Document
  | create content => (d.create content).1
  | append parent content => (d.append parent content).1
  | appendChild parent child => d.appendChild parent child
  | insertChild parent index child => d.insertChild parent index child
  | removeChild parent child => (d.removeChild parent child).1
  | replaceChild parent old new => (d.replaceChild parent old new).1
  | splice parent start stop replacement => (d.splice parent start stop replacement).1
  | detach id => d.detach id
  | unwrap id => d.unwrap id
  | reorder parent order => d.setChildren parent order
  | copy id => (d.copy id).1

/-- What a caller owes: the nodes exist, none is put below itself or one of its
descendants, none is put in twice, and an order is one of the children. -/
def IsLegal (d : Document) : Move → Prop
  | append parent _ => parent < d.size
  | appendChild parent child => d.CanHold parent child
  | insertChild parent _ child => d.CanHold parent child
  | replaceChild parent old new => d.parent old = some parent → old ≠ new → d.CanHold parent new
  | splice parent _ _ replacement =>
    parent < d.size ∧ replacement.Nodup ∧ ∀ c ∈ replacement, d.CanHold parent c
  | reorder parent order => order.Perm (d.children parent)
  | _ => True

end Move

/-- The documents that legal moves reach from the empty one. -/
inductive Reached : Document → Prop
  | empty : Reached .empty
  | move {d : Document} (m : Move) : Reached d → m.IsLegal d → Reached (m.run d)

theorem IsForest.run {d : Document} (h : d.IsForest) {m : Move} (hm : m.IsLegal d) :
    (m.run d).IsForest := by
  cases m with
  | create content => exact h.create content
  | append parent content => exact h.append content hm
  | appendChild parent child => exact h.appendChild hm
  | insertChild parent index child => exact h.insertChild hm index
  | removeChild parent child => exact h.removeChild parent child
  | replaceChild parent old new => exact h.replaceChild hm
  | splice parent start stop replacement => exact h.splice hm.1 hm.2.1 hm.2.2 start stop
  | detach id => exact h.detach id
  | unwrap id => exact h.unwrap id
  | reorder parent order => exact h.setChildren_of_perm hm
  | copy id => exact h.copy id

theorem isForest_of_reached {d : Document} (h : Reached d) : d.IsForest := by
  induction h with
  | empty => exact .empty
  | move m _ hm ih => exact ih.run hm

theorem removeChild_of_false {d : Document} {p c : NodeId} (h : (d.removeChild p c).2 = false) :
    (d.removeChild p c).1 = d := by
  unfold removeChild at h ⊢
  split at h
  · cases h
  · next hp => rw [if_neg hp]

/-- A replacement that says no has changed nothing: in a forest a child has a
place. -/
theorem IsForest.replaceChild_of_false {d : Document} (hd : d.IsForest) {p old new : NodeId}
    (h : (d.replaceChild p old new).2 = false) : (d.replaceChild p old new).1 = d := by
  by_cases ho : d.parent old ≠ some p ∨ old = new
  · rw [Document.replaceChild, if_pos ho]
  · obtain ⟨ho, hne⟩ := not_or.1 ho
    obtain ⟨front, back, -, hr⟩ := hd.replaceChild_of_parent (Decidable.not_not.1 ho) hne
    rw [hr] at h
    cases h

/-- In every document that legal moves reach, links agree in both directions, no
list of children repeats and no node is above itself; and what refuses to remove
or to replace a child leaves the document as it is. -/
theorem links_of_reached {d : Document} (h : Reached d) :
    (∀ p c, c ∈ d.children p ↔ d.parent c = some p) ∧ (∀ p, (d.children p).Nodup)
      ∧ (∀ id, ¬ d.IsAbove id id)
      ∧ (∀ p c, (d.removeChild p c).2 = false → (d.removeChild p c).1 = d)
      ∧ ∀ p old new, (d.replaceChild p old new).2 = false → (d.replaceChild p old new).1 = d := by
  have hd := isForest_of_reached h
  exact ⟨hd.mem_children_iff, hd.nodup_children, hd.not_above_self,
    fun _ _ => removeChild_of_false, fun _ _ _ => hd.replaceChild_of_false⟩

/-- A chain of four nodes, the document included. -/
def chain : Document :=
  (((Document.empty.append root (.text "a")).1.append 1 (.text "b")).1.append 2 (.text "c")).1

theorem reached_chain : Reached chain := by
  have one : Reached (Document.empty.append root (.text "a")).1 :=
    .move (.append root _) .empty Nat.zero_lt_one
  have two : Reached ((Document.empty.append root (.text "a")).1.append 1 (.text "b")).1 :=
    .move (.append 1 _) one (Nat.lt_succ_self 1)
  exact .move (.append 2 _) two (Nat.lt_succ_self 2)

/-- The last node of the chain takes the place of its own parent. -/
theorem links_of_replaced_by_child :
    (Move.replaceChild 1 2 3).IsLegal chain ∧
      let d := (Move.replaceChild 1 2 3).run chain
      d.children 1 = [3] ∧ d.parent 2 = none ∧ (∀ p c, c ∈ d.children p ↔ d.parent c = some p)
        ∧ ∀ id, ¬ d.IsAbove id id := by
  have hlegal : (Move.replaceChild 1 2 3).IsLegal chain := by
    refine fun _ _ => ⟨by decide, by decide, by decide, fun ha => ?_⟩
    rcases (isAbove_iff_of_parent (p := root) rfl).1 ha with h | h
    · cases h
    · exact not_isAbove_of_parent_none rfl h
  have hlinks := links_of_reached (.move _ reached_chain hlegal)
  exact ⟨hlegal, rfl, rfl, hlinks.1, hlinks.2.2.1⟩

end Document
end SvgCompact
