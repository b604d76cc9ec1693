import Mathlib.Data.List.Sort
import SvgCompact.Proofs.Document.Order
import SvgCompact.Proofs.Markup.Building

/-!
Documents whose nodes are numbered in document order.

Such a document grows at its end: cut off behind any of its nodes it is a document of
the same kind, and one node more is one `append` more.
-/

namespace SvgCompact
namespace Document

variable {d : Document} {a b c p x y : NodeId}

theorem children_append (h : d.IsForest) (hp : p < d.size) (content : Content) (j : NodeId) :
    (d.append p content).1.children j =
      if j = p then d.children p ++ [d.size] else d.children j := by
  have hchildren := (h.create content).children_insertChild (h.canHold_create content hp)
    ((d.create content).1.children p).length
  have hfresh : ∀ j, (d.children j).filter (· != d.size) = d.children j := by
    intro j
    refine List.filter_eq_self.2 fun c hc => ?_
    have hlt := lt_size_of_parent ((h.mem_children_iff j c).1 hc)
    simpa using Nat.ne_of_lt hlt
  refine (hchildren j).trans ?_
  simp only [children_create, hfresh, List.take_length, List.drop_length]

/-! ## Numbering -/

/-- Nodes are numbered in document order: the parent of a node is at or above the node
before it, and children are listed by number. -/
structure IsNumbered (d : Document) : Prop where
  isForest : d.IsForest
  parent_root : d.parent root = none
  parent_succ : ∀ n, n + 1 < d.size → ∃ p, d.parent (n + 1) = some p ∧ (p = n ∨ d.IsAbove p n)
  pairwise_children : ∀ p, (d.children p).Pairwise (· < ·)

namespace IsNumbered

variable (h : d.IsNumbered)
include h

theorem lt_of_isAbove (hab : d.IsAbove a b) : a < b := by
  induction b using Nat.strongRecOn generalizing a with
  | ind b ih =>
    cases b with
    | zero => exact absurd hab (not_isAbove_of_parent_none h.parent_root)
    | succ n =>
      obtain ⟨p, -, hp⟩ := Relation.TransGen.tail'_iff.1 hab
      obtain ⟨q, hq, hqn⟩ := h.parent_succ n (lt_size_of_parent hp)
      have hqlt : q < n + 1 := by
        rcases hqn with rfl | hqn
        · exact Nat.lt_succ_self q
        · exact Nat.lt_succ_of_lt (ih n (Nat.lt_succ_self n) hqn)
      rcases (isAbove_iff_of_parent hq).1 hab with rfl | haq
      · exact hqlt
      · exact Nat.lt_trans (ih q hqlt haq) hqlt

theorem parent_lt (hp : d.parent c = some p) : p < c :=
  h.lt_of_isAbove (isAbove_of_parent hp)

theorem root_or_isAbove {n : Nat} (hn : n < d.size) : n = root ∨ d.IsAbove root n := by
  induction n using Nat.strongRecOn with
  | ind n ih =>
    cases n with
    | zero => exact .inl rfl
    | succ n =>
      obtain ⟨p, hp, -⟩ := h.parent_succ n hn
      have hplt := h.parent_lt hp
      have habove := isAbove_of_parent hp
      rcases ih p hplt (Nat.lt_trans hplt hn) with rfl | hroot
      · exact .inr habove
      · exact .inr (hroot.trans habove)

/-- The nodes at or below a child come before the next child. -/
theorem lt_of_siblings (hx : d.parent x = some p) (hy : d.parent y = some p) (hxy : x < y)
    (hb : b = x ∨ d.IsAbove x b) : b < y := by
  have hapart : ¬ d.IsAbove x y := by
    intro habove
    rcases (isAbove_iff_of_parent hy).1 habove with heq | hup
    · subst heq
      exact Nat.lt_irrefl _ (h.parent_lt hx)
    · exact Nat.lt_asymm (h.lt_of_isAbove hup) (h.parent_lt hx)
  have hbehind : ∀ n, y ≤ n → n < d.size → ¬ (n = x ∨ d.IsAbove x n) := by
    intro n hyn hn
    induction n, hyn using Nat.le_induction with
    | base => exact not_or.2 ⟨Nat.ne_of_gt hxy, hapart⟩
    | succ n hyn ih =>
      have hnot := ih (Nat.lt_of_succ_lt hn)
      obtain ⟨q, hq, hqn⟩ := h.parent_succ n hn
      -- what is above the next node is at or above this one
      have hup : x = q ∨ d.IsAbove x q → n = x ∨ d.IsAbove x n := by
        intro hxq
        rcases hqn with rfl | hqn
        · exact hxq.imp_left Eq.symm
        · rcases hxq with rfl | hxq
          · exact .inr hqn
          · exact .inr (hxq.trans hqn)
      rintro (heq | habove)
      · exact Nat.lt_asymm hxy (heq ▸ Nat.lt_succ_of_le hyn)
      · exact hnot (hup ((isAbove_iff_of_parent hq).1 habove))
  have hlt : b < d.size := by
    rcases hb with rfl | hb
    · exact lt_size_of_parent hx
    · obtain ⟨q, -, hq⟩ := Relation.TransGen.tail'_iff.1 hb
      exact lt_size_of_parent hq
  exact Nat.lt_of_not_le fun hyb => hbehind b hyb hlt hb

theorem lt_of_precedes (hab : d.Precedes a b) : a < b := by
  rcases hab with habove | ⟨p, x, y, hxy, ha, hb⟩
  · exact h.lt_of_isAbove habove
  have hx := (h.isForest.mem_children_iff p x).1 (hxy.subset (by simp))
  have hy := (h.isForest.mem_children_iff p y).1 (hxy.subset (by simp))
  have hlt : x < y := by
    have hpair := (h.pairwise_children p).sublist hxy
    simpa using hpair
  have hay := h.lt_of_siblings hx hy hlt ha
  rcases hb with rfl | hb
  · exact hay
  · exact Nat.lt_trans hay (h.lt_of_isAbove hb)

/-- Walking through the document counts up its nodes. -/
theorem subtreeWithin_root (hroot : root < d.size) {n : Nat} (hn : d.size ≤ n) :
    d.subtreeWithin n root = List.range d.size := by
  have hsorted : (d.subtreeWithin n root).Pairwise (· < ·) :=
    (h.isForest.pairwise_subtreeWithin n root).imp h.lt_of_precedes
  have hmem : ∀ a, a ∈ d.subtreeWithin n root ↔ a ∈ List.range d.size := by
    intro a
    rw [h.isForest.mem_subtreeWithin_iff, List.mem_range]
    constructor
    · rintro ⟨k, -, hk⟩
      cases k with
      | zero =>
        cases hk
        exact hroot
      | succ k =>
        rw [climb] at hk
        obtain ⟨p, hp, -⟩ := Option.bind_eq_some_iff.1 hk
        exact lt_size_of_parent hp
    · intro ha
      rcases h.root_or_isAbove ha with rfl | habove
      · exact ⟨0, Nat.zero_le n, rfl⟩
      · obtain ⟨k, hk⟩ := isAbove_iff_climb.1 habove
        exact ⟨k + 1, Nat.le_trans (Nat.le_of_lt (h.isForest.lt_size_of_climb ha hk)) hn, hk⟩
  refine List.Perm.eq_of_pairwise' hsorted (List.pairwise_lt_range) ?_
  exact (List.perm_ext_iff_of_nodup (hsorted.imp Nat.ne_of_lt) List.nodup_range).2 hmem

end IsNumbered

/-! ## Growing -/

theorem IsNumbered.empty : Document.empty.IsNumbered where
  isForest := .empty
  parent_root := rfl
  parent_succ n hn := absurd hn (by simp [size, Document.empty])
  pairwise_children p := by
    cases p with
    | zero => exact List.Pairwise.nil
    | succ p => exact List.Pairwise.nil

/-- A node may be added below the last one or a node above it. -/
theorem IsNumbered.append (h : d.IsNumbered) (content : Content) {last : Nat}
    (hlast : d.size = last + 1) (hp : p = last ∨ d.IsAbove p last) :
    (d.append p content).1.IsNumbered := by
  have hplt : p < d.size := by
    rw [hlast]
    rcases hp with rfl | hp
    · exact Nat.lt_succ_self p
    · exact Nat.lt_succ_of_lt (h.lt_of_isAbove hp)
  have hparent := parent_append h.isForest hplt content
  have hmono : ∀ {a b}, d.IsAbove a b → (d.append p content).1.IsAbove a b := by
    intro a b hab
    refine hab.mono fun c q hc => ?_
    rw [hparent, if_neg (Nat.ne_of_lt (lt_size_of_parent hc)), hc]
  refine ⟨h.isForest.append content hplt, ?_, fun n hn => ?_, fun q => ?_⟩
  · rw [hparent, if_neg (by rw [hlast]; exact Nat.succ_ne_zero last ∘ Eq.symm), h.parent_root]
  · rw [size_append] at hn
    by_cases hnew : n + 1 = d.size
    · obtain rfl : n = last := by omega
      refine ⟨p, by rw [hparent, if_pos hnew], hp.imp_right hmono⟩
    · obtain ⟨q, hq, hqn⟩ := h.parent_succ n (by omega)
      exact ⟨q, by rw [hparent, if_neg hnew, hq], hqn.imp_right hmono⟩
  · rw [children_append h.isForest hplt]
    split
    · refine List.pairwise_append.2 ⟨h.pairwise_children p, List.pairwise_singleton .., ?_⟩
      intro a ha b hb
      obtain rfl := List.mem_singleton.1 hb
      exact lt_size_of_parent ((h.isForest.mem_children_iff p a).1 ha)
    · exact h.pairwise_children q

/-! ## Cutting off -/

/-- The nodes before a number. -/
def upTo (d : Document) (n : Nat) : Document :=
  ⟨(d.nodes.extract 0 n).map fun node => { node with children := node.children.filter (· < n) }⟩

section UpTo

variable {n : Nat} (j : NodeId)

theorem getElem?_upTo : (d.upTo n).nodes[j]? =
    if j < n then d.nodes[j]?.map fun node =>
      { node with children := node.children.filter (· < n) } else none := by
  rw [upTo, Array.getElem?_map, Array.getElem?_extract, Nat.sub_zero, Nat.zero_add]
  by_cases hj : j < n
  · rw [if_pos hj]
    by_cases hsize : j < d.nodes.size
    · rw [if_pos (Nat.lt_min.2 ⟨hj, hsize⟩)]
    · rw [Array.getElem?_eq_none (Nat.le_of_not_lt hsize), ite_self]
  · rw [if_neg hj, if_neg fun hlt => hj (Nat.lt_min.1 hlt).1]
    rfl

theorem size_upTo (hn : n ≤ d.size) : (d.upTo n).size = n := by
  rw [upTo, size, Array.size_map, Array.size_extract, Nat.sub_zero]
  exact Nat.min_eq_left hn

theorem parent_upTo : (d.upTo n).parent j = if j < n then d.parent j else none := by
  rw [parent_eq, parent_eq, getElem?_upTo]
  split
  · rw [Option.bind_map]
    rfl
  · rfl

theorem children_upTo :
    (d.upTo n).children j = if j < n then (d.children j).filter (· < n) else [] := by
  rw [children_eq, children_eq, getElem?_upTo]
  split
  · cases d.nodes[j]? <;> rfl
  · rfl

theorem content_upTo : (d.upTo n).content j = if j < n then d.content j else .root := by
  rw [content_eq, content_eq, getElem?_upTo]
  split
  · rw [Option.map_map]
    rfl
  · rfl

end UpTo

theorem upTo_size (h : d.IsForest) : d.upTo d.size = d := by
  refine ext_views (size_upTo (Nat.le_refl _)) (fun j => ?_) (fun j => ?_) fun j => ?_
  · rw [parent_upTo]
    split
    · rfl
    · next hj => exact (parent_of_size_le (Nat.le_of_not_lt hj)).symm
  · rw [children_upTo]
    split
    · refine List.filter_eq_self.2 fun c hc => ?_
      simpa using lt_size_of_parent ((h.mem_children_iff j c).1 hc)
    · next hj => exact (children_of_size_le (Nat.le_of_not_lt hj)).symm
  · rw [content_upTo]
    split
    · rfl
    · next hj => exact (content_of_size_le (Nat.le_of_not_lt hj)).symm

namespace IsNumbered

variable (h : d.IsNumbered) {n : Nat}
include h

theorem isForest_upTo (n : Nat) : (d.upTo n).IsForest where
  mem_children_iff p c := by
    rw [children_upTo, parent_upTo]
    have hiff := h.isForest.mem_children_iff p c
    by_cases hp : d.parent c = some p
    · have hlt := h.parent_lt hp
      by_cases hc : c < n
      · simp [hp, hc, hiff, Nat.lt_trans hlt hc]
      · by_cases hpn : p < n <;> simp [hc, hpn]
    · by_cases hc : c < n <;> by_cases hpn : p < n <;> simp [hp, hc, hpn, hiff]
  nodup_children p := by
    rw [children_upTo]
    split
    · exact (h.isForest.nodup_children p).filter _
    · exact List.nodup_nil
  not_above_self id habove := by
    refine h.isForest.not_above_self id (habove.mono fun c p hp => ?_)
    rw [parent_upTo] at hp
    exact (Option.ite_none_right_eq_some.1 hp).2

/-- One node more. -/
theorem append_upTo (hn : n < d.size) (hp : d.parent n = some p) :
    ((d.upTo n).append p (d.content n)).1 = d.upTo (n + 1) := by
  have hforest := h.isForest_upTo n
  have hsize : (d.upTo n).size = n := size_upTo (Nat.le_of_lt hn)
  have hpn := h.parent_lt hp
  have hplt : p < (d.upTo n).size := by rwa [hsize]
  refine ext_views ?_ (fun (j : Nat) => ?_) (fun (j : Nat) => ?_) fun (j : Nat) => ?_
  · rw [size_append, hsize, size_upTo hn]
  · rw [parent_append hforest hplt, hsize, parent_upTo, parent_upTo]
    by_cases hj : j = n
    · rw [if_pos hj, if_pos (hj ▸ Nat.lt_succ_self n), hj, hp]
    · rw [if_neg hj]
      exact if_congr (Nat.lt_succ_iff_lt_or_eq.trans (or_iff_left hj)).symm rfl rfl
  · rw [children_append hforest hplt, hsize, children_upTo, children_upTo, children_upTo,
      if_pos hpn]
    -- of the children, only the new node is as great as its number
    have hcut : ∀ q, q ≠ p → (d.children q).filter (· < n + 1) = (d.children q).filter (· < n) := by
      intro q hq
      refine List.filter_congr fun (c : Nat) hc => ?_
      have hcn : c ≠ n := by
        rintro rfl
        have hcq := (h.isForest.mem_children_iff q c).1 hc
        exact hq (Option.some.inj (hcq.symm.trans hp))
      exact decide_eq_decide.2 (Nat.lt_succ_iff_lt_or_eq.trans (or_iff_left hcn))
    by_cases hj : j = p
    · subst hj
      rw [if_pos rfl, if_pos (Nat.lt_succ_of_lt hpn)]
      obtain ⟨front, back, hs⟩ := List.append_of_mem ((h.isForest.mem_children_iff j n).2 hp)
      have hsorted := h.pairwise_children j
      rw [hs, List.pairwise_append, List.pairwise_cons] at hsorted
      obtain ⟨-, ⟨hback, -⟩, hfront⟩ := hsorted
      have hkept : ∀ {m}, n ≤ m → front.filter (· < m) = front := fun hm =>
        List.filter_eq_self.2 fun c hc =>
          decide_eq_true (Nat.lt_of_lt_of_le (hfront c hc n (by simp)) hm)
      have hdropped : ∀ {m}, m ≤ n + 1 → back.filter (· < m) = [] := fun hm =>
        List.filter_eq_nil_iff.2 fun c hc => by
          simpa using Nat.le_trans hm (hback c hc)
      rw [hs, List.filter_append, List.filter_append, hkept (Nat.le_refl n),
        hkept (Nat.le_succ n), List.filter_cons_of_neg (by simp), hdropped (Nat.le_succ n),
        List.filter_cons_of_pos (by simp), hdropped (Nat.le_refl (n + 1)), List.append_nil]
    · rw [if_neg hj, hcut j hj]
      by_cases hjn : j = n
      · subst hjn
        rw [if_neg (Nat.lt_irrefl j), if_pos (Nat.lt_succ_self j)]
        refine (List.filter_eq_nil_iff.2 fun c hc => ?_).symm
        have hlt := h.parent_lt ((h.isForest.mem_children_iff j c).1 hc)
        simpa using Nat.le_of_lt hlt
      · exact if_congr (Nat.lt_succ_iff_lt_or_eq.trans (or_iff_left hjn)).symm rfl rfl
  · rw [content_append, hsize, content_upTo, content_upTo]
    by_cases hj : j = n
    · rw [if_pos hj, if_pos (hj ▸ Nat.lt_succ_self n), hj]
    · rw [if_neg hj]
      exact if_congr (Nat.lt_succ_iff_lt_or_eq.trans (or_iff_left hj)).symm rfl rfl

end IsNumbered

/-! ## Rewriting every element -/

/-- Rewrites the elements and leaves the links. -/
def mapElements (f : Element → Element) (d : Document) : Document :=
  ⟨d.nodes.map fun node => { node with content := node.content.mapElement f }⟩

section MapElements

variable (f : Element → Element) (d : Document) (j : NodeId)

@[simp] theorem size_mapElements : (d.mapElements f).size = d.size := Array.size_map

@[simp] theorem parent_mapElements : (d.mapElements f).parent j = d.parent j := by
  rw [parent_eq, parent_eq, mapElements, Array.getElem?_map, Option.bind_map]
  rfl

@[simp] theorem children_mapElements : (d.mapElements f).children j = d.children j := by
  rw [children_eq, children_eq, mapElements, Array.getElem?_map, Option.map_map]
  rfl

@[simp] theorem content_mapElements :
    (d.mapElements f).content j = (d.content j).mapElement f := by
  rw [content_eq, content_eq, mapElements, Array.getElem?_map, Option.map_map]
  cases d.nodes[j]? <;> rfl

end MapElements

theorem IsNumbered.mapElements (h : d.IsNumbered) (f : Element → Element) :
    (d.mapElements f).IsNumbered where
  isForest := h.isForest.of_links (parent_mapElements f d) (children_mapElements f d)
  parent_root := (parent_mapElements f d root).trans h.parent_root
  parent_succ n hn := by
    rw [size_mapElements] at hn
    obtain ⟨p, hp, hpn⟩ := h.parent_succ n hn
    refine ⟨p, (parent_mapElements f d _).trans hp, hpn.imp_right fun habove => ?_⟩
    exact habove.mono fun c q hc => (parent_mapElements f d c).trans hc
  pairwise_children p := by
    rw [children_mapElements]
    exact h.pairwise_children p

end Document
end SvgCompact
