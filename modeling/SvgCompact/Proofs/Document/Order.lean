import Mathlib.Data.Finset.Card
import Mathlib.Data.Finset.Range
import Mathlib.Data.List.Pairwise
import SvgCompact.Proofs.Document.Forest

/-!
Walks along the links of a forest.

Walks up and down a document are bounded by the size of its table.  No path of a
forest is that long, so `ancestors` lists every node above a node, and `subtree` lists
a node with every node below it.  The second list is in document order, which
`Precedes` states without reference to a walk.
-/

namespace SvgCompact
namespace Document

variable {d : Document} {a b id : NodeId}

/-! ## Climbing -/

/-- The node so many steps above a node. -/
def climb (d : Document) : Nat → NodeId → Option NodeId
  | 0, id => some id
  | n + 1, id => (d.parent id).bind (climb d n)

theorem climb_add (m n : Nat) (id : NodeId) :
    d.climb (m + n) id = (d.climb m id).bind (d.climb n) := by
  induction m generalizing id with
  | zero => rw [Nat.zero_add]; rfl
  | succ m ih =>
    rw [Nat.succ_add, climb, climb]
    cases d.parent id with
    | none => rfl
    | some p => exact ih p

theorem climb_one (id : NodeId) : d.climb 1 id = d.parent id := by
  rw [climb]
  cases d.parent id <;> rfl

theorem climb_of_parent {p : NodeId} (hp : d.parent id = some p) (n : Nat) :
    d.climb (n + 1) id = d.climb n p := by
  rw [climb, hp]
  rfl

theorem climb_succ (n : Nat) (id : NodeId) :
    d.climb (n + 1) id = (d.climb n id).bind d.parent := by
  rw [climb_add]
  congr 1
  funext x
  exact climb_one x

theorem isAbove_iff_climb : d.IsAbove a id ↔ ∃ n, d.climb (n + 1) id = some a := by
  constructor
  · intro h
    induction h with
    | single hp => exact ⟨0, (climb_one _).trans hp⟩
    | tail _ hp ih =>
      obtain ⟨n, hn⟩ := ih
      exact ⟨n + 1, by rw [climb, hp]; exact hn⟩
  · intro hex
    obtain ⟨n, hn⟩ := hex
    induction n generalizing id with
    | zero => exact isAbove_of_parent ((climb_one id).symm.trans hn)
    | succ n ih =>
      rw [climb] at hn
      obtain ⟨p, hp, hpa⟩ := Option.bind_eq_some_iff.1 hn
      exact (ih hpa).tail hp

/-- Two nodes above the same node are on one path. -/
theorem isAbove_trichotomy {c : NodeId} (ha : d.IsAbove a c) (hb : d.IsAbove b c) :
    a = b ∨ d.IsAbove a b ∨ d.IsAbove b a := by
  obtain ⟨m, hm⟩ := isAbove_iff_climb.1 ha
  obtain ⟨n, hn⟩ := isAbove_iff_climb.1 hb
  have hpath : ∀ {m n a b}, m ≤ n → d.climb (m + 1) c = some a → d.climb (n + 1) c = some b →
      a = b ∨ d.IsAbove b a := by
    intro m n a b hmn hm hn
    rw [show n + 1 = (m + 1) + (n - m) by omega, climb_add, hm] at hn
    cases hk : n - m with
    | zero =>
      rw [hk] at hn
      exact .inl (Option.some.inj hn)
    | succ k =>
      rw [hk] at hn
      exact .inr (isAbove_iff_climb.2 ⟨k, hn⟩)
  rcases Nat.le_total m n with hmn | hnm
  · exact (hpath hmn hm hn).imp_right .inr
  · exact (hpath hnm hn hm).imp Eq.symm .inl

namespace IsForest

variable (h : d.IsForest)
include h

/-- A path meets no node twice, so it has fewer steps than there are nodes. -/
theorem lt_size_of_climb {n : Nat} (hid : id < d.size) (hn : d.climb n id = some a) :
    n < d.size := by
  by_contra hle
  have hsome : ∀ i ≤ n, ∃ x, d.climb i id = some x ∧ x < d.size := by
    intro i hi
    rw [← Nat.add_sub_cancel' hi, climb_add] at hn
    obtain ⟨x, hx, -⟩ := Option.bind_eq_some_iff.1 hn
    refine ⟨x, hx, ?_⟩
    cases i with
    | zero =>
      cases hx
      exact hid
    | succ i =>
      rw [climb_succ] at hx
      obtain ⟨c, -, hc⟩ := Option.bind_eq_some_iff.1 hx
      exact lt_size_of_mem_children ((h.mem_children_iff x c).2 hc)
  -- more steps than nodes lead to some node twice
  have hmaps : ∀ i ∈ Finset.range (n + 1),
      (d.climb i id).getD root ∈ Finset.range d.size := by
    intro i hi
    obtain ⟨x, hx, hlt⟩ := hsome i (Nat.lt_succ_iff.1 (Finset.mem_range.1 hi))
    rw [hx]
    exact Finset.mem_range.2 hlt
  obtain ⟨i, hi, j, hj, hne, heq⟩ := Finset.exists_ne_map_eq_of_card_lt_of_maps_to
    (by rw [Finset.card_range, Finset.card_range]; omega) hmaps
  have hcycle : ∀ {i j}, i < j → j ≤ n →
      (d.climb i id).getD root = (d.climb j id).getD root → False := by
    intro i j hij hj heq
    obtain ⟨x, hx, -⟩ := hsome i (by omega)
    obtain ⟨y, hy, -⟩ := hsome j hj
    rw [hx, hy] at heq
    obtain rfl : x = y := heq
    rw [show j = i + ((j - i - 1) + 1) by omega, climb_add, hx] at hy
    exact h.not_above_self x (isAbove_iff_climb.2 ⟨_, hy⟩)
  rw [Finset.mem_range] at hi hj
  rcases Nat.lt_or_gt_of_ne hne with hij | hji
  · exact hcycle hij (by omega) heq
  · exact hcycle hji (by omega) heq.symm

/-- A bound that is enough at a node leaves a level for the node itself. -/
theorem exists_succ_of_climb {p : NodeId} {n k : Nat} (hp : d.parent id = some p)
    (hk : d.climb k id = some a) (hn : d.size ≤ n + k) : ∃ l, n = l + 1 := by
  have hlt := h.lt_size_of_climb (lt_size_of_parent hp) hk
  exact ⟨n - 1, by omega⟩

omit h in
theorem mem_ancestorsWithin_iff (n : Nat) :
    a ∈ d.ancestorsWithin n id ↔ ∃ k < n, d.climb (k + 1) id = some a := by
  induction n generalizing id with
  | zero => simp [ancestorsWithin]
  | succ n ih =>
    rw [ancestorsWithin]
    cases hp : d.parent id with
    | none => simp [climb, hp]
    | some p =>
      rw [List.mem_cons, ih]
      constructor
      · rintro (rfl | ⟨k, hk, hka⟩)
        · exact ⟨0, by omega, (climb_one id).trans hp⟩
        · exact ⟨k + 1, by omega, by rw [climb, hp]; exact hka⟩
      · rintro ⟨k, hk, hka⟩
        rw [climb, hp] at hka
        cases k with
        | zero => exact .inl (Option.some.inj hka).symm
        | succ k => exact .inr ⟨k, by omega, hka⟩

theorem mem_ancestors_iff : a ∈ d.ancestors id ↔ d.IsAbove a id := by
  rw [ancestors, mem_ancestorsWithin_iff, isAbove_iff_climb]
  constructor
  · intro hex
    obtain ⟨k, -, hk⟩ := hex
    exact ⟨k, hk⟩
  · intro hex
    obtain ⟨k, hk⟩ := hex
    have hid : id < d.size := by
      rw [climb] at hk
      obtain ⟨p, hp, -⟩ := Option.bind_eq_some_iff.1 hk
      exact lt_size_of_parent hp
    exact ⟨k, by have := h.lt_size_of_climb hid hk; omega, hk⟩

omit h in
theorem ancestorsWithin_of_climb_eq_none {m n : Nat} (hn : d.climb n id = none) (hm : n ≤ m) :
    d.ancestorsWithin m id = d.ancestorsWithin n id := by
  induction n generalizing id m with
  | zero => cases hn
  | succ n ih =>
    obtain ⟨m, rfl⟩ := Nat.exists_eq_add_one_of_ne_zero
      (Nat.ne_of_gt (Nat.lt_of_lt_of_le (Nat.succ_pos n) hm))
    rw [ancestorsWithin, ancestorsWithin]
    rw [climb] at hn
    cases hp : d.parent id with
    | none => rfl
    | some p =>
      rw [hp] at hn
      dsimp only
      rw [ih hn (Nat.le_of_succ_le_succ hm)]

/-- Two children of one node are not one above the other. -/
theorem not_isAbove_of_siblings {p x y : NodeId} (hx : d.parent x = some p)
    (hy : d.parent y = some p) : ¬ d.IsAbove x y := by
  intro habove
  rcases (isAbove_iff_of_parent hy).1 habove with rfl | hup
  · exact h.not_above_self x (isAbove_of_parent hx)
  · exact h.not_above_self p ((isAbove_of_parent hx).trans hup)

/-- No way up is longer than there are nodes. -/
theorem ancestorsWithin_of_size_le {m : Nat} (hm : d.size ≤ m) (id : NodeId) :
    d.ancestorsWithin m id = d.ancestors id := by
  by_cases hid : id < d.size
  · refine ancestorsWithin_of_climb_eq_none ?_ hm
    rw [Option.eq_none_iff_forall_ne_some]
    exact fun a ha => Nat.lt_irrefl _ (h.lt_size_of_climb hid ha)
  · have hp : d.parent id = none := by
      rw [Option.eq_none_iff_forall_ne_some]
      exact fun p hp => hid (lt_size_of_parent hp)
    have htop : ∀ n, d.ancestorsWithin n id = [] := by
      intro n
      cases n with
      | zero => rfl
      | succ n => rw [ancestorsWithin, hp]
    rw [ancestors, htop, htop]

theorem mem_subtreeWithin_iff (n : Nat) :
    a ∈ d.subtreeWithin n id ↔ ∃ k ≤ n, d.climb k a = some id := by
  induction n generalizing id with
  | zero => simp [subtreeWithin, climb]
  | succ n ih =>
    rw [subtreeWithin, List.mem_cons, List.mem_flatMap]
    simp only [ih, h.mem_children_iff]
    constructor
    · rintro (rfl | ⟨c, hc, k, hk, hkc⟩)
      · exact ⟨0, by omega, rfl⟩
      · exact ⟨k + 1, by omega, by rw [climb_succ, hkc]; exact hc⟩
    · rintro ⟨k, hk, hka⟩
      cases k with
      | zero => exact .inl (Option.some.inj hka)
      | succ k =>
        rw [climb_succ] at hka
        obtain ⟨c, hc, hcid⟩ := Option.bind_eq_some_iff.1 hka
        exact .inr ⟨c, hcid, k, by omega, hc⟩

theorem mem_subtree_iff : a ∈ d.subtree id ↔ a = id ∨ d.IsAbove id a := by
  rw [subtree, h.mem_subtreeWithin_iff, isAbove_iff_climb]
  constructor
  · rintro ⟨k, -, hk⟩
    cases k with
    | zero => exact .inl (Option.some.inj hk)
    | succ k => exact .inr ⟨k, hk⟩
  · rintro (rfl | ⟨k, hk⟩)
    · exact ⟨0, by omega, rfl⟩
    · refine ⟨k + 1, ?_, hk⟩
      have hid : a < d.size := by
        rw [climb] at hk
        obtain ⟨p, hp, -⟩ := Option.bind_eq_some_iff.1 hk
        exact lt_size_of_parent hp
      exact Nat.le_of_lt (h.lt_size_of_climb hid hk)

theorem mem_subtree_iff_climb : a ∈ d.subtree id ↔ ∃ n, d.climb n a = some id := by
  rw [h.mem_subtree_iff, isAbove_iff_climb]
  constructor
  · rintro (rfl | ⟨n, hn⟩)
    · exact ⟨0, rfl⟩
    · exact ⟨n + 1, hn⟩
  · rintro ⟨n, hn⟩
    cases n with
    | zero => exact .inl (Option.some.inj hn)
    | succ n => exact .inr ⟨n, hn⟩

/-- Where no way down has more than `n` steps, more fuel finds nothing more. -/
theorem subtreeWithin_succ {n : Nat} (hn : ∀ a, d.climb (n + 1) a ≠ some id) :
    d.subtreeWithin (n + 1) id = d.subtreeWithin n id := by
  induction n generalizing id with
  | zero =>
    have hnil : d.children id = [] := by
      refine List.eq_nil_iff_forall_not_mem.2 fun c hc => hn c ?_
      rw [climb_one, (h.mem_children_iff id c).1 hc]
    rw [subtreeWithin, subtreeWithin, hnil, List.flatMap_nil]
  | succ n ih =>
    rw [subtreeWithin, subtreeWithin.eq_2 d id n]
    refine congrArg _ (List.flatMap_congr fun c hc => ih fun a ha => hn a ?_)
    rw [climb_succ, ha, Option.bind_some, (h.mem_children_iff id c).1 hc]

theorem subtree_eq (id : NodeId) : d.subtree id = id :: (d.children id).flatMap d.subtree := by
  rw [subtree, ← h.subtreeWithin_succ, subtreeWithin]
  · rfl
  · intro a ha
    have hsome := ha
    rw [climb] at hsome
    obtain ⟨p, hp, -⟩ := Option.bind_eq_some_iff.1 hsome
    have hlt := h.lt_size_of_climb (lt_size_of_parent hp) ha
    omega

end IsForest

/-! ## Document order -/

/-- Document order: a node comes before those below it, and what is at or below a child
comes before what is at or below a later child. -/
def Precedes (d : Document) (a b : NodeId) : Prop :=
  d.IsAbove a b ∨ ∃ p x y, [x, y].Sublist (d.children p) ∧
    (a = x ∨ d.IsAbove x a) ∧ (b = y ∨ d.IsAbove y b)

namespace IsForest

variable (h : d.IsForest)
include h

theorem not_precedes_self (a : NodeId) : ¬ d.Precedes a a := by
  rintro (habove | ⟨p, x, y, hxy, hx, hy⟩)
  · exact h.not_above_self a habove
  have hxp := (h.mem_children_iff p x).1 (hxy.subset (by simp))
  have hyp := (h.mem_children_iff p y).1 (hxy.subset (by simp))
  have hne : x ≠ y := by
    have hnodup := hxy.nodup (h.nodup_children p)
    simpa using hnodup
  rcases hx with rfl | hx <;> rcases hy with hay | hy
  · exact hne hay
  · exact h.not_isAbove_of_siblings hyp hxp hy
  · exact h.not_isAbove_of_siblings hxp hyp (hay ▸ hx)
  · rcases isAbove_trichotomy hx hy with heq | hxy | hyx
    · exact hne heq
    · exact h.not_isAbove_of_siblings hxp hyp hxy
    · exact h.not_isAbove_of_siblings hyp hxp hyx

theorem pairwise_subtreeWithin (n : Nat) (id : NodeId) :
    (d.subtreeWithin n id).Pairwise d.Precedes := by
  have hbelow : ∀ {n a id}, a ∈ d.subtreeWithin n id → a = id ∨ d.IsAbove id a := by
    intro n a id ha
    obtain ⟨k, -, hk⟩ := (h.mem_subtreeWithin_iff n).1 ha
    cases k with
    | zero => exact .inl (Option.some.inj hk)
    | succ k => exact .inr (isAbove_iff_climb.2 ⟨k, hk⟩)
  induction n generalizing id with
  | zero => exact List.pairwise_singleton ..
  | succ n ih =>
    rw [subtreeWithin, List.pairwise_cons]
    refine ⟨fun b hb => .inl ?_, List.pairwise_flatMap.2 ⟨fun c _ => ih c, ?_⟩⟩
    · obtain ⟨c, hc, hb⟩ := List.mem_flatMap.1 hb
      have hcid := isAbove_of_parent ((h.mem_children_iff id c).1 hc)
      rcases hbelow hb with rfl | hcb
      · exact hcid
      · exact hcid.trans hcb
    · refine List.pairwise_iff_forall_sublist.2 fun {x y} hxy a ha b hb => ?_
      exact .inr ⟨id, x, y, hxy, hbelow ha, hbelow hb⟩

theorem pairwise_subtree (id : NodeId) : (d.subtree id).Pairwise d.Precedes :=
  h.pairwise_subtreeWithin _ id

theorem nodup_subtree (id : NodeId) : (d.subtree id).Nodup := by
  refine (h.pairwise_subtree id).imp fun {a b} hab => ?_
  rintro rfl
  exact h.not_precedes_self a hab

end IsForest

end Document
end SvgCompact
