import SvgCompact.Selector.Matching
import SvgCompact.Proofs.Document.Order

/-!
What a complex selector means.

A complex selector matches an element when there is a chain of elements that ends in
it, one for each compound, such that neighbours in the chain are related as the
combinator between their compounds says.  The chain is not bound to any scope.
`satisfies` looks for such a chain from the right, and `select` lists what it finds in
document order.
-/

namespace SvgCompact
namespace Document

variable {d : Document} {a b : NodeId}

/-! ## What a combinator relates -/

/-- Whether an element stands to a node on its right as a combinator asks. -/
def Relates (d : Document) (k : Combinator) (a b : NodeId) : Prop :=
  d.isElement a = true ∧
    match k with
    | .descendant => d.IsAbove a b
    | .child => d.parent b = some a
    | .nextSibling => ∃ p front mid back,
        d.children p = front ++ a :: (mid ++ b :: back) ∧ ∀ c ∈ mid, d.isElement c = false
    | .laterSibling => ∃ p, [a, b].Sublist (d.children p)

/-- Only the root and elements have children, and the root is on top. -/
structure HasElementParents (d : Document) : Prop where
  parent_root : d.parent root = none
  isElement_parent : ∀ p c, c ∈ d.children p → p = root ∨ d.isElement p = true

namespace IsForest

variable (h : d.IsForest) (hparents : d.HasElementParents)
include h hparents

/-- Above a node there are elements, and the root at most after them. -/
theorem takeWhile_ancestorsWithin (n : Nat) (id : NodeId) :
    (d.ancestorsWithin n id).takeWhile d.isElement =
      (d.ancestorsWithin n id).filter d.isElement := by
  induction n generalizing id with
  | zero => rfl
  | succ n ih =>
    rw [ancestorsWithin]
    cases hp : d.parent id with
    | none => rfl
    | some p =>
      dsimp only
      cases hel : d.isElement p with
      | true => rw [List.takeWhile_cons_of_pos hel, List.filter_cons_of_pos hel, ih]
      | false =>
        have hroot : p = root := by
          rcases hparents.isElement_parent p id ((h.mem_children_iff p id).2 hp) with h | h
          · exact h
          · rw [hel] at h
            cases h
        have htop : d.ancestorsWithin n p = [] := by
          cases n with
          | zero => rfl
          | succ n => rw [ancestorsWithin, hroot, hparents.parent_root]
        rw [htop]
        simp [hel]

theorem ancestorElements_eq (id : NodeId) :
    d.ancestorElements id = (d.ancestors id).filter d.isElement :=
  h.takeWhile_ancestorsWithin hparents _ _

theorem mem_reached_descendant : a ∈ d.reached .descendant b ↔ d.Relates .descendant a b := by
  rw [reached, h.ancestorElements_eq hparents, List.mem_filter, h.mem_ancestors_iff]
  exact and_comm

omit h hparents in
theorem mem_take_one {α : Type} {x : α} {l : List α} : x ∈ l.take 1 ↔ l.head? = some x := by
  cases l with
  | nil => simp
  | cons y l => simp [eq_comm]

omit h hparents in
theorem mem_reached_child : a ∈ d.reached .child b ↔ d.Relates .child a b := by
  show a ∈ (d.ancestorElements b).take 1 ↔ d.isElement a = true ∧ d.parent b = some a
  rw [mem_take_one, ancestorElements, ancestors]
  cases hp : d.parent b with
  | none =>
    cases d.size with
    | zero => simp [ancestorsWithin]
    | succ n => simp [ancestorsWithin, hp]
  | some p =>
    have hpos : d.size ≠ 0 := Nat.ne_of_gt (Nat.zero_lt_of_lt (lt_size_of_parent hp))
    obtain ⟨n, hn⟩ := Nat.exists_eq_add_one_of_ne_zero hpos
    rw [hn, ancestorsWithin, hp]
    dsimp only
    by_cases hel : d.isElement p = true
    · rw [List.takeWhile_cons_of_pos hel, List.head?_cons, Option.some_inj]
      exact ⟨fun heq => ⟨heq ▸ hel, heq⟩, fun hpa => hpa.2⟩
    · rw [List.takeWhile_cons_of_neg hel, List.head?_nil, Option.some_inj]
      exact ⟨fun heq => (by cases heq), fun hpa => absurd (hpa.2 ▸ hpa.1) hel⟩

/-! ## Siblings -/

omit hparents

/-- The siblings before a node, and the elements among them nearest first. -/
theorem precedingElements_eq {p : NodeId} (hp : d.parent b = some p) :
    ∃ front back, d.children p = front ++ b :: back ∧
      d.precedingElements b = front.reverse.filter d.isElement := by
  obtain ⟨front, back, hs, hi⟩ := h.indexInParent?_eq_some hp
  refine ⟨front, back, hs, ?_⟩
  rw [precedingElements, hi]
  dsimp only
  rw [siblings, hp]
  dsimp only
  rw [hs, List.take_left]

omit h in
theorem precedingElements_eq_nil (hp : d.parent b = none) : d.precedingElements b = [] := by
  rw [precedingElements, indexInParent?, siblings, hp]
  rfl

/-- A node is the child of one node, at one place. -/
theorem place_unique {p q : NodeId} {front front' back back' : List NodeId}
    (hs : d.children p = front ++ b :: back) (hs' : d.children q = front' ++ b :: back') :
    p = q ∧ front = front' ∧ back = back' := by
  have hp := (h.mem_children_iff p b).1 (hs ▸ by simp)
  have hq := (h.mem_children_iff q b).1 (hs' ▸ by simp)
  obtain rfl : p = q := Option.some.inj (hp.symm.trans hq)
  have hnodup := h.nodup_children p
  rw [hs, List.nodup_middle, List.nodup_cons, List.mem_append, not_or] at hnodup
  obtain ⟨⟨hfront, hback⟩, -⟩ := hnodup
  have heq := hs.symm.trans hs'
  obtain ⟨hf, -, hb⟩ := (List.append_cons_inj_of_notMem hfront hback).1 heq
  exact ⟨rfl, hf, hb⟩

theorem sublist_pair_iff {p : NodeId} {front back : List NodeId}
    (hs : d.children p = front ++ b :: back) :
    (∃ q, [a, b].Sublist (d.children q)) ↔ a ∈ front := by
  constructor
  · intro hex
    obtain ⟨q, hq⟩ := hex
    obtain ⟨l, r, hlr, hl, hr⟩ := List.cons_sublist_iff.1 hq
    obtain ⟨u, v, rfl⟩ := List.append_of_mem (List.singleton_sublist.1 hr)
    rw [← List.append_assoc] at hlr
    obtain ⟨-, rfl, -⟩ := h.place_unique hs hlr
    exact List.mem_append_left _ hl
  · intro ha
    exact ⟨p, hs ▸ List.cons_sublist_iff.2
      ⟨front, b :: back, rfl, ha, List.singleton_sublist.2 (by simp)⟩⟩

theorem mem_reached_laterSibling :
    a ∈ d.reached .laterSibling b ↔ d.Relates .laterSibling a b := by
  show a ∈ d.precedingElements b ↔
    d.isElement a = true ∧ ∃ q, [a, b].Sublist (d.children q)
  cases hp : d.parent b with
  | none =>
    rw [precedingElements_eq_nil hp]
    refine ⟨nofun, fun hrel => ?_⟩
    obtain ⟨-, q, hq⟩ := hrel
    have hbq := (h.mem_children_iff q b).1 (hq.subset (by simp))
    rw [hp] at hbq
    cases hbq
  | some p =>
    obtain ⟨front, back, hs, heq⟩ := h.precedingElements_eq hp
    rw [heq, h.sublist_pair_iff hs, List.mem_filter, List.mem_reverse]
    exact and_comm

theorem mem_reached_nextSibling :
    a ∈ d.reached .nextSibling b ↔ d.Relates .nextSibling a b := by
  show a ∈ (d.precedingElements b).take 1 ↔ d.isElement a = true ∧ ∃ q front mid back,
    d.children q = front ++ a :: (mid ++ b :: back) ∧ ∀ c ∈ mid, d.isElement c = false
  rw [mem_take_one]
  cases hp : d.parent b with
  | none =>
    rw [precedingElements_eq_nil hp]
    refine ⟨nofun, fun hrel => ?_⟩
    obtain ⟨-, q, front, mid, back, hq, -⟩ := hrel
    have hbq := (h.mem_children_iff q b).1 (hq ▸ by simp)
    rw [hp] at hbq
    cases hbq
  | some p =>
    obtain ⟨front, back, hs, heq⟩ := h.precedingElements_eq hp
    rw [heq, List.head?_filter, List.find?_eq_some_iff_append]
    refine and_congr_right fun _ => ⟨?_, ?_⟩
    · rintro ⟨mid, before, hrev, hmid⟩
      refine ⟨p, before.reverse, mid.reverse, back, ?_, fun c hc => ?_⟩
      · rw [hs, ← List.reverse_reverse front, hrev]
        simp
      · simpa using hmid c (List.mem_reverse.1 hc)
    · rintro ⟨q, before, mid, back', hq, hmid⟩
      have hq' : d.children q = (before ++ a :: mid) ++ b :: back' := by
        rw [hq]
        simp
      obtain ⟨-, rfl, -⟩ := h.place_unique hs hq'
      exact ⟨mid.reverse, before.reverse, by simp, fun c hc => by simp [hmid c (by simpa using hc)]⟩

/-- `reached` lists what a combinator relates to an element on its right. -/
theorem mem_reached_iff (hparents : d.HasElementParents) (k : Combinator) :
    a ∈ d.reached k b ↔ d.Relates k a b := by
  cases k with
  | descendant => exact h.mem_reached_descendant hparents
  | child => exact mem_reached_child
  | nextSibling => exact h.mem_reached_nextSibling
  | laterSibling => exact h.mem_reached_laterSibling

end IsForest

/-! ## Chains -/

/-- One element for each compound, and neighbours related by the combinator between
their compounds. -/
structure IsChain (d : Document) (s : ComplexSelector) (es : List NodeId) : Prop where
  length_eq : es.length = s.compounds.length
  satisfied : ∀ (i : Nat) e c, es[i]? = some e → s.compounds[i]? = some c →
    d.matchesCompound e c = true
  related : ∀ (i : Nat) a b k, es[i]? = some a → es[i + 1]? = some b → s.combinators[i]? = some k →
    d.Relates k a b

/-- Whether a chain for a selector ends in an element. -/
def EndsChain (d : Document) (s : ComplexSelector) (e : NodeId) : Prop :=
  ∃ es, d.IsChain s es ∧ es.getLast? = some e

theorem length_compounds (s : ComplexSelector) :
    s.compounds.length = s.combinators.length + 1 := by
  induction s with
  | compound c => rfl
  | combined left k c ih => simp [ComplexSelector.compounds, ComplexSelector.combinators, ih]

theorem isChain_compound {c : CompoundSelector} {es : List NodeId} :
    d.IsChain (.compound c) es ↔ ∃ e, es = [e] ∧ d.matchesCompound e c = true := by
  constructor
  · intro h
    obtain ⟨e, rfl⟩ := List.length_eq_one_iff.1 h.length_eq
    exact ⟨e, rfl, h.satisfied 0 e c rfl rfl⟩
  · rintro ⟨e, rfl, he⟩
    exact {
      length_eq := rfl
      satisfied := fun i e' c' hi hc => by
        obtain ⟨rfl, rfl⟩ : e = e' ∧ c = c' := by
          cases i with
          | zero => exact ⟨Option.some.inj hi, Option.some.inj hc⟩
          | succ i => cases hi
        exact he
      related := nofun }

theorem getElem?_append_of_some {α : Type} {l r : List α} {i : Nat} {x : α}
    (h : l[i]? = some x) : (l ++ r)[i]? = some x := by
  obtain ⟨hi, -⟩ := List.getElem?_eq_some_iff.1 h
  rw [List.getElem?_append_left hi, h]

section Combined

variable {left : ComplexSelector} {k : Combinator} {c : CompoundSelector}

/-- The last combinator of a chain stands between its last two elements. -/
theorem IsChain.exists_concat {es : List NodeId} (h : d.IsChain (.combined left k c) es) :
    ∃ front a b, es = front ++ [b] ∧ d.IsChain left front ∧ front.getLast? = some a ∧
      d.Relates k a b ∧ d.matchesCompound b c = true := by
  have hleft := length_compounds left
  have hlen : es.length = left.compounds.length + 1 := by
    rw [h.length_eq, ComplexSelector.compounds, List.length_append, List.length_singleton]
  obtain rfl | ⟨l, b, rfl⟩ := List.eq_nil_or_concat es
  · cases hlen
  rw [List.concat_eq_append] at h hlen ⊢
  rw [List.length_append, List.length_singleton, Nat.add_right_cancel_iff] at hlen
  obtain rfl | ⟨front, a, rfl⟩ := List.eq_nil_or_concat l
  · rw [hleft] at hlen
    cases hlen
  rw [List.concat_eq_append] at h hlen ⊢
  refine ⟨front ++ [a], a, b, rfl, ?_, by simp, ?_, ?_⟩
  · exact {
      length_eq := hlen
      satisfied := fun i e c' hi hc =>
        h.satisfied i e c' (getElem?_append_of_some hi) (getElem?_append_of_some hc)
      related := fun i x y k' hx hy hk =>
        h.related i x y k' (getElem?_append_of_some hx) (getElem?_append_of_some hy)
          (getElem?_append_of_some hk) }
  · have hk : left.combinators.length = front.length := by
      rw [List.length_append, List.length_singleton] at hlen
      omega
    exact h.related front.length a b k (by simp) (by simp)
      (by simp [ComplexSelector.combinators, ← hk])
  · exact h.satisfied (front ++ [a]).length b c (by simp)
      (by rw [hlen]; simp [ComplexSelector.compounds])

theorem IsChain.concat {front : List NodeId} {a b : NodeId} (hfront : d.IsChain left front)
    (hlast : front.getLast? = some a) (hrel : d.Relates k a b)
    (hb : d.matchesCompound b c = true) : d.IsChain (.combined left k c) (front ++ [b]) := by
  obtain ⟨before, rfl⟩ := List.getLast?_eq_some_iff.1 hlast
  have hlen := hfront.length_eq
  have hcount : left.combinators.length = before.length := by
    have hleft := length_compounds left
    rw [List.length_append, List.length_singleton] at hlen
    omega
  exact {
    length_eq := by
      rw [List.length_append, hlen, ComplexSelector.compounds, List.length_append]
      rfl
    satisfied := fun i e c' hi hc => by
      by_cases hlt : i < (before ++ [a]).length
      · rw [List.getElem?_append_left hlt] at hi
        rw [ComplexSelector.compounds, List.getElem?_append_left (hlen ▸ hlt)] at hc
        exact hfront.satisfied i e c' hi hc
      · rw [List.getElem?_append_right (Nat.le_of_not_lt hlt), List.getElem?_singleton] at hi
        rw [ComplexSelector.compounds,
          List.getElem?_append_right (hlen ▸ Nat.le_of_not_lt hlt), ← hlen,
          List.getElem?_singleton] at hc
        obtain ⟨-, ⟨⟩⟩ := Option.ite_none_right_eq_some.1 hi
        obtain ⟨-, ⟨⟩⟩ := Option.ite_none_right_eq_some.1 hc
        exact hb
    related := fun i x y k' hx hy hk => by
      have hcomb : (left.combinators ++ [k])[i]? = some k' := hk
      by_cases hlt : i < before.length
      · rw [List.getElem?_append_left (by simp; omega)] at hx hy
        rw [List.getElem?_append_left (hcount ▸ hlt)] at hcomb
        exact hfront.related i x y k' hx hy hcomb
      · obtain rfl : i = before.length := by
          obtain ⟨hi, -⟩ := List.getElem?_eq_some_iff.1 hcomb
          rw [List.length_append, List.length_singleton] at hi
          omega
        obtain rfl : a = x := by simpa using hx
        obtain rfl : b = y := by simpa using hy
        obtain rfl : k = k' := by simpa [← hcount] using hcomb
        exact hrel }

end Combined

section Matching

variable (h : d.IsForest) (hparents : d.HasElementParents)
include h hparents

theorem IsForest.satisfies_iff_endsChain (s : ComplexSelector) (e : NodeId) :
    d.satisfies e s = true ↔ d.EndsChain s e := by
  induction s generalizing e with
  | compound c =>
    rw [satisfies]
    constructor
    · intro he
      exact ⟨[e], isChain_compound.2 ⟨e, rfl, he⟩, rfl⟩
    · rintro ⟨es, hes, hlast⟩
      obtain ⟨e', rfl, he'⟩ := isChain_compound.1 hes
      cases hlast
      exact he'
  | combined left k c ih =>
    rw [satisfies, Bool.and_eq_true, List.any_eq_true]
    constructor
    · rintro ⟨he, a, ha, hleft⟩
      obtain ⟨front, hfront, hlast⟩ := (ih a).1 hleft
      exact ⟨front ++ [e], hfront.concat hlast ((h.mem_reached_iff hparents k).1 ha) he, by simp⟩
    · rintro ⟨es, hes, hlast⟩
      obtain ⟨front, a, b, rfl, hfront, ha, hrel, hb⟩ := hes.exists_concat
      obtain rfl : b = e := by simpa using hlast
      exact ⟨hb, a, (h.mem_reached_iff hparents k).2 hrel, (ih a).2 ⟨front, hfront, ha⟩⟩

/-- A selector list selects, in document order and without repetition, the elements
below a node in which a chain for one of its selectors ends. -/
theorem select_exact (l : SelectorList) (scope : NodeId) :
    (∀ e, e ∈ d.select scope l ↔ d.IsAbove scope e ∧ ∃ s ∈ l, d.EndsChain s e) ∧
      (d.select scope l).Pairwise d.Precedes ∧ (d.select scope l).Nodup := by
  have hordered : (d.select scope l).Pairwise d.Precedes := (h.pairwise_subtree scope).filter _
  refine ⟨fun e => ?_, hordered, hordered.imp fun {a b} hab heq => ?_⟩
  · rw [select, List.mem_filter, h.mem_subtree_iff, Bool.and_eq_true, bne_iff_ne, matchesList,
      List.any_eq_true]
    simp only [h.satisfies_iff_endsChain hparents]
    constructor
    · rintro ⟨hbelow, hne, hex⟩
      exact ⟨hbelow.resolve_left hne, hex⟩
    · rintro ⟨habove, hex⟩
      refine ⟨.inr habove, fun heq => ?_, hex⟩
      exact h.not_above_self scope (heq ▸ habove)
  · exact h.not_precedes_self a (heq ▸ hab)

end Matching

/-- Two elements of a group, and a comment between them. -/
def parted : Document :=
  let element (name : String) : Content := .element (.ofAttributes (.plain name) [])
  ((((Document.empty.append root (element "svg")).1.append 1 (element "g")).1.append 2
    (element "a")).1.append 2 (.comment " ")).1.append 2 (element "b") |>.1

theorem select_parted :
    let s : ComplexSelector :=
      .combined (.combined (.compound [.type "svg"]) .descendant [.type "a"]) .nextSibling
        [.type "b"]
    parted.IsForest ∧ parted.HasElementParents ∧ parted.select 2 [s] = [5] ∧
      parted.IsAbove 2 5 ∧ parted.EndsChain s 5 := by
  intro s
  have hforest : parted.IsForest :=
    ((((IsForest.empty.append _ (by decide)).append _ (by decide)).append _ (by decide)).append _
      (by decide)).append _ (by decide)
  have hbounded : ∀ p < parted.size, p = root ∨ parted.isElement p = true ∨
      parted.children p = [] := by decide
  have hparents : parted.HasElementParents := {
    parent_root := rfl
    isElement_parent := fun p c hc => by
      rcases hbounded p (lt_size_of_mem_children hc) with hp | hp | hp
      · exact .inl hp
      · exact .inr hp
      · rw [hp] at hc
        cases hc }
  have hselected : parted.select 2 [s] = [5] := rfl
  obtain ⟨hexact, -, -⟩ := select_exact hforest hparents [s] 2
  obtain ⟨habove, s', hs', hchain⟩ := (hexact 5).1 (hselected ▸ List.mem_singleton_self 5)
  obtain rfl := List.mem_singleton.1 hs'
  exact ⟨hforest, hparents, hselected, habove, hchain⟩

end Document
end SvgCompact
