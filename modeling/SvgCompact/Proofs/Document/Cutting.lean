import SvgCompact.Proofs.Document.Lineage
import SvgCompact.Proofs.Selector.Leaves

/-!
Documents of which parts are cut off.

A node that still has a parent has the one that it had.  So an element that is still in
the document has the elements above it that it had, and where the lists of children
stay as well, it has the siblings that it had.
-/

namespace SvgCompact

theorem Content.characters?_of_isElement {c : Content} (h : c.isElement = true) :
    c.characters? = none := by
  cases c <;> first | rfl | cases h

/-- Whether two contents are the same but for what is in an element. -/
def Content.Alike (c c' : Content) : Prop :=
  c' = c ∨ (c'.isElement = true ∧ c.isElement = true)

namespace Content.Alike

variable {c c' c'' : Content}

theorem refl (c : Content) : c.Alike c := .inl rfl

theorem isElement_eq (h : c.Alike c') : c'.isElement = c.isElement := by
  rcases h with rfl | ⟨h', h⟩
  · rfl
  · rw [h', h]

theorem characters?_eq (h : c.Alike c') : c'.characters? = c.characters? := by
  rcases h with rfl | ⟨h', h⟩
  · rfl
  · rw [characters?_of_isElement h', characters?_of_isElement h]

/-- Text is the same. -/
theorem eq_of_characters? (h : c.Alike c') (hc : c.characters?.isSome = true) : c' = c := by
  refine h.resolve_right fun helements => ?_
  rw [characters?_of_isElement helements.2] at hc
  cases hc

theorem trans (h : c.Alike c') (h' : c'.Alike c'') : c.Alike c'' := by
  have heq := h.isElement_eq
  rcases h' with rfl | ⟨hel'', hel'⟩
  · exact h
  · exact .inr ⟨hel'', by rw [← heq, hel']⟩

theorem eq_root_iff (h : c.Alike c') : c' = .root ↔ c = .root := by
  rcases h with rfl | ⟨h', h⟩
  · exact Iff.rfl
  · have hne : ∀ c : Content, c.isElement = true → c ≠ .root := by
      intro c hc heq
      rw [heq] at hc
      cases hc
    exact ⟨fun heq => absurd heq (hne c' h'), fun heq => absurd heq (hne c h)⟩

end Content.Alike

namespace Document

theorem isBare_eq_of_alike {d d' : Document} {j : NodeId} (h : (d.content j).Alike (d'.content j)) :
    d'.isBare j = d.isBare j := by
  have hbare : ∀ (d : Document), (d.content j).isElement = true → d.isBare j = false := by
    intro d hel
    rw [isBare]
    cases hc : d.content j <;> first | rfl | (rw [hc] at hel; cases hel)
  rcases h with heq | ⟨h', h⟩
  · rw [isBare, heq, isBare]
  · rw [hbare d' h', hbare d h]

/-! ## Restyling -/

/-- Whether two documents are the same but for what their elements hold. -/
structure IsRestyled (d d' : Document) : Prop where
  size_eq : d'.size = d.size
  parent_eq : ∀ j, d'.parent j = d.parent j
  children_eq : ∀ j, d'.children j = d.children j
  alike : ∀ j, (d.content j).Alike (d'.content j)

namespace IsRestyled

variable {d d' d'' : Document}

theorem refl (d : Document) : d.IsRestyled d :=
  ⟨rfl, fun _ => rfl, fun _ => rfl, fun _ => .refl _⟩

theorem trans (h : d.IsRestyled d') (h' : d'.IsRestyled d'') : d.IsRestyled d'' where
  size_eq := h'.size_eq.trans h.size_eq
  parent_eq j := (h'.parent_eq j).trans (h.parent_eq j)
  children_eq j := (h'.children_eq j).trans (h.children_eq j)
  alike j := (h.alike j).trans (h'.alike j)

theorem updateElement (d : Document) (id : NodeId) (f : Element → Element) :
    d.IsRestyled (d.updateElement id f) where
  size_eq := size_updateElement d id f
  parent_eq j := parent_updateElement d id j f
  children_eq j := children_updateElement d id j f
  alike j := by
    rw [content_updateElement]
    split
    · cases d.content j with
      | element e => exact .inr ⟨rfl, rfl⟩
      | _ => exact .inl rfl
    · exact .refl _

theorem foldl {α : Type} {f : Document → α → Document}
    (hf : ∀ (d : Document) (a : α), d.IsRestyled (f d a)) (l : List α) (d : Document) :
    d.IsRestyled (l.foldl f d) :=
  List.foldlRecOn (motive := d.IsRestyled) l f (refl d) fun _ h a _ => h.trans (hf _ a)

section Same

variable (h : d.IsRestyled d')
include h

theorem subtree_eq (id : NodeId) : d'.subtree id = d.subtree id := by
  have hwithin : ∀ n id, d'.subtreeWithin n id = d.subtreeWithin n id := by
    intro n
    induction n with
    | zero => exact fun _ => rfl
    | succ n ih =>
      intro id
      rw [subtreeWithin, subtreeWithin, h.children_eq]
      exact congrArg _ (List.flatMap_congr fun c _ => ih c)
  rw [subtree, subtree, h.size_eq, hwithin]

theorem elements_eq : d'.elements = d.elements := by
  rw [elements, elements, h.subtree_eq]
  exact List.filter_congr fun j _ => (h.alike j).isElement_eq

end Same

end IsRestyled

/-! ## Cutting off -/

/-- Whether a document is what is left of another, with new nodes perhaps. -/
structure IsCut (d d' : Document) : Prop where
  size_le : d.size ≤ d'.size
  alike : ∀ j < d.size, (d.content j).Alike (d'.content j)
  parent_of_some : ∀ j < d.size, ∀ p, d'.parent j = some p → d.parent j = some p

namespace IsCut

variable {d d' d'' : Document}

theorem of_isRestyled (h : d.IsRestyled d') : d.IsCut d' :=
  ⟨Nat.le_of_eq h.size_eq.symm, fun j _ => h.alike j, fun j _ _ hp => (h.parent_eq j).symm.trans hp⟩

theorem trans (h : d.IsCut d') (h' : d'.IsCut d'') : d.IsCut d'' where
  size_le := Nat.le_trans h.size_le h'.size_le
  alike j hj := (h.alike j hj).trans (h'.alike j (Nat.lt_of_lt_of_le hj h.size_le))
  parent_of_some j hj p hp :=
    h.parent_of_some j hj p (h'.parent_of_some j (Nat.lt_of_lt_of_le hj h.size_le) p hp)

theorem detach (d : Document) (id : NodeId) : d.IsCut (d.detach id) where
  size_le := Nat.le_of_eq (size_detach d id).symm
  alike j _ := .inl (content_detach d id j)
  parent_of_some j _ p hp := by
    rw [parent_detach] at hp
    split at hp
    · cases hp
    · exact hp

theorem replaceText (hd : d.IsForest) (id : NodeId) (cdata : Bool) (s : String) :
    d.IsCut (d.replaceText id cdata s) where
  size_le := by
    rw [size_replaceText]
    exact Nat.le_succ _
  alike j hj := by
    rw [content_replaceText, if_neg (Nat.ne_of_lt hj)]
    exact .refl _
  parent_of_some j hj p hp := by
    rw [hd.parent_replaceText, if_neg (Nat.ne_of_lt hj)] at hp
    split at hp
    · cases hp
    · exact hp

theorem isAbove (h : d.IsCut d') (hd : d.IsForest) {id : NodeId} (hid : id < d.size) {a : NodeId}
    (ha : d'.IsAbove a id) : d.IsAbove a id := by
  induction ha with
  | single hp => exact isAbove_of_parent (h.parent_of_some _ hid _ hp)
  | tail _ hp ih =>
    have hold := h.parent_of_some _ hid _ hp
    exact (ih (lt_size_of_mem_children ((hd.mem_children_iff _ _).2 hold))).tail hold

theorem parent_eq_none (h : d.IsCut d') {id : NodeId} (hid : id < d.size)
    (hp : d.parent id = none) : d'.parent id = none := by
  rw [Option.eq_none_iff_forall_ne_some]
  intro p hp'
  rw [h.parent_of_some id hid p hp'] at hp
  cases hp

/-- Above a node that is left all is left. -/
theorem isAbove_of_reached (h : d.IsCut d') (hd : d.IsRooted) (hd' : d'.IsForest) {a id : NodeId}
    (hid : id < d.size) (hreached : id ∈ d'.subtree root) (ha : d.IsAbove a id) :
    d'.IsAbove a id ∧ a ∈ d'.subtree root := by
  induction id using hd'.downward with
  | step id ih =>
    rcases hd'.mem_subtree_iff_parent.1 hreached with rfl | ⟨p, hp, hup⟩
    · exact absurd ha (not_isAbove_of_parent_none hd.parent_root)
    · have hold := h.parent_of_some id hid p hp
      rcases (isAbove_iff_of_parent hold).1 ha with rfl | ha
      · exact ⟨isAbove_of_parent hp, hup⟩
      · have hlt := lt_size_of_mem_children ((hd.isForest.mem_children_iff p id).2 hold)
        obtain ⟨habove, ha'⟩ := ih p hp hlt hup ha
        exact ⟨habove.tail hp, ha'⟩

/-- Nothing old is below a node that has new children only. -/
theorem not_isAbove_of_new (h : d.IsCut d') (hd : d.IsForest) (hd' : d'.IsForest) {a id : NodeId}
    (hid : id < d.size) (hnew : ∀ c ∈ d'.children a, d.size ≤ c) : ¬ d'.IsAbove a id := by
  intro habove
  obtain ⟨c, hc, hway⟩ := Relation.TransGen.head'_iff.1 habove
  have hold : c < d.size := by
    rcases Relation.reflTransGen_iff_eq_or_transGen.1 hway with rfl | hway
    · exact hid
    · exact hd.lt_size_of_isAbove (h.isAbove hd hid hway)
  exact Nat.not_lt_of_le (hnew c ((hd'.mem_children_iff a c).2 hc)) hold

end IsCut

/-! ## Elements that are left -/

/-- What is left of a document, with new nodes that are no elements. -/
structure IsRemnant (d d' : Document) : Prop extends IsCut d d' where
  isForest : d.IsForest
  isRooted : d'.IsRooted
  no_new : ∀ j, d.size ≤ j → d'.isElement j = false

/-- The children of some nodes are replaced, each time by a node that is not bare; the
other lists of children stay. -/
structure IsRewritten (owners : List NodeId) (d d' : Document) : Prop where
  others : ∀ p ∉ owners, d'.children p = d.children p
  replaced : ∀ p ∈ owners, ∃ j, d.size ≤ j ∧ d'.children p = [j] ∧ d'.isBare j = false

theorem mem_elements_iff {d : Document} {id : NodeId} :
    id ∈ d.elements ↔ id ∈ d.subtree root ∧ d.isElement id = true :=
  List.mem_filter

namespace IsRemnant

variable {d d' : Document} (h : d.IsRemnant d') {id : NodeId}
include h

theorem lt_size (hid : d'.isElement id = true) : id < d.size := by
  refine Nat.lt_of_not_le fun hle => ?_
  rw [h.no_new id hle] at hid
  cases hid

theorem isElement_eq (hid : id < d.size) : d'.isElement id = d.isElement id :=
  (h.alike id hid).isElement_eq

theorem lt_size_of_mem (hid : id ∈ d'.elements) : id < d.size :=
  h.lt_size (mem_elements_iff.1 hid).2

/-- An element that is left still hangs where it hung. -/
theorem parent_of_mem (hid : id ∈ d'.elements) :
    ∃ p, d'.parent id = some p ∧ d.parent id = some p ∧ p < d.size ∧ p ∈ d'.subtree root := by
  obtain ⟨hbelow, hel⟩ := mem_elements_iff.1 hid
  have hforest := h.isRooted.isForest
  rw [hforest.mem_subtree_iff] at hbelow
  have habove : d'.IsAbove root id := hbelow.resolve_left fun heq => by
    rw [heq, h.isRooted.not_isElement_root] at hel
    cases hel
  obtain ⟨p, hroot, hp⟩ := Relation.TransGen.tail'_iff.1 habove
  have hold := h.parent_of_some id (h.lt_size hel) p hp
  refine ⟨p, hp, hold, lt_size_of_mem_children ((h.isForest.mem_children_iff p id).2 hold), ?_⟩
  rw [hforest.mem_subtree_iff]
  exact Relation.reflTransGen_iff_eq_or_transGen.1 hroot

/-- A child of what is left is left, if it is an element. -/
theorem mem_elements_of_mem_children {p : NodeId} (hp : p ∈ d'.subtree root)
    (hid : id ∈ d'.children p) (hel : d'.isElement id = true) : id ∈ d'.elements := by
  have hforest := h.isRooted.isForest
  have hparent := (hforest.mem_children_iff p id).1 hid
  rw [hforest.mem_subtree_iff] at hp
  rw [mem_elements_iff, hforest.mem_subtree_iff]
  exact ⟨.inr ((isAbove_iff_of_parent hparent).2 (hp.imp_left Eq.symm)), hel⟩

theorem isAbove (hid : id < d.size) {a : NodeId} (ha : d'.IsAbove a id) : d.IsAbove a id :=
  h.toIsCut.isAbove h.isForest hid ha

/-- An element that is left was in the document before. -/
theorem mem_elements (hid : id ∈ d'.elements) : id ∈ d.elements := by
  have hlt := h.lt_size_of_mem hid
  obtain ⟨hbelow, hel⟩ := mem_elements_iff.1 hid
  rw [h.isRooted.isForest.mem_subtree_iff] at hbelow
  rw [mem_elements_iff, h.isForest.mem_subtree_iff]
  exact ⟨hbelow.imp_right (h.isAbove hlt), (h.isElement_eq hlt).symm.trans hel⟩

/-! ### The way up -/

theorem takeWhile_ancestorsWithin (n : Nat) (hid : id ∈ d'.elements) :
    (d'.ancestorsWithin n id).takeWhile d'.isElement =
        (d.ancestorsWithin n id).takeWhile d.isElement ∧
      ∀ a ∈ (d.ancestorsWithin n id).takeWhile d.isElement, a ∈ d'.elements := by
  induction n generalizing id with
  | zero => exact ⟨rfl, List.forall_mem_nil _⟩
  | succ n ih =>
    obtain ⟨p, hp, hold, hlt, hbelow⟩ := h.parent_of_mem hid
    rw [ancestorsWithin, ancestorsWithin, hp, hold]
    dsimp only
    rw [List.takeWhile_cons, List.takeWhile_cons, h.isElement_eq hlt]
    by_cases hel : d.isElement p = true
    · obtain ⟨heq, hmem⟩ := ih (mem_elements_iff.2 ⟨hbelow, (h.isElement_eq hlt).trans hel⟩)
      rw [if_pos hel, if_pos hel, heq]
      refine ⟨rfl, fun a ha => ?_⟩
      rcases List.mem_cons.1 ha with rfl | ha
      · exact mem_elements_iff.2 ⟨hbelow, (h.isElement_eq hlt).trans hel⟩
      · exact hmem a ha
    · rw [if_neg hel, if_neg hel]
      exact ⟨rfl, List.forall_mem_nil _⟩

theorem ancestorElements_eq (hid : id ∈ d'.elements) :
    d'.ancestorElements id = d.ancestorElements id ∧
      ∀ a ∈ d.ancestorElements id, a ∈ d'.elements := by
  have hsame := h.takeWhile_ancestorsWithin d'.size hid
  rw [h.isForest.ancestorsWithin_of_size_le h.size_le] at hsame
  exact hsame

theorem reached_eq_of_not_isSibling (hid : id ∈ d'.elements) {k : Combinator}
    (hk : k.isSibling = false) :
    d'.reached k id = d.reached k id ∧ ∀ a ∈ d.reached k id, a ∈ d'.elements := by
  obtain ⟨hup, hmem⟩ := h.ancestorElements_eq hid
  cases k with
  | descendant => exact ⟨hup, hmem⟩
  | child => exact ⟨congrArg _ hup, fun a ha => hmem a (List.mem_of_mem_take ha)⟩
  | nextSibling | laterSibling => cases hk

/-! ### Siblings -/

section Siblings

variable {owners : List NodeId} (hrewritten : IsRewritten owners d d')
include hrewritten

theorem children_parent_of_mem (hid : id ∈ d'.elements) {p : NodeId}
    (hp : d.parent id = some p) : d'.children p = d.children p := by
  obtain ⟨q, hq, hold, -, -⟩ := h.parent_of_mem hid
  obtain rfl : q = p := Option.some.inj (hold.symm.trans hp)
  refine hrewritten.others q fun howner => ?_
  -- the only child of a sheet that was rewritten is new
  obtain ⟨j, hj, hchildren, -⟩ := hrewritten.replaced q howner
  have hmem := (h.isRooted.isForest.mem_children_iff q id).2 hq
  rw [hchildren, List.mem_singleton] at hmem
  exact Nat.not_lt_of_le hj (hmem ▸ h.lt_size_of_mem hid)

theorem siblings_eq (hid : id ∈ d'.elements) : d'.siblings id = d.siblings id := by
  obtain ⟨p, hp, hold, -, -⟩ := h.parent_of_mem hid
  rw [siblings, siblings, hp, hold]
  exact h.children_parent_of_mem hrewritten hid hold

omit hrewritten in
theorem isElement_eq_of_mem_children {p c : NodeId} (hc : c ∈ d.children p) :
    d'.isElement c = d.isElement c :=
  h.isElement_eq (lt_size_of_parent ((h.isForest.mem_children_iff p c).1 hc))

theorem precedingElements_eq (hid : id ∈ d'.elements) :
    d'.precedingElements id = d.precedingElements id ∧
      ∀ a ∈ d.precedingElements id, a ∈ d'.elements := by
  obtain ⟨p, hp, hold, -, hbelow⟩ := h.parent_of_mem hid
  have hchildren := h.children_parent_of_mem hrewritten hid hold
  have hsiblings : d.siblings id = d.children p := by rw [siblings, hold]
  rw [precedingElements, precedingElements, indexInParent?, indexInParent?,
    h.siblings_eq hrewritten hid]
  cases (d.siblings id).idxOf? id with
  | none => exact ⟨rfl, List.forall_mem_nil _⟩
  | some i =>
    dsimp only
    have hbefore : ∀ c ∈ ((d.siblings id).take i).reverse, c ∈ d.children p := fun c hc =>
      hsiblings ▸ List.mem_of_mem_take (List.mem_reverse.1 hc)
    refine ⟨List.filter_congr fun c hc => h.isElement_eq_of_mem_children (hbefore c hc), ?_⟩
    intro a ha
    obtain ⟨ha, hel⟩ := List.mem_filter.1 ha
    have hchild := hbefore a ha
    exact h.mem_elements_of_mem_children hbelow (hchildren ▸ hchild)
      ((h.isElement_eq_of_mem_children hchild).trans hel)

theorem reached_eq (hid : id ∈ d'.elements) (k : Combinator) :
    d'.reached k id = d.reached k id ∧ ∀ a ∈ d.reached k id, a ∈ d'.elements := by
  obtain ⟨hbefore, hmem⟩ := h.precedingElements_eq hrewritten hid
  cases k with
  | descendant | child => exact h.reached_eq_of_not_isSibling hid rfl
  | nextSibling => exact ⟨congrArg _ hbefore, fun a ha => hmem a (List.mem_of_mem_take ha)⟩
  | laterSibling => exact ⟨hbefore, hmem⟩

theorem family_eq (hid : id ∈ d'.elements) : d'.family id = d.family id := by
  obtain ⟨p, hp, hold, -, -⟩ := h.parent_of_mem hid
  rw [family, family, hp, hold]
  dsimp only
  rw [childElements, childElements, h.children_parent_of_mem hrewritten hid hold]
  exact List.filter_congr fun c hc => h.isElement_eq_of_mem_children hc

theorem sameNamed_eq (hid : id ∈ d'.elements)
    (hname : ∀ j, (d'.element? j).map (·.name) = (d.element? j).map (·.name)) :
    d'.sameNamed id = d.sameNamed id := by
  have hid' := hname id
  rw [sameNamed, sameNamed, h.family_eq hrewritten hid]
  cases he : d.element? id with
  | none =>
    rw [he, Option.map_none, Option.map_eq_none_iff] at hid'
    rw [hid']
  | some e =>
    rw [he, Option.map_some, Option.map_eq_some_iff] at hid'
    obtain ⟨e', he', hsame⟩ := hid'
    rw [he']
    dsimp only
    rw [hsame]
    refine List.filter_congr fun j _ => ?_
    have hj := hname j
    revert hj
    cases d'.element? j <;> cases d.element? j <;> simp +contextual

/-- A node whose children were replaced is not empty, neither before nor after. -/
theorem empty_eq (hfilled : ∀ p ∈ owners, (d.children p).all d.isBare = false) (id : NodeId) :
    (d'.children id).all d'.isBare = (d.children id).all d.isBare := by
  by_cases howner : id ∈ owners
  · obtain ⟨j, -, hchildren, hbare⟩ := hrewritten.replaced id howner
    rw [hfilled id howner, hchildren]
    simp [hbare]
  · rw [hrewritten.others id howner, Bool.eq_iff_iff, List.all_eq_true, List.all_eq_true]
    refine forall_congr' fun c => imp_congr_right fun hc => ?_
    have hparent := (h.isForest.mem_children_iff id c).1 hc
    rw [isBare_eq_of_alike (h.alike c (lt_size_of_parent hparent))]

theorem matchesNth_eq (hid : id ∈ d'.elements)
    (hname : ∀ j, (d'.element? j).map (·.name) = (d.element? j).map (·.name))
    (counting : Counting) (nth : Nth) :
    d'.matchesNth id counting nth = d.matchesNth id counting nth := by
  rw [matchesNth, matchesNth, h.sameNamed_eq hrewritten hid hname, h.family_eq hrewritten hid]

end Siblings

/-- The root element stays what it is. -/
theorem matchesPlace_root (hid : id ∈ d'.elements) :
    d'.matchesPlace id .root = d.matchesPlace id .root := by
  obtain ⟨p, hp, hold, hlt, -⟩ := h.parent_of_mem hid
  rw [matchesPlace, matchesPlace, hp, hold, Bool.eq_iff_iff, beq_iff_eq, beq_iff_eq]
  exact (h.alike p hlt).eq_root_iff

theorem matchesPlace_eq {owners : List NodeId} (hrewritten : IsRewritten owners d d')
    (hfilled : ∀ p ∈ owners, (d.children p).all d.isBare = false) (hid : id ∈ d'.elements)
    (hname : ∀ j, (d'.element? j).map (·.name) = (d.element? j).map (·.name)) (place : Place) :
    d'.matchesPlace id place = d.matchesPlace id place := by
  have hfamily := h.family_eq hrewritten hid
  have hsame := h.sameNamed_eq hrewritten hid hname
  cases place with
  | root => exact h.matchesPlace_root hid
  | empty => exact h.empty_eq hrewritten hfilled id
  | firstChild | lastChild | onlyChild => rw [matchesPlace, matchesPlace, hfamily]
  | firstOfType | lastOfType | onlyOfType => rw [matchesPlace, matchesPlace, hsame]

end IsRemnant
end Document
end SvgCompact
