import SvgCompact.Pass.Groups
import SvgCompact.Proofs.Document.Cutting
import SvgCompact.Proofs.Document.Lineage
import SvgCompact.Proofs.Element.Lookup
import SvgCompact.Proofs.Markup.Building
import SvgCompact.Proofs.Pass.Editing
import SvgCompact.Proofs.Pass.Walks

/-!
Attributes that move between groups and their children keep their effect.

At every element that is no group, the inherited attributes have the values that they
had, and the transforms from the top down join to the text that they joined to.  A visit
moves attributes between one group and its children; what an element gathers on the way
down to it is blind to that (`Document.IsForest.gathered_of_shifted`).
-/

namespace SvgCompact

open Document (Edits nested)
open Element (read_style)

/-! ## Names of inherited attributes -/

namespace Inheritance

theorem plain_of_isInherited {p : String} (h : isInherited p = true) :
    QName.read p = QName.plain p ∧ p ≠ "style" ∧ p ≠ "class" := by
  have hall : ∀ p ∈ names, QName.read p = QName.plain p ∧ p ≠ "style" ∧ p ≠ "class" := by decide
  exact hall p (List.contains_iff_mem.1 h)

end Inheritance

theorem QName.read_transform : QName.read "transform" = QName.plain "transform" := by decide

/-- Whether a name is that of an inherited attribute. -/
def QName.IsInherited (n : QName) : Prop :=
  n.space = none ∧ Inheritance.isInherited n.stem = true

theorem QName.IsInherited.ne_style {n : QName} (h : n.IsInherited) : n ≠ QName.plain "style" :=
  fun heq => (Inheritance.plain_of_isInherited h.2).2.1 (congrArg QName.stem heq)

namespace Pass

variable {join : String → String → String} {e : Element} {a : Attribute} {s : String}
  {moved : List Attribute}

/-! ## Putting attributes on an element -/

/-- The value that an attribute gets when it is put on an element. -/
def joinedValue (join : String → String → String) (e : Element) (a : Attribute) : String :=
  if a.name = QName.plain "transform" then ((e.attr? "transform").map (join a.value)).getD a.value
  else a.value

theorem putJoined_eq (join : String → String → String) (e : Element) (a : Attribute) :
    putJoined join e a = e.put ⟨a.name, joinedValue join e a⟩ := by
  rw [putJoined, joinedValue]
  by_cases hname : a.name = QName.plain "transform"
  · have hnamed := (Element.isNamed_iff_eq_plain QName.read_transform).2 hname
    rw [hnamed, if_pos hname]
    cases e.attr? "transform" with
    | none => rfl
    | some held =>
      show e.put ⟨QName.read "transform", _⟩ = e.put ⟨a.name, _⟩
      rw [QName.read_transform, hname]
      rfl
  · have hnamed : a.name.isNamed "transform" = false := Bool.eq_false_iff.2 fun heq =>
      hname ((Element.isNamed_iff_eq_plain QName.read_transform).1 heq)
    rw [hnamed, if_neg hname]

theorem attr?_putJoined (hs : QName.read s = QName.plain s) :
    (putJoined join e a).attr? s =
      if a.name = QName.plain s then some (joinedValue join e a) else e.attr? s := by
  rw [putJoined_eq, Element.attr?_put hs]

theorem isFresh_foldl_putJoined (h : e.IsFresh) : (moved.foldl (putJoined join) e).IsFresh :=
  List.foldlRecOn (motive := Element.IsFresh) moved _ h fun e he a _ => by
    rw [putJoined_eq]
    exact he.put _

theorem style_foldl_putJoined (h : ∀ a ∈ moved, a.name ≠ QName.plain "style") :
    (moved.foldl (putJoined join) e).style = e.style :=
  List.foldlRecOn (motive := fun e' : Element => e'.style = e.style) moved _ rfl
    fun e' he' a ha => by
      rw [putJoined_eq, Element.style_put (a := ⟨a.name, joinedValue join e' a⟩) (h a ha), he']

theorem attr?_foldl_putJoined_of_not (hs : QName.read s = QName.plain s)
    (h : ∀ a ∈ moved, a.name ≠ QName.plain s) :
    (moved.foldl (putJoined join) e).attr? s = e.attr? s :=
  List.foldlRecOn (motive := fun e' : Element => e'.attr? s = e.attr? s) moved _ rfl
    fun e' he' a ha => by rw [attr?_putJoined hs, if_neg (h a ha), he']

theorem attr?_foldl_putJoined (hs : QName.read s = QName.plain s)
    (hnodup : (moved.map (·.name)).Nodup) (ha : a ∈ moved) (hname : a.name = QName.plain s) :
    (moved.foldl (putJoined join) e).attr? s = some (joinedValue join e a) := by
  induction moved generalizing e with
  | nil => cases ha
  | cons b rest ih =>
    rw [List.map_cons, List.nodup_cons] at hnodup
    rw [List.foldl_cons]
    rcases List.mem_cons.1 ha with rfl | ha
    · have hrest : ∀ b ∈ rest, b.name ≠ QName.plain s := fun b hb heq =>
        hnodup.1 (hname ▸ heq ▸ List.mem_map_of_mem hb)
      rw [attr?_foldl_putJoined_of_not hs hrest, attr?_putJoined hs, if_pos hname]
    · have hne : b.name ≠ a.name := fun heq => hnodup.1 (heq ▸ List.mem_map_of_mem ha)
      rw [ih hnodup.2 ha, joinedValue, joinedValue]
      split
      · next htransform =>
        rw [attr?_putJoined QName.read_transform, if_neg (htransform ▸ hne)]
      · rfl

end Pass

/-! ## Documents whose groups change -/

namespace Document

theorem not_isNamed_of_group {d : Document} {id : NodeId} {s : String}
    (h : d.isNamed id "g" = true) (hs : "g" ≠ s) : d.isNamed id s = false := by
  obtain ⟨e, he, hg⟩ := isNamed_iff.1 h
  refine Bool.eq_false_iff.2 fun hnamed => hs ?_
  obtain ⟨e', he', he's⟩ := isNamed_iff.1 hnamed
  obtain rfl := Option.some.inj (he.symm.trans he')
  exact QName.isNamed_unique (by decide) hg he's

/-- Whether two documents differ in nothing that is seen at elements other than groups. -/
structure IsRegrouped (d d' : Document) : Prop where
  named : ∀ id s, d'.isNamed id s = d.isNamed id s
  isElement : ∀ id, d'.isElement id = d.isElement id
  reached : ∀ id, d.isNamed id "g" = false → (id ∈ d'.subtree root ↔ id ∈ d.subtree root)
  resolved : ∀ id, d.isNamed id "g" = false → ∀ p, Inheritance.isInherited p = true →
    p ≠ "transform" → d'.resolved? p id = d.resolved? p id
  transform : ∀ id, d.isNamed id "g" = false → d'.jointTransform id = d.jointTransform id

namespace IsRegrouped

variable {d d' d'' : Document}

theorem refl (d : Document) : d.IsRegrouped d :=
  ⟨fun _ _ => rfl, fun _ => rfl, fun _ _ => Iff.rfl, fun _ _ _ _ _ => rfl, fun _ _ => rfl⟩

theorem trans (h : d.IsRegrouped d') (h' : d'.IsRegrouped d'') : d.IsRegrouped d'' where
  named id s := (h'.named id s).trans (h.named id s)
  isElement id := (h'.isElement id).trans (h.isElement id)
  reached id hid := (h'.reached id ((h.named id "g").trans hid)).trans (h.reached id hid)
  resolved id hid p hp hne :=
    (h'.resolved id ((h.named id "g").trans hid) p hp hne).trans (h.resolved id hid p hp hne)
  transform id hid :=
    (h'.transform id ((h.named id "g").trans hid)).trans (h.transform id hid)

theorem mem_elements_iff (h : d.IsRegrouped d') {id : NodeId} (hid : d.isNamed id "g" = false) :
    id ∈ d'.elements ↔ id ∈ d.elements := by
  rw [Document.mem_elements_iff, Document.mem_elements_iff, h.reached id hid, h.isElement]

theorem isNamed_eq {P : QName → Prop} {drops : Element → Prop} (h : d.IsRestyled d')
    (hedits : Edits P drops d d') (id : NodeId) (s : String) :
    d'.isNamed id s = d.isNamed id s := by
  rw [isNamed, isNamed]
  cases he : d.element? id with
  | none =>
    have hnone : d'.element? id = none := by
      rcases h.alike id with heq | ⟨-, helement⟩
      · rw [element?, heq, ← element?, he]
      · rw [Content.isElement, ← element?, he] at helement
        cases helement
    rw [hnone]
  | some e =>
    obtain ⟨e', he', hname⟩ := hedits.name_of_element? he
    rw [he']
    exact congrArg (QName.isNamed · s) hname

/-- Attributes of a group and its children may change where no child sees a difference. -/
theorem of_shifted {P : QName → Prop} {drops : Element → Prop} (hd : d.IsForest)
    (h : d.IsRestyled d') (hedits : Edits P drops d d') {id : NodeId}
    (hg : d.isNamed id "g" = true)
    (hothers : ∀ j, j ≠ id → d.parent j ≠ some id → d'.element? j = d.element? j)
    (hproperty : ∀ c, d.parent c = some id → ∀ p, Inheritance.isInherited p = true →
      p ≠ "transform" →
      (d'.property? p c).or (d'.property? p id) = (d.property? p c).or (d.property? p id))
    (htransform : ∀ c, d.parent c = some id →
      nested (d'.transform? id) (d'.transform? c) = nested (d.transform? id) (d.transform? c)) :
    d.IsRegrouped d' := by
  have hd' : d'.IsForest := hd.of_links h.parent_eq h.children_eq
  have hne : ∀ {j}, d.isNamed j "g" = false → j ≠ id := by
    rintro j hj rfl
    rw [hg] at hj
    cases hj
  refine ⟨isNamed_eq h hedits, fun j => (h.alike j).isElement_eq, fun j hj => ?_, fun j hj p hp hpt => ?_,
    fun j hj => ?_⟩
  · rw [hd.mem_subtree_root_iff, hd'.mem_subtree_root_iff,
      hd.gathered_of_shifted hd' Bool.or_assoc h.parent_eq (fun _ _ _ => rfl) (fun _ _ => rfl)
        (hne hj)]
  · rw [resolved?_eq_gathered, resolved?_eq_gathered]
    refine hd.gathered_of_shifted hd' (fun x y z => Option.or_assoc.symm) h.parent_eq
      (fun i hi hp => ?_) (fun c hc => hproperty c hc p hp hpt) (hne hj)
    rw [property?, property?, hothers i hi hp]
  · rw [jointTransform_eq_gathered, jointTransform_eq_gathered,
      hd.gathered_of_shifted hd' Document.nested_assoc h.parent_eq (fun i hi hp => ?_) htransform
        (hne hj)]
    rw [transform?, transform?, hothers i hi hp]

end IsRegrouped

end Document

namespace Pass

open Document (IsCoherent IsRegrouped)

variable {d : Document} {id c : NodeId} {p : String} {join : String → String → String}
  {e : Element} {a : Attribute} {moved : List Attribute}

theorem property?_foldl_putJoined (h : ∀ a ∈ moved, a.name ≠ QName.plain "style") :
    (moved.foldl (putJoined join) e).property? p =
      (e.style.get? p).or ((moved.foldl (putJoined join) e).attr? p) := by
  rw [Element.property?_eq_or, style_foldl_putJoined h]

/-! ## From children to their group -/

/-- What attributes must be to move from the children of a group to the group. -/
structure IsHoistable (d : Document) (id : NodeId) (group : Element) (moved : List Attribute) :
    Prop where
  element : d.element? id = some group
  named : group.isNamed "g" = true
  shared : ∀ c, d.parent c = some id → ∃ e, d.element? c = some e ∧ ∀ a ∈ moved, a ∈ e.attributes
  inherited : ∀ a ∈ moved, a.name.IsInherited
  nodup : (moved.map (·.name)).Nodup
  /-- The style of the group hides none of them. -/
  free : ∀ a ∈ moved, group.style.get? a.name.stem = none

theorem mapM_eq_some_iff {α β : Type} {f : α → Option β} {l : List α} {l' : List β} :
    l.mapM f = some l' ↔ l.map f = l'.map some := by
  induction l generalizing l' with
  | nil => cases l' <;> simp
  | cons a rest ih =>
    rw [List.mapM_cons]
    simp only [bind, Option.bind_eq_some_iff, ih]
    cases l' <;> simp

/-- What `hoistable` keeps is on every child, inherited, and not in the style of the group. -/
theorem mem_hoistable {group first : Element} {rest : List Element}
    (ha : a ∈ hoistable group (first :: rest)) :
    (∀ e ∈ first :: rest, a ∈ e.attributes) ∧ a.name.IsInherited ∧
      group.style.get? a.name.stem = none := by
  obtain ⟨hshared, hallowed⟩ := List.mem_filter.1 ha
  obtain ⟨hfirst, hcond⟩ := List.mem_filter.1 hshared
  simp only [Bool.and_eq_true, Option.isNone_iff_eq_none, List.all_eq_true] at hcond
  obtain ⟨⟨hspace, hinherited⟩, hrest⟩ := hcond
  refine ⟨fun e he => ?_, ⟨hspace, hinherited⟩, ?_⟩
  · rcases List.mem_cons.1 he with rfl | he
    · exact hfirst
    · exact List.contains_iff_mem.1 (hrest e he)
  · have hfree := (Bool.and_eq_true_iff.1 hallowed).2
    simpa [hspace] using hfree

theorem isHoistable_hoistedFrom (hd : d.IsSound fun _ => True) (id : NodeId)
    (hmoved : hoistedFrom d id ≠ []) :
    ∃ group, IsHoistable d id group (hoistedFrom d id) := by
  rw [hoistedFrom] at hmoved ⊢
  split at hmoved
  · next group children hgroup hchildren =>
    split at hmoved
    · next hg =>
      rw [if_pos hg]
      rw [Bool.and_eq_true] at hg
      rw [plainElements?, mapM_eq_some_iff] at hchildren
      have hchild : ∀ c, d.parent c = some id → ∃ e ∈ children, d.element? c = some e := by
        intro c hc
        have hmem := List.mem_map_of_mem (f := fun c => (d.element? c).filter fun e =>
          !e.attributes.isEmpty && !e.hasAttr "class")
          ((hd.isForest.mem_children_iff id c).2 hc)
        rw [hchildren] at hmem
        obtain ⟨e, he, hfound⟩ := List.mem_map.1 hmem
        exact ⟨e, he, (Option.filter_eq_some_iff.1 hfound.symm).1⟩
      cases children with
      | nil => simp at hg
      | cons first rest =>
        have hfirst : ∃ c, d.element? c = some first := by
          have hmem : some first ∈ (first :: rest).map some := by simp
          rw [← hchildren] at hmem
          obtain ⟨c, -, hc⟩ := List.mem_map.1 hmem
          exact ⟨c, (Option.filter_eq_some_iff.1 hc).1⟩
        obtain ⟨c, hc⟩ := hfirst
        have hsub : (hoistable group (first :: rest)).Sublist first.attributes :=
          List.filter_sublist.trans List.filter_sublist
        refine ⟨group, hgroup, hg.1, fun c hc => ?_, fun a ha => (mem_hoistable ha).2.1,
          (hsub.map _).nodup (hd.names c first hc).nodup, fun a ha => (mem_hoistable ha).2.2⟩
        obtain ⟨e, he, hfound⟩ := hchild c hc
        exact ⟨e, hfound, fun a ha => (mem_hoistable ha).1 e he⟩
    · exact absurd rfl hmoved
  · exact absurd rfl hmoved

section Hoisting

variable {group : Element} (h : IsHoistable d id group moved)
include h

theorem IsHoistable.element?_hoist (hd : d.IsForest) (j : NodeId) :
    (hoist d id moved).element? j =
      if j = id then some (moved.foldl (putJoined fun own outer => outer ++ " " ++ own) group)
      else if d.parent j = some id then
        (d.element? j).map (Element.filterAttrs fun a => !(moved.map (·.name)).contains a.name)
      else d.element? j := by
  rw [hoist, Document.element?_updateElement,
    Document.element?_foldl_updateElement_of_nodup _ _ _ (hd.nodup_children id)]
  simp only [hd.mem_children_iff]
  split
  · next hj =>
    subst hj
    rw [if_neg (hd.parent_ne_self j), h.element]
    rfl
  · rfl

theorem IsHoistable.property?_shifted (hd : d.IsCoherent) (hc : d.parent c = some id)
    (hp : Inheritance.isInherited p = true) (hpt : p ≠ "transform") :
    ((hoist d id moved).property? p c).or ((hoist d id moved).property? p id) =
      (d.property? p c).or (d.property? p id) := by
  obtain ⟨hplain, -, -⟩ := Inheritance.plain_of_isInherited hp
  obtain ⟨e, he, hshared⟩ := h.shared c hc
  have hne : c ≠ id := fun heq => hd.isForest.parent_ne_self id (heq ▸ hc)
  have hstyle : ∀ a ∈ moved, a.name ≠ QName.plain "style" := fun a ha => (h.inherited a ha).ne_style
  have hkept : (!(moved.map (·.name)).contains (QName.plain "style")) = true := by
    simpa using hstyle
  simp only [Document.property?, h.element?_hoist hd.isForest, if_neg hne, if_pos hc, if_true, he,
    h.element, Option.map_some, Option.bind_some]
  rw [property?_foldl_putJoined hstyle,
    Element.property?_filterAttrs (q := fun n => !(moved.map (·.name)).contains n) (hd.fresh c e he) hkept
      hplain, Element.property?_eq_or, Element.property?_eq_or]
  by_cases hm : ∃ a ∈ moved, a.name = QName.plain p
  · obtain ⟨a, ha, hname⟩ := hm
    have hfree := h.free a ha
    have hown : e.attr? p = some a.value :=
      (Element.attr?_eq_some_iff hplain (hd.names c e he).nodup).2 (hname ▸ hshared a ha)
    have hnot : a.name ≠ QName.plain "transform" := by
      rw [hname]
      exact fun heq => hpt (congrArg QName.stem heq)
    have hremoved : (moved.map (·.name)).contains (QName.plain p) = true :=
      List.contains_iff_mem.2 (hname ▸ List.mem_map_of_mem ha)
    rw [hname] at hfree
    rw [attr?_foldl_putJoined hplain h.nodup ha hname, joinedValue, if_neg hnot, hremoved, hown]
    simp [show group.style.get? p = none from hfree]
  · have hkeeps : (moved.map (·.name)).contains (QName.plain p) = false := by
      simpa using hm
    rw [attr?_foldl_putJoined_of_not hplain fun a ha hname => hm ⟨a, ha, hname⟩, hkeeps]
    rfl

theorem IsHoistable.transform?_shifted (hd : d.IsCoherent) (hc : d.parent c = some id) :
    nested ((hoist d id moved).transform? id) ((hoist d id moved).transform? c) =
      nested (d.transform? id) (d.transform? c) := by
  obtain ⟨e, he, hshared⟩ := h.shared c hc
  have hne : c ≠ id := fun heq => hd.isForest.parent_ne_self id (heq ▸ hc)
  simp only [Document.transform?, h.element?_hoist hd.isForest, if_neg hne, if_pos hc, if_true, he,
    h.element, Option.map_some, Option.bind_some]
  rw [Element.attr?_filterAttrs QName.read_transform (fun n => !(moved.map (·.name)).contains n)]
  by_cases hm : ∃ a ∈ moved, a.name = QName.plain "transform"
  · obtain ⟨a, ha, hname⟩ := hm
    have hown : e.attr? "transform" = some a.value :=
      (Element.attr?_eq_some_iff QName.read_transform (hd.names c e he).nodup).2
        (hname ▸ hshared a ha)
    have hremoved : (moved.map (·.name)).contains (QName.plain "transform") = true :=
      List.contains_iff_mem.2 (hname ▸ List.mem_map_of_mem ha)
    rw [attr?_foldl_putJoined QName.read_transform h.nodup ha hname, joinedValue, if_pos hname,
      hremoved, hown]
    cases group.attr? "transform" <;> rfl
  · have hkeeps : (moved.map (·.name)).contains (QName.plain "transform") = false := by
      simpa using hm
    rw [attr?_foldl_putJoined_of_not QName.read_transform fun a ha hname => hm ⟨a, ha, hname⟩,
      hkeeps]
    rfl

omit h in
theorem isRestyled_hoist (d : Document) (id : NodeId) (moved : List Attribute) :
    d.IsRestyled (hoist d id moved) :=
  (Document.IsRestyled.foldl (fun d c => .updateElement d c _) (d.children id) d).trans
    (.updateElement _ id _)

theorem IsHoistable.isCoherent_hoist (hd : d.IsCoherent) : (hoist d id moved).IsCoherent := by
  have hedits : Document.Edits (fun _ => True) (fun _ => False) d (hoist d id moved) :=
    edits_hoist hd.toIsSound id fun _ _ => trivial
  refine ⟨hedits.isSound hd.toIsSound, fun j e he => ?_⟩
  rw [h.element?_hoist hd.isForest] at he
  split at he
  · obtain rfl := Option.some.inj he
    exact isFresh_foldl_putJoined (hd.fresh id group h.element)
  · split at he
    · obtain ⟨e', -, rfl⟩ := Option.map_eq_some_iff.1 he
      exact Element.isFresh_filterAttrs _ e'
    · exact hd.fresh j e he

theorem IsHoistable.isRegrouped_hoist (hd : d.IsCoherent) : d.IsRegrouped (hoist d id moved) := by
  have hedits : Document.Edits (fun _ => True) (fun _ => False) d (hoist d id moved) :=
    edits_hoist hd.toIsSound id fun _ _ => trivial
  refine .of_shifted hd.isForest (isRestyled_hoist d id moved) hedits
    (Document.isNamed_iff.2 ⟨group, h.element, h.named⟩) (fun j hj hp => ?_)
    (fun c hc p hp hpt => h.property?_shifted hd hc hp hpt) fun c hc => h.transform?_shifted hd hc
  rw [h.element?_hoist hd.isForest, if_neg hj, if_neg hp]

end Hoisting

/-! ## From a group to its only child -/

/-- When the attributes of a group can move to its only child. -/
structure IsLowerableTo (d : Document) (id c : NodeId) (group child : Element) : Prop where
  only : d.children id = [c]
  outer : d.element? id = some group
  inner : d.element? c = some child
  named : group.isNamed "g" = true
  lowerable : ∀ a ∈ group.attributes, isLowerable child a = true

theorem lower_cases (hg : d.isNamed id "g" = true) :
    lower d id = d ∨ ∃ c group child, IsLowerableTo d id c group child ∧
      lower d id = ((d.updateElement c fun child =>
        group.attributes.foldl (putJoined fun outer own => outer ++ " " ++ own) child).updateElement
          id (Element.filterAttrs fun _ => false)) := by
  rw [lower]
  split
  · next c hchildren =>
    split
    · next group child hgroup hchild =>
      split
      · next hall =>
        obtain ⟨group', hgroup', hnamed⟩ := Document.isNamed_iff.1 hg
        obtain rfl : group = group' := Option.some.inj (hgroup.symm.trans hgroup')
        exact .inr ⟨c, group, child,
          ⟨hchildren, hgroup, hchild, hnamed, List.all_eq_true.1 hall⟩, rfl⟩
      · exact .inl rfl
    · exact .inl rfl
  · exact .inl rfl

section Lowering

variable {group child : Element} (h : IsLowerableTo d id c group child)
include h

theorem IsLowerableTo.inherited {a : Attribute} (ha : a ∈ group.attributes) :
    a.name.IsInherited := by
  have hlow := h.lowerable a ha
  simp only [isLowerable, Bool.and_eq_true, Option.isNone_iff_eq_none] at hlow
  exact hlow.1

/-- The child has none of the attributes yet, a `transform` apart. -/
theorem IsLowerableTo.attr?_child {a : Attribute} (ha : a ∈ group.attributes)
    (hname : a.name = QName.plain p) (hpt : p ≠ "transform") : child.attr? p = none := by
  have hlow := h.lowerable a ha
  simp only [isLowerable, Bool.and_eq_true, hname, QName.plain, beq_iff_eq, if_neg hpt,
    Bool.not_eq_true', Element.hasAttr, Option.isSome_eq_false_iff,
    Option.isNone_iff_eq_none] at hlow
  rw [Element.attr?, hlow.2, Option.map_none]

/-- A group with such attributes has no style of its own. -/
theorem IsLowerableTo.style_group (hd : d.IsCoherent) : group.style = Style.empty := by
  have hnone : group.attr? "style" = none := by
    rw [Option.eq_none_iff_forall_ne_some]
    intro v hv
    have hmem := (Element.attr?_eq_some_iff read_style (hd.names id group h.outer).nodup).1 hv
    exact (h.inherited hmem).ne_style rfl
  rw [(hd.fresh id group h.outer).style, hnone]
  rfl

theorem IsLowerableTo.parent_iff (hd : d.IsForest) (j : NodeId) : d.parent j = some id ↔ j = c := by
  rw [← hd.mem_children_iff, h.only, List.mem_singleton]

end Lowering

/-- The document after the attributes of a group moved to a child. -/
def lowered (d : Document) (id c : NodeId) (moved : List Attribute) : Document :=
  (d.updateElement c fun child =>
    moved.foldl (putJoined fun outer own => outer ++ " " ++ own) child).updateElement id
      (Element.filterAttrs fun _ => false)

theorem isRestyled_lowered (d : Document) (id c : NodeId) (moved : List Attribute) :
    d.IsRestyled (lowered d id c moved) :=
  (Document.IsRestyled.updateElement d c _).trans (.updateElement _ id _)

section Lowering

variable {group child : Element} (h : IsLowerableTo d id c group child)
include h

theorem IsLowerableTo.element?_lowered (hd : d.IsForest) (j : NodeId) :
    (lowered d id c group.attributes).element? j =
      if j = id then some (group.filterAttrs fun _ => false)
      else if j = c then
        some (group.attributes.foldl (putJoined fun outer own => outer ++ " " ++ own) child)
      else d.element? j := by
  have hne : id ≠ c := fun heq => hd.parent_ne_self id ((h.parent_iff hd id).2 heq)
  rw [lowered, Document.element?_updateElement, Document.element?_updateElement]
  split
  · next hj =>
    subst hj
    rw [if_neg hne, h.outer]
    rfl
  · split
    · next hj =>
      subst hj
      rw [h.inner]
      rfl
    · rfl

theorem IsLowerableTo.property?_shifted (hd : d.IsCoherent)
    (hp : Inheritance.isInherited p = true) (hpt : p ≠ "transform") :
    ((lowered d id c group.attributes).property? p c).or
        ((lowered d id c group.attributes).property? p id) =
      (d.property? p c).or (d.property? p id) := by
  obtain ⟨hplain, -, -⟩ := Inheritance.plain_of_isInherited hp
  have hne : c ≠ id := fun heq =>
    hd.isForest.parent_ne_self id ((h.parent_iff hd.isForest id).2 heq.symm)
  have hnodup := (hd.names id group h.outer).nodup
  have hgroup : group.property? p = group.attr? p := by
    rw [Element.property?_eq_or, h.style_group hd]
    rfl
  have hemptied : (group.filterAttrs fun _ => false).property? p = none :=
    Element.property?_of_attributes_nil (Element.isFresh_filterAttrs _ group) (by simp) p
  simp only [Document.property?, h.element?_lowered hd.isForest, if_neg hne, if_true, h.inner,
    h.outer, Option.bind_some]
  rw [property?_foldl_putJoined fun a ha => (h.inherited ha).ne_style, hgroup, hemptied,
    Element.property?_eq_or]
  by_cases hm : ∃ a ∈ group.attributes, a.name = QName.plain p
  · obtain ⟨a, ha, hname⟩ := hm
    have hown : group.attr? p = some a.value :=
      (Element.attr?_eq_some_iff hplain hnodup).2 (hname ▸ ha)
    have hnot : a.name ≠ QName.plain "transform" := by
      rw [hname]
      exact fun heq => hpt (congrArg QName.stem heq)
    rw [attr?_foldl_putJoined hplain hnodup ha hname, joinedValue, if_neg hnot, hown,
      h.attr?_child ha hname hpt, Option.or_none, Option.or_none]
  · have hnone : group.attr? p = none := by
      rw [Option.eq_none_iff_forall_ne_some]
      exact fun v hv => hm ⟨_, (Element.attr?_eq_some_iff hplain hnodup).1 hv, rfl⟩
    rw [attr?_foldl_putJoined_of_not hplain fun a ha hname => hm ⟨a, ha, hname⟩, hnone]

theorem IsLowerableTo.transform?_shifted (hd : d.IsCoherent) :
    nested ((lowered d id c group.attributes).transform? id)
        ((lowered d id c group.attributes).transform? c) =
      nested (d.transform? id) (d.transform? c) := by
  have hne : c ≠ id := fun heq =>
    hd.isForest.parent_ne_self id ((h.parent_iff hd.isForest id).2 heq.symm)
  have hnodup := (hd.names id group h.outer).nodup
  simp only [Document.transform?, h.element?_lowered hd.isForest, if_neg hne, if_true, h.inner,
    h.outer, Option.bind_some]
  rw [Element.attr?_of_attributes_nil (e := group.filterAttrs fun _ => false) (by simp)]
  by_cases hm : ∃ a ∈ group.attributes, a.name = QName.plain "transform"
  · obtain ⟨a, ha, hname⟩ := hm
    have hown : group.attr? "transform" = some a.value :=
      (Element.attr?_eq_some_iff QName.read_transform hnodup).2 (hname ▸ ha)
    rw [attr?_foldl_putJoined QName.read_transform hnodup ha hname, joinedValue, if_pos hname, hown]
    cases child.attr? "transform" <;> rfl
  · have hnone : group.attr? "transform" = none := by
      rw [Option.eq_none_iff_forall_ne_some]
      exact fun v hv => hm ⟨_, (Element.attr?_eq_some_iff QName.read_transform hnodup).1 hv, rfl⟩
    rw [attr?_foldl_putJoined_of_not QName.read_transform fun a ha hname => hm ⟨a, ha, hname⟩,
      hnone]

end Lowering

theorem isRegrouped_lower (hd : d.IsCoherent) (hg : d.isNamed id "g" = true) :
    (lower d id).IsCoherent ∧ d.IsRegrouped (lower d id) := by
  have hedits : Edits (fun _ => True) (fun _ => False) d (lower d id) :=
    edits_lower hd.toIsSound id
  rcases lower_cases hg with hsame | ⟨c, group, child, h, hlowered⟩
  · rw [hsame]
    exact ⟨hd, .refl d⟩
  · have hlowered : lower d id = lowered d id c group.attributes := hlowered
    rw [hlowered] at hedits ⊢
    have hshape := isRestyled_lowered d id c group.attributes
    refine ⟨⟨hedits.isSound hd.toIsSound, fun j e he => ?_⟩, ?_⟩
    · rw [h.element?_lowered hd.isForest] at he
      split at he
      · obtain rfl := Option.some.inj he
        exact Element.isFresh_filterAttrs _ group
      · split at he
        · obtain rfl := Option.some.inj he
          exact isFresh_foldl_putJoined (hd.fresh c child h.inner)
        · exact hd.fresh j e he
    · refine .of_shifted hd.isForest hshape hedits hg (fun j hj hp => ?_)
        (fun c' hc' p hp hpt => ?_) fun c' hc' => ?_
      · rw [h.element?_lowered hd.isForest, if_neg hj,
          if_neg fun heq => hp ((h.parent_iff hd.isForest j).2 heq)]
      · obtain rfl := (h.parent_iff hd.isForest c').1 hc'
        exact h.property?_shifted hd hp hpt
      · obtain rfl := (h.parent_iff hd.isForest c').1 hc'
        exact h.transform?_shifted hd

/-! ## Replacing a group by its children -/

theorem isRegrouped_unwrap (hd : d.IsCoherent) (hg : d.isNamed id "g" = true)
    (hbare : (d.element? id).any (·.attributes.isEmpty) = true) :
    (d.unwrap id).IsCoherent ∧ d.IsRegrouped (d.unwrap id) := by
  have hedits : Edits (fun _ => True) (fun _ => False) d (d.unwrap id) := .edit (.unwrap id hg)
  have hcontent := Document.element?_unwrap d id
  obtain ⟨group, hgroup, hnil⟩ := (Option.any_eq_true _ _).1 hbare
  have hnil : group.attributes = [] := List.isEmpty_iff.1 hnil
  have hne : ∀ {j}, d.isNamed j "g" = false → j ≠ id := by
    rintro j hj rfl
    rw [hg] at hj
    cases hj
  refine ⟨⟨hedits.isSound hd.toIsSound, fun j e he => hd.fresh j e ((hcontent j).symm.trans he)⟩,
    fun j s => ?_, fun j => ?_, fun j hj => ?_, fun j hj p hp hpt => ?_, fun j hj => ?_⟩
  · rw [Document.isNamed, hcontent, Document.isNamed]
  · rw [Document.isElement, Document.content_unwrap, Document.isElement]
  · exact hd.toIsRooted.mem_subtree_unwrap_iff (hne hj)
  · have hproperty : (d.unwrap id).property? p = d.property? p := by
      funext j
      rw [Document.property?, hcontent, Document.property?]
    have hown : d.property? p id = none := by
      rw [Document.property?, hgroup]
      exact Element.property?_of_attributes_nil (hd.fresh id group hgroup) hnil p
    rw [Document.resolved?_eq_gathered, Document.resolved?_eq_gathered, hproperty,
      hd.isForest.gathered_unwrap _ (fun x => rfl) hown (hne hj)]
  · have htransform : (d.unwrap id).transform? = d.transform? := by
      funext j
      rw [Document.transform?, hcontent, Document.transform?]
    have hown : d.transform? id = none := by
      rw [Document.transform?, hgroup]
      exact Element.attr?_of_attributes_nil hnil _
    rw [Document.jointTransform_eq_gathered, Document.jointTransform_eq_gathered, htransform,
      hd.isForest.gathered_unwrap _ Document.nested_none hown (hne hj)]

/-! ## The passes -/

def sharedVisit : Visit := fun d id =>
  match hoistedFrom d id with
  | [] => (d, .keep)
  | moved => (hoist d id moved, .keep)

theorem moveSharedToGroup_eq : moveSharedToGroup = .bottomUp sharedVisit := rfl

def collapseVisit : Visit := fun d id =>
  if !d.isNamed id "g" || d.isEmpty id || isAlternative d id then (d, .keep)
  else
    let d := lower d id
    if (d.element? id).any (·.attributes.isEmpty) then (d.unwrap id, .keep) else (d, .keep)

theorem collapseGroups_eq : collapseGroups = .bottomUp collapseVisit := rfl

/-- What is kept where attributes move down, and where a bare group goes after that, is kept
by the whole pass. -/
theorem keeps_collapseGroups {Q : Document → Prop}
    (hstep : ∀ d id, Q d → d.isNamed id "g" = true → Q (lower d id) ∧
      (((lower d id).element? id).any (·.attributes.isEmpty) = true → Q ((lower d id).unwrap id)))
    (hd : Q d) : Q (collapseGroups.run d) := by
  have hkeeps : collapseVisit.Keeps Q := by
    unfold collapseVisit
    refine .of_keep (fun d id _ hd _ => ?_) fun d id => ?_
    · split
      · exact hd
      · next hcond =>
        simp only [Bool.or_eq_true, Bool.not_eq_true', not_or, Bool.not_eq_false] at hcond
        obtain ⟨hlower, hunwrap⟩ := hstep d id hd hcond.1.1
        dsimp only
        split
        · next hbare => exact hunwrap hbare
        · exact hlower
    · split
      · rfl
      · dsimp only
        split <;> rfl
  rw [collapseGroups_eq]
  exact hkeeps.bottomUp hd

theorem isRegrouped_collapseGroups (hd : d.IsCoherent) :
    d.IsRegrouped (collapseGroups.run d) := by
  refine (keeps_collapseGroups (Q := fun d' => d'.IsCoherent ∧ d.IsRegrouped d')
    (fun d' id hd' hg => ?_) ⟨hd, .refl d⟩).2
  obtain ⟨hcoherent, hregrouped⟩ := isRegrouped_lower hd'.1 hg
  refine ⟨⟨hcoherent, hd'.2.trans hregrouped⟩, fun hbare => ?_⟩
  obtain ⟨hcoherent', hregrouped'⟩ :=
    isRegrouped_unwrap hcoherent ((hregrouped.named id "g").trans hg) hbare
  exact ⟨hcoherent', hd'.2.trans (hregrouped.trans hregrouped')⟩

namespace Nested

def rect : Element :=
  .ofAttributes (.plain "rect") [⟨.plain "fill", "red"⟩, ⟨.plain "transform", "rotate(9)"⟩]

def circle : Element :=
  .ofAttributes (.plain "circle")
    [⟨.plain "style", "fill:blue"⟩, ⟨.plain "fill", "red"⟩, ⟨.plain "transform", "rotate(9)"⟩]

def outer : Element :=
  .ofAttributes (.plain "g") [⟨.plain "stroke", "red"⟩, ⟨.plain "transform", "scale(2)"⟩]

/-- A group in a group, with two children that share a color and a transform. -/
def document : Document :=
  (((((Document.empty.append Document.root (.element (.ofAttributes (.plain "svg") []))).1.append 1
    (.element outer)).1.append 2 (.element (.ofAttributes (.plain "g") []))).1.append 3
      (.element rect)).1.append 3 (.element circle)).1

theorem isCoherent_document : document.IsCoherent := by
  have helement : ∀ e : Element, Content.element e ≠ .root := fun _ => nofun
  refine ⟨⟨?_, fun j e he => ⟨trivial, fun _ _ => trivial, ?_⟩⟩, fun j e he => ?_⟩
  · exact ((((Document.IsRooted.empty.append (by decide) (helement _)).append (by decide)
      (helement _)).append (by decide) (helement _)).append (by decide) (helement _)).append
        (by decide) (helement _)
  · exact Document.forall_element?_of_all (Q := fun e => (e.attributes.map (·.name)).Nodup)
      (by decide) he
  · exact Document.forall_element?_of_all (Q := Element.IsFresh) (by decide +kernel) he

end Nested

end Pass
end SvgCompact
