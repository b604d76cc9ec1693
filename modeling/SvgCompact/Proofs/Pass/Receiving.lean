import SvgCompact.Proofs.Pass.Collapsing

/-!
Who gets the attributes of groups that collapse.

An element gets attributes if it is alone in a group that can give it all it has, bare
groups between them set aside (`Receives`).  A visit makes no such pair: what gets attributes
after it got them before.  So an element that gets nothing at first is left alone by the
whole pass.
-/

namespace SvgCompact
namespace Pass

open Document (root IsCoherent)

variable {d s t : Document} {id c g j : NodeId} {p : String} {group child e : Element}

/-! ## Who receives -/

/-- Whether a node is alone in another, bare groups between them set aside. -/
inductive Surrounds (d : Document) : NodeId → NodeId → Prop
  | only {g id : NodeId} (h : d.children g = [id]) : Surrounds d g id
  | through {g m id : NodeId} (h : d.children g = [m]) (hm : d.isNamed m "g" = true)
      (hbare : (d.element? m).any (·.attributes.isEmpty) = true) (hid : Surrounds d m id) :
      Surrounds d g id

/-- Whether a group leaves its attributes to an element. -/
structure Leaves (d : Document) (g id : NodeId) (group e : Element) : Prop where
  surrounds : Surrounds d g id
  outer : d.element? g = some group
  inner : d.element? id = some e
  named : group.isNamed "g" = true
  single : isAlternative d g = false
  filled : group.attributes ≠ []
  lowerable : ∀ a ∈ group.attributes, isLowerable e a = true

/-- Whether an element gets the attributes of some group. -/
def Receives (d : Document) (id : NodeId) : Prop :=
  ∃ g group e, Leaves d g id group e

theorem Surrounds.children_eq (h : Surrounds d g id) : ∃ c, d.children g = [c] := by
  cases h with
  | only h => exact ⟨_, h⟩
  | through h => exact ⟨_, h⟩

theorem Surrounds.isAbove (h : Surrounds d g id) (hd : d.IsForest) : d.IsAbove g id := by
  have hlink : ∀ {x y}, d.children x = [y] → d.IsAbove x y := fun hxy =>
    Document.isAbove_of_parent ((hd.mem_children_iff _ _).1 (hxy ▸ List.mem_singleton_self _))
  induction h with
  | only h => exact hlink h
  | through h _ _ _ ih => exact (hlink h).trans ih

/-! ## Nothing is received later -/

theorem isLowerable_of_name {a b : Attribute} (h : a.name = b.name) (ha : isLowerable e a = true) :
    isLowerable e b = true := by
  rw [isLowerable, ← h]
  exact ha

theorem mem_names_foldl_putJoined {join : String → String → String} {moved : List Attribute}
    {n : QName} :
    n ∈ (moved.foldl (putJoined join) e).attributes.map (·.name) ↔
      n ∈ e.attributes.map (·.name) ∨ n ∈ moved.map (·.name) := by
  induction moved generalizing e with
  | nil => simp
  | cons a rest ih =>
    rw [List.foldl_cons, ih, putJoined_eq]
    rcases Element.attributes_put_cases e ⟨a.name, joinedValue join e a⟩ with
      ⟨front, held, back, hold, hheld, -, hnew⟩ | ⟨-, hnew⟩
    · rw [hold, hnew]
      simp only [List.map_append, List.map_cons, List.mem_append, List.mem_cons, hheld]
      tauto
    · rw [hnew]
      simp only [List.map_append, List.map_cons, List.map_nil, List.mem_append, List.mem_cons,
        List.not_mem_nil, or_false]
      tauto

/-- The only child of a node after a bare group is gone was its only child before, or the
only child of the group that was. -/
theorem children_of_unwrap (hd : d.IsForest) {m x y : NodeId} (hfilled : d.children m ≠ [])
    (h : (d.unwrap m).children x = [y]) :
    d.children x = [y] ∨ d.children x = [m] ∧ d.children m = [y] := by
  cases hp : d.parent m with
  | none =>
    rw [Document.unwrap_of_parent_none hp] at h
    exact .inl h
  | some p =>
    obtain ⟨front, back, hs, hchildren⟩ := hd.children_unwrap hp
    rw [hchildren] at h
    split at h
    · next hx =>
      obtain ⟨z, zs, hz⟩ := List.exists_cons_of_ne_nil hfilled
      have hlength := congrArg List.length h
      rw [hz] at hlength h
      simp only [List.length_append, List.length_cons, List.length_nil] at hlength
      obtain rfl : front = [] := List.length_eq_zero_iff.1 (by omega)
      obtain rfl : back = [] := List.length_eq_zero_iff.1 (by omega)
      rw [List.nil_append, List.append_nil] at h
      exact .inr ⟨hx ▸ hs, hz.trans h⟩
    · split at h
      · cases h
      · exact .inl h

/-- What is no alternative after a bare group is gone was none before. -/
theorem isAlternative_of_unwrap (hd : d.IsForest) {m : NodeId} (hm : IsCollapsible d m)
    (h : isAlternative (d.unwrap m) g = false) : isAlternative d g = false := by
  cases hp : d.parent m with
  | none =>
    rw [Document.unwrap_of_parent_none hp] at h
    exact h
  | some p =>
    rw [isAlternative, hd.parent_unwrap hp] at h
    rw [isAlternative]
    split at h
    · next hgm =>
      rw [hgm]
      exact Document.not_isNamed_of_group hm.named (by decide)
    · split at h
      · next hgm =>
        rw [hgm]
        exact hm.single
      · simpa only [Document.isNamed, Document.element?_unwrap] using h

theorem Surrounds.of_unwrap (hd : d.IsCoherent) {m : NodeId} (hm : IsCollapsible d m)
    (hbare : (d.element? m).any (·.attributes.isEmpty) = true)
    (h : Surrounds (d.unwrap m) g id) : Surrounds d g id := by
  have hlink : ∀ {x y}, (d.unwrap m).children x = [y] →
      d.children x = [y] ∨ d.children x = [m] ∧ d.children m = [y] :=
    children_of_unwrap hd.isForest hm.filled
  induction h with
  | only hg =>
    rcases hlink hg with hg | ⟨hg, hm'⟩
    · exact .only hg
    · exact .through hg hm.named hbare (.only hm')
  | through hg hy hybare _ ih =>
    rw [Document.isNamed, Document.element?_unwrap] at hy
    rw [Document.element?_unwrap] at hybare
    rcases hlink hg with hg | ⟨hg, hm'⟩
    · exact .through hg hy hybare ih
    · exact .through hg hm.named hbare (.through hm' hy hybare ih)

/-- What gets attributes after a bare group is gone got them before. -/
theorem Receives.of_unwrap (hd : d.IsCoherent) {m : NodeId} (hm : IsCollapsible d m)
    (hbare : (d.element? m).any (·.attributes.isEmpty) = true) (h : Receives (d.unwrap m) id) :
    Receives d id := by
  obtain ⟨g, group, e, hleaves⟩ := h
  have hsingle := isAlternative_of_unwrap hd.isForest hm hleaves.single
  exact ⟨g, group, e, hleaves.surrounds.of_unwrap hd hm hbare,
    (Document.element?_unwrap d m g).symm.trans hleaves.outer,
    (Document.element?_unwrap d m id).symm.trans hleaves.inner, hleaves.named, hsingle,
    hleaves.filled, hleaves.lowerable⟩

/-- The only child of a group that left its own to it has attributes now, so no way to
another node leads through the two. -/
theorem Surrounds.of_lowered (hd : d.IsForest) {m x y : NodeId}
    (hlowerable : IsLowerableTo d m c group child) (hfilled : group.attributes ≠ [])
    (hnamed : ∀ j name, (lowered d m c group.attributes).isNamed j name = d.isNamed j name)
    (hy : y ≠ c) (h : Surrounds (lowered d m c group.attributes) x y) :
    Surrounds d x y ∧ x ≠ m := by
  have hshape := isRestyled_lowered d m c group.attributes
  have helement := hlowerable.element?_lowered hd
  induction h with
  | only hxy =>
    rw [hshape.children_eq] at hxy
    refine ⟨.only hxy, ?_⟩
    rintro rfl
    exact hy (List.singleton_inj.1 (hxy.symm.trans hlowerable.only))
  | @through x z y hxz hz hbare _ ih =>
    obtain ⟨hzy, hzm⟩ := ih hy
    rw [hshape.children_eq] at hxz
    rw [hnamed] at hz
    have hzc : z ≠ c := by
      rintro rfl
      rw [helement, if_neg hzm, if_pos rfl, Option.any_some, List.isEmpty_iff] at hbare
      obtain ⟨a, ha⟩ := List.exists_mem_of_ne_nil _ hfilled
      have hname : a.name ∈ (group.attributes.foldl
          (putJoined fun outer own => outer ++ " " ++ own) child).attributes.map (·.name) :=
        mem_names_foldl_putJoined.2 (.inr (List.mem_map_of_mem ha))
      rw [hbare] at hname
      cases hname
    rw [helement, if_neg hzm, if_neg hzc] at hbare
    refine ⟨.through hxz hz hbare hzy, ?_⟩
    rintro rfl
    exact hzc (List.singleton_inj.1 (hxz.symm.trans hlowerable.only))

/-- What gets attributes after a group left its own to its child got them before. -/
theorem Receives.of_lowered (hd : d.IsCoherent) {m : NodeId} (hm : IsCollapsible d m)
    (hlowerable : IsLowerableTo d m c group child) (hfilled : group.attributes ≠ [])
    (hne : id ≠ m) (h : Receives (lowered d m c group.attributes) id) : Receives d id := by
  by_cases hid : id = c
  · subst hid
    exact ⟨m, group, child, .only hlowerable.only, hlowerable.outer, hlowerable.inner,
      hlowerable.named, hm.single, hfilled, hlowerable.lowerable⟩
  have hnamed := (hlowerable.isCoherent_lowered hd).2
  have helement := hlowerable.element?_lowered hd.isForest
  obtain ⟨g, giver, e, hleaves⟩ := h
  obtain ⟨hgid, hgm⟩ := hleaves.surrounds.of_lowered hd.isForest hlowerable hfilled hnamed hid
  have hinner : d.element? id = some e := by
    rw [← hleaves.inner, helement, if_neg hne, if_neg hid]
  have hsingle : isAlternative d g = false :=
    (hlowerable.isAlternative_lowered hd g).symm.trans hleaves.single
  have houter := hleaves.outer
  rw [helement, if_neg hgm] at houter
  split at houter
  · next hgc =>
    subst hgc
    obtain rfl := Option.some.inj houter
    have hlow : ∀ a, a ∈ child.attributes ∨ a ∈ group.attributes → isLowerable e a = true := by
      intro a ha
      obtain ⟨b, hb, hname⟩ := List.mem_map.1 (mem_names_foldl_putJoined.2
        (ha.imp List.mem_map_of_mem List.mem_map_of_mem))
      exact isLowerable_of_name hname (hleaves.lowerable b hb)
    have hg : d.isNamed g "g" = true := by
      rw [← hnamed]
      exact Document.isNamed_iff.2 ⟨_, hleaves.outer, hleaves.named⟩
    by_cases hbare : child.attributes = []
    · refine ⟨m, group, e, .through hlowerable.only hg ?_ hgid, hlowerable.outer, hinner,
        hlowerable.named, hm.single, hfilled, fun a ha => hlow a (.inr ha)⟩
      rw [hlowerable.inner, Option.any_some, hbare]
      rfl
    · obtain ⟨child', hchild', hnamed'⟩ := Document.isNamed_iff.1 hg
      obtain rfl := Option.some.inj (hlowerable.inner.symm.trans hchild')
      exact ⟨g, child, e, hgid, hlowerable.inner, hinner, hnamed', hsingle, hbare,
        fun a ha => hlow a (.inl ha)⟩
  · exact ⟨g, giver, e, hgid, houter, hinner, hleaves.named, hsingle, hleaves.filled,
      hleaves.lowerable⟩

/-! ## What gets nothing is kept -/

theorem IsLowerableTo.lasting_eq_nil (h : IsLowerableTo d id c group child) :
    group.lasting = [] :=
  List.filter_eq_nil_iff.2 fun a ha => by simp [h.inherited ha]

/-- An element that has other attributes than inherited ones stands where it is. -/
theorem collapseVisit_of_lasting (hd : d.IsCoherent) (he : d.element? id = some e)
    (hlasting : e.lasting ≠ []) : (collapseVisit d id).1 = d := by
  rcases collapseVisit_cases hd id with hsame | ⟨-, ⟨hbare, -⟩ | ⟨c, group, child, h, -, -⟩⟩
  · exact hsame
  · rw [he, Option.any_some] at hbare
    exact absurd (Element.lasting_of_bare hbare) hlasting
  · obtain rfl := Option.some.inj (he.symm.trans h.outer)
    exact absurd h.lasting_eq_nil hlasting

/-- Whether an element is still as it was and gets nothing. -/
structure IsAside (id : NodeId) (e : Element) (d : Document) : Prop where
  isCoherent : d.IsCoherent
  element : d.element? id = some e
  not_receives : ¬ Receives d id

theorem keeps_isAside (hlasting : e.lasting ≠ []) : collapseVisit.Keeps (IsAside id e) := by
  refine .of_keep (fun d m _ hd _ => ?_) collapseVisit_keep
  rcases collapseVisit_cases hd.isCoherent m with hsame | ⟨hm, ⟨hbare, hvisit⟩ |
    ⟨c, group, child, h, hfilled, hvisit⟩⟩
  · rw [hsame]
    exact hd
  · rw [hvisit]
    refine ⟨(isRegrouped_unwrap hd.isCoherent hm.named hbare).1, ?_, fun hreceives =>
      hd.not_receives (hreceives.of_unwrap hd.isCoherent hm hbare)⟩
    rw [Document.element?_unwrap, hd.element]
  · have hforest := hd.isCoherent.isForest
    have hne : id ≠ m := by
      rintro rfl
      obtain rfl := Option.some.inj (hd.element.symm.trans h.outer)
      exact hlasting h.lasting_eq_nil
    have hnec : id ≠ c := by
      rintro rfl
      exact hd.not_receives ⟨m, group, child, .only h.only, h.outer, h.inner, h.named, hm.single,
        hfilled, h.lowerable⟩
    obtain ⟨hcoherent, hnamed⟩ := h.isCoherent_lowered hd.isCoherent
    have hbare := h.isBare_lowered hforest
    have hm' := (h.isCollapsible_lowered hd.isCoherent m).2 hm
    rw [hvisit]
    refine ⟨(isRegrouped_unwrap hcoherent hm'.named hbare).1, ?_, fun hreceives =>
      hd.not_receives ((hreceives.of_unwrap hcoherent hm' hbare).of_lowered hd.isCoherent hm h
        hfilled hne)⟩
    rw [Document.element?_unwrap, h.element?_lowered hforest, if_neg hne, if_neg hnec, hd.element]

/-- An element that gets nothing from the groups around it is the same after the pass. -/
theorem element?_collapseGroups (hd : d.IsCoherent) (he : d.element? id = some e)
    (hlasting : e.lasting ≠ []) (hnot : ¬ Receives d id) :
    (collapseGroups.run d).element? id = some e := by
  rw [collapseGroups_eq]
  exact ((keeps_isAside hlasting).bottomUp ⟨hd, he, hnot⟩).element

end Pass
end SvgCompact
