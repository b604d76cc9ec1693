import SvgCompact.Proofs.Pass.Receiving
import SvgCompact.Proofs.Pass.Rising

/-!
Groups that collapse give what they have.

What stands between a group and the element that is alone in it is replaced by its only
child before the walk comes to the group, and other branches do not matter.  So the group
finds the element as its only child, and the element grows.  Nothing takes away again what
it got, whence it is changed if and only if it receives (`attributes_collapseGroups_iff`).
-/

namespace SvgCompact
namespace Pass

open Document (root IsCoherent)

variable {d s t : Document} {id c g j : NodeId} {p : String} {group child e : Element}

/-! ## What is received stays -/

/-- An element with attributes of a group around it. -/
def given (moved : List Attribute) (e : Element) : Element :=
  moved.foldl (putJoined fun outer own => outer ++ " " ++ own) e

/-- The length of an attribute, which is more than none if there is one. -/
def extent (e : Element) (p : String) : Nat :=
  (e.attr? p).elim 0 (·.length + 1)

/-- Whether an inherited attribute of an element is new or longer than it was. -/
structure HasGrown (id : NodeId) (e : Element) (d : Document) : Prop where
  isCoherent : d.IsCoherent
  grown : ∃ e', d.element? id = some e' ∧ e'.lasting = e.lasting ∧
    ∃ p, Inheritance.isInherited p = true ∧ extent e p < extent e' p

/-- What is put on the only child is new there or makes a transform longer. -/
theorem IsLowerableTo.extent_lt (h : IsLowerableTo d id c group child) (hd : d.IsCoherent)
    (hp : Inheritance.isInherited p = true) {a : Attribute} (ha : a ∈ group.attributes)
    (hname : a.name = QName.plain p) :
    extent child p < extent (given group.attributes child) p := by
  have hplain := (Inheritance.plain_of_isInherited hp).1
  have hnodup := (hd.names id group h.outer).nodup
  rw [extent, extent, given, attr?_foldl_putJoined hplain hnodup ha hname, joinedValue]
  by_cases hpt : p = "transform"
  · subst hpt
    rw [if_pos hname]
    cases child.attr? "transform" with
    | none => exact Nat.succ_pos _
    | some held =>
      show held.length + 1 < (a.value ++ " " ++ held).length + 1
      have hblank : (" " : String).length = 1 := rfl
      rw [String.length_append, String.length_append]
      omega
  · have hnot : a.name ≠ QName.plain "transform" := by
      rw [hname]
      exact fun heq => hpt (congrArg QName.stem heq)
    rw [if_neg hnot, h.attr?_child ha hname hpt]
    exact Nat.succ_pos _

theorem IsLowerableTo.extent_le (h : IsLowerableTo d id c group child) (hd : d.IsCoherent)
    (hp : Inheritance.isInherited p = true) :
    extent child p ≤ extent (given group.attributes child) p := by
  by_cases hm : ∃ a ∈ group.attributes, a.name = QName.plain p
  · obtain ⟨a, ha, hname⟩ := hm
    exact Nat.le_of_lt (h.extent_lt hd hp ha hname)
  · rw [extent, extent, given, attr?_foldl_putJoined_of_not (Inheritance.plain_of_isInherited hp).1
      fun a ha hname => hm ⟨a, ha, hname⟩]

/-- The only child of a group that gives all it has grows. -/
theorem IsLowerableTo.hasGrown (h : IsLowerableTo d id c group child) (hd : d.IsCoherent)
    (hid : IsCollapsible d id) (hfilled : group.attributes ≠ []) :
    HasGrown c child (collapseVisit d id).1 := by
  have hforest := hd.isForest
  have hcm : c ≠ id := fun heq =>
    hforest.parent_ne_self id ((h.parent_iff hforest id).2 heq.symm)
  rw [collapseVisit_of_lowerable hd hid h]
  refine ⟨(isRegrouped_unwrap (h.isCoherent_lowered hd).1
    ((h.isCollapsible_lowered hd _).2 hid).named (h.isBare_lowered hforest)).1,
    given group.attributes child, ?_,
    Element.lasting_foldl_putJoined fun a ha => h.inherited ha, ?_⟩
  · rw [Document.element?_unwrap, h.element?_lowered hforest, if_neg hcm, if_pos rfl, given]
  · obtain ⟨a, ha⟩ := List.exists_mem_of_ne_nil _ hfilled
    have hinherited := h.inherited ha
    exact ⟨a.name.stem, hinherited.2, h.extent_lt hd hinherited.2 ha hinherited.eq_plain⟩

theorem keeps_hasGrown (hlasting : e.lasting ≠ []) : collapseVisit.Keeps (HasGrown id e) := by
  refine .of_keep (fun d m _ hd _ => ?_) collapseVisit_keep
  obtain ⟨e', he', hsame, p, hp, hlt⟩ := hd.grown
  rcases collapseVisit_cases hd.isCoherent m with hvisit | ⟨hm, ⟨hbare, hvisit⟩ |
    ⟨c, group, child, h, hfilled, hvisit⟩⟩
  · rw [hvisit]
    exact hd
  · rw [hvisit]
    exact ⟨(isRegrouped_unwrap hd.isCoherent hm.named hbare).1, e',
      (Document.element?_unwrap d m id).trans he', hsame, p, hp, hlt⟩
  · have hforest := hd.isCoherent.isForest
    have hne : id ≠ m := by
      rintro rfl
      obtain rfl := Option.some.inj (he'.symm.trans h.outer)
      exact hlasting (hsame.symm.trans h.lasting_eq_nil)
    rw [hvisit]
    refine ⟨(isRegrouped_unwrap (h.isCoherent_lowered hd.isCoherent).1
      ((h.isCollapsible_lowered hd.isCoherent _).2 hm).named (h.isBare_lowered hforest)).1, ?_⟩
    rw [Document.element?_unwrap, h.element?_lowered hforest, if_neg hne]
    split
    · next hid =>
      subst hid
      obtain rfl := Option.some.inj (he'.symm.trans h.inner)
      have hlasting' : (given group.attributes e').lasting = e'.lasting :=
        Element.lasting_foldl_putJoined fun a ha => h.inherited ha
      exact ⟨given group.attributes e', rfl, hlasting'.trans hsame, p, hp,
        Nat.lt_of_lt_of_le hlt (h.extent_le hd.isCoherent hp)⟩
    · exact ⟨e', he', hsame, p, hp, hlt⟩

/-! ## The walk below a group that gives -/

theorem foldl_isBeside {σ : Type} {R : NodeId → Prop} {x : NodeId} (n : Nat) (y : NodeId)
    {l : List NodeId} (hl : ∀ c ∈ l, R c) (s : σ × Document) (hs : IsBeside R x t s.2) :
    IsBeside R x t (l.foldl (Walk.childrenFirst collapseVisit.visitor n y) s).2 :=
  List.foldlRecOn (motive := fun s : σ × Document => IsBeside R x t s.2) _ _ hs
    fun s hs c hc => (keepsWithin_collapseVisit R x t).childrenFirst n y s hs (hl c hc)

theorem not_mem_subtree_of_isAbove (hd : d.IsForest) (h : d.IsAbove g c) : g ∉ d.subtree c := by
  intro hmem
  rcases hd.mem_subtree_iff.1 hmem with rfl | habove
  · exact hd.not_above_self g h
  · exact hd.not_above_self g (h.trans habove)

/-- What stands between a group and a node gives way before the group is visited. -/
theorem childrenFirst_surrounds {σ : Type} {n k : Nat} (s : σ × Document) (hs : s.2.IsCoherent)
    (he : s.2.element? id = some e) (hlasting : e.lasting ≠ []) (h : Surrounds s.2 g id)
    (hg : s.2.isNamed g "g" = true) (hc : s.2.children g = [c]) (hk : s.2.climb k c = some root)
    (hn : s.2.size ≤ n + k) :
    (Walk.childrenFirst collapseVisit.visitor n g s c).2.children g = [id] ∧
      (Walk.childrenFirst collapseVisit.visitor n g s c).2.element? id = some e := by
  have hforest := hs.isForest
  induction h generalizing n k c with
  | @only g id h =>
    obtain rfl := List.singleton_inj.1 (hc.symm.trans h)
    have hp := (hforest.mem_children_iff g c).1 (h ▸ List.mem_singleton_self c)
    have hgc := Document.isAbove_of_parent hp
    obtain ⟨n, rfl⟩ := hforest.exists_succ_of_climb hp hk hn
    have hbelow := foldl_isBeside (σ := σ) n c (l := s.2.children c)
      (fun c' hc' => Document.isAbove_of_parent ((hforest.mem_children_iff c c').1 hc')) s
      (.refl hs (isRegion_below s.2 c))
    generalize ht : (s.2.children c).foldl (Walk.childrenFirst collapseVisit.visitor n c) s = t
      at hbelow
    have hself := hforest.not_above_self c
    have he' := (hbelow.element?_eq c hself).trans he
    have hne : g ≠ c := by
      rintro rfl
      exact hself hgc
    rw [Visit.childrenFirst_of_keep collapseVisit_keep ht ((hbelow.parent_eq c hself).trans hp),
      collapseVisit_of_lasting hbelow.isCoherent he' hlasting]
    exact ⟨(hbelow.children_eq g (fun hcg => hself (hcg.trans hgc)) hne).trans h, he'⟩
  | @through g m id h hm hbare hid ih =>
    obtain rfl := List.singleton_inj.1 (hc.symm.trans h)
    have hp := (hforest.mem_children_iff g c).1 (h ▸ List.mem_singleton_self c)
    obtain ⟨n, rfl⟩ := hforest.exists_succ_of_climb hp hk hn
    obtain ⟨x, hx⟩ := hid.children_eq
    have hxp := (hforest.mem_children_iff c x).1 (hx ▸ List.mem_singleton_self x)
    obtain ⟨hchildren, he'⟩ :=
      ih (n := n) he hm hx ((Document.climb_of_parent hxp k).trans hk) (by omega)
    have hbelow := (keepsWithin_collapseVisit _ c s.2).childrenFirst n c s
      (.refl hs (isRegion_subtree hforest hxp)) (hforest.mem_subtree_iff.2 (.inl rfl))
    generalize ht : Walk.childrenFirst collapseVisit.visitor n c s x = t at hchildren he' hbelow
    have hcx : c ∉ s.2.subtree x :=
      not_mem_subtree_of_isAbove hforest (Document.isAbove_of_parent hxp)
    have hgx : g ∉ s.2.subtree x := not_mem_subtree_of_isAbove hforest
      ((Document.isAbove_of_parent hp).trans (Document.isAbove_of_parent hxp))
    have hgc : g ≠ c := by
      rintro rfl
      exact hforest.parent_ne_self g hp
    have hpt := (hbelow.parent_eq c hcx).trans hp
    have hcollapsible : IsCollapsible t.2 c := by
      have hnamed : ∀ y, y ∉ s.2.subtree x → ∀ name, t.2.isNamed y name = s.2.isNamed y name :=
        fun y hy name => by rw [Document.isNamed, hbelow.element?_eq y hy, Document.isNamed]
      refine ⟨(hnamed c hcx "g").trans hm, by rw [hchildren]; exact List.cons_ne_nil _ _, ?_⟩
      rw [isAlternative, hpt, Option.any_some, hnamed g hgx,
        Document.not_isNamed_of_group hg (by decide)]
    have hfold : (s.2.children c).foldl (Walk.childrenFirst collapseVisit.visitor n c) s = t := by
      rw [hx]
      exact ht
    rw [Visit.childrenFirst_of_keep collapseVisit_keep hfold hpt,
      collapseVisit_of_bare hbelow.isCoherent hcollapsible
        (by rw [hbelow.element?_eq c hcx, hbare])]
    refine ⟨?_, (Document.element?_unwrap t.2 c id).trans he'⟩
    obtain ⟨front, back, hlist, hunwrap⟩ := hbelow.isCoherent.isForest.children_unwrap hpt
    rw [hbelow.children_eq g hgx hgc, h] at hlist
    obtain ⟨rfl, rfl⟩ : front = [] ∧ back = [] := by
      cases front <;> simp_all
    rw [hunwrap, if_pos rfl, hchildren]
    rfl

/-! ## The walk above a group that gives -/

theorem mem_subtree_trans (hd : d.IsForest) {a : NodeId} (hid : id ∈ d.subtree a)
    (ha : a ∈ d.subtree c) : id ∈ d.subtree c := by
  rw [hd.mem_subtree_iff] at *
  rcases hid with rfl | hid
  · exact ha
  · rcases ha with rfl | ha
    · exact .inr hid
    · exact .inr (ha.trans hid)

section Besides

variable {R : NodeId → Prop} {x : NodeId}

/-- The way up from a node is the same if it does not lead through the region. -/
theorem IsBeside.climb_eq (h : IsBeside R x s t) (hs : s.IsForest)
    (hR : ∀ a, id ∈ s.subtree a → ¬ R a) {a : NodeId} (ha : id ∈ s.subtree a) (k : Nat) :
    t.climb k a = s.climb k a := by
  induction k generalizing a with
  | zero => rfl
  | succ k ih =>
    rw [Document.climb, Document.climb, h.parent_eq a (hR a ha)]
    cases hp : s.parent a with
    | none => rfl
    | some p =>
      exact ih (mem_subtree_trans hs ha
        (hs.mem_subtree_iff.2 (.inr (Document.isAbove_of_parent hp))))

theorem IsBeside.isNamed_eq (h : IsBeside R x s t) (hg : ¬ R g) (name : String) :
    t.isNamed g name = s.isNamed g name := by
  rw [Document.isNamed, h.element?_eq g hg, Document.isNamed]

theorem IsBeside.isAlternative_eq (h : IsBeside R x s t) (hg : ¬ R g)
    (hp : ∀ p, s.parent g = some p → ¬ R p) : isAlternative t g = isAlternative s g := by
  rw [isAlternative, isAlternative, h.parent_eq g hg]
  cases hq : s.parent g with
  | none => rfl
  | some q => rw [Option.any_some, Option.any_some, h.isNamed_eq (hp q hq)]

theorem IsBeside.surrounds (h : IsBeside R x s t) (hs : s.IsForest)
    (hR : ∀ a, id ∈ s.subtree a → ¬ R a) (hx : ∀ a ∈ s.subtree g, a ≠ x)
    (hg : Surrounds s g id) : Surrounds t g id := by
  have hchildren : ∀ {y z}, s.children y = [z] → id ∈ s.subtree z → y ≠ x → t.children y = [z] := by
    intro y z hyz hz hy
    rw [h.children_eq y (hR y (hs.mem_subtree_iff_child.2
      (.inr ⟨z, hyz ▸ List.mem_singleton_self z, hz⟩))) hy, hyz]
  have hself : ∀ y, y ∈ s.subtree y := fun y => hs.mem_subtree_iff.2 (.inl rfl)
  induction hg with
  | @only g id hg => exact .only (hchildren hg (hself id) (hx g (hself g)))
  | @through g m id hg hm hbare hid ih =>
    have hmid : id ∈ s.subtree m := hs.mem_subtree_iff.2 (.inr (hid.isAbove hs))
    have hgm : m ∈ s.subtree g :=
      hs.mem_subtree_iff_child.2 (.inr ⟨m, hg ▸ List.mem_singleton_self m, hself m⟩)
    exact .through (hchildren hg hmid (hx g (hself g))) ((h.isNamed_eq (hR m hmid) "g").trans hm)
      (by rw [h.element?_eq m (hR m hmid), hbare])
      (ih hR (fun a ha => hx a (mem_subtree_trans hs ha hgm)) hchildren)

theorem IsBeside.leaves (h : IsBeside R x s t) (hs : s.IsForest)
    (hR : ∀ a, id ∈ s.subtree a → ¬ R a) (hx : ∀ a ∈ s.subtree g, a ≠ x)
    (hleaves : Leaves s g id group e) : Leaves t g id group e := by
  have hg : id ∈ s.subtree g := hs.mem_subtree_iff.2 (.inr (hleaves.surrounds.isAbove hs))
  refine ⟨h.surrounds hs hR hx hleaves.surrounds, (h.element?_eq g (hR g hg)).trans hleaves.outer,
    (h.element?_eq id (hR id (hs.mem_subtree_iff.2 (.inl rfl)))).trans hleaves.inner,
    hleaves.named, ?_, hleaves.filled, hleaves.lowerable⟩
  refine (h.isAlternative_eq (hR g hg) fun p hp => hR p ?_).trans hleaves.single
  exact mem_subtree_trans hs hg (hs.mem_subtree_iff.2 (.inr (Document.isAbove_of_parent hp)))

end Besides

/-- Whether a group that gives stands so many levels below a child of a node. -/
structure IsWaiting (m k : Nat) (y x g id : NodeId) (group e : Element) (s : Document) : Prop where
  isCoherent : s.IsCoherent
  leaves : Leaves s g id group e
  up : s.climb m g = some y
  parent : s.parent y = some x
  depth : s.climb k y = some root

/-- The branches beside the way to the group do not matter, and what comes after does not
take back what was given. -/
theorem hasGrown_foldl {σ : Type} {m k n : Nat} {y x : NodeId} (s : σ × Document)
    (hlasting : e.lasting ≠ []) (hs : IsWaiting m k y x g id group e s.2)
    (hstep : ∀ t : σ × Document, t.2.size = s.2.size → IsWaiting m k y x g id group e t.2 →
      HasGrown id e (Walk.childrenFirst collapseVisit.visitor n x t y).2) :
    HasGrown id e ((s.2.children x).foldl (Walk.childrenFirst collapseVisit.visitor n x) s).2 := by
  have hforest := hs.isCoherent.isForest
  have hgy : g ∈ s.2.subtree y := hforest.mem_subtree_iff_climb.2 ⟨m, hs.up⟩
  have hidg : id ∈ s.2.subtree g :=
    hforest.mem_subtree_iff.2 (.inr (hs.leaves.surrounds.isAbove hforest))
  have hidy := mem_subtree_trans hforest hidg hgy
  have hyx := (hforest.mem_children_iff x y).2 hs.parent
  obtain ⟨front, back, hsplit⟩ := List.append_of_mem hyx
  let R : NodeId → Prop := fun z => ∃ c ∈ s.2.children x, c ≠ y ∧ z ∈ s.2.subtree c
  have hregion : IsRegion R x s.2 := by
    refine ⟨fun z c' hz hc' => ?_, fun z p hz hp => ?_⟩
    · obtain ⟨c, hc, hne, hz⟩ := hz
      exact ⟨c, hc, hne, hforest.mem_subtree_iff_parent.2 (.inr ⟨z, hc', hz⟩)⟩
    · obtain ⟨c, hc, hne, hz⟩ := hz
      have hbranch := isRegion_subtree hforest ((hforest.mem_children_iff x c).1 hc)
      exact (hbranch.hung z p hz hp).imp_left fun hpc => ⟨c, hc, hne, hpc⟩
  have hR : ∀ a, id ∈ s.2.subtree a → ¬ R a := by
    rintro a ha ⟨c, hc, hne, hac⟩
    exact hne (hforest.eq_of_mem_subtree ((hforest.mem_children_iff x c).1 hc) hs.parent
      (mem_subtree_trans hforest ha hac) hidy)
  have hfront : ∀ c ∈ front, R c := by
    intro c hc
    refine ⟨c, hsplit ▸ List.mem_append_left _ hc, ?_, hforest.mem_subtree_iff.2 (.inl rfl)⟩
    rintro rfl
    have hnodup := hforest.nodup_children x
    rw [hsplit, List.nodup_append] at hnodup
    exact hnodup.2.2 c hc c List.mem_cons_self rfl
  have hbefore := foldl_isBeside n x hfront s (.refl hs.isCoherent hregion)
  rw [hsplit, List.foldl_append, List.foldl_cons]
  generalize front.foldl (Walk.childrenFirst collapseVisit.visitor n x) s = t at hbefore
  have hx : ∀ a ∈ s.2.subtree g, a ≠ x := by
    rintro a ha rfl
    exact not_mem_subtree_of_isAbove hforest (Document.isAbove_of_parent hs.parent)
      (mem_subtree_trans hforest ha hgy)
  have hreached := hstep t hbefore.size_eq ⟨hbefore.isCoherent,
    hbefore.leaves hforest hR hx hs.leaves, (hbefore.climb_eq hforest hR hidg m).trans hs.up,
    (hbefore.parent_eq y (hR y hidy)).trans hs.parent,
    (hbefore.climb_eq hforest hR hidy k).trans hs.depth⟩
  exact List.foldlRecOn (motive := fun s : σ × Document => HasGrown id e s.2) back _ hreached
    fun s hs c _ => (keeps_hasGrown hlasting).childrenFirst n x s hs c

/-- Visiting the group itself, when the nodes below it have been visited. -/
theorem Leaves.hasGrown {σ : Type} {k n : Nat} {x : NodeId} (s : σ × Document)
    (hlasting : e.lasting ≠ []) (hs : IsWaiting 0 k g x g id group e s.2)
    (hn : s.2.size ≤ n + 1 + k) :
    HasGrown id e (Walk.childrenFirst collapseVisit.visitor (n + 1) x s g).2 := by
  have hforest := hs.isCoherent.isForest
  obtain ⟨c, hc⟩ := hs.leaves.surrounds.children_eq
  have hcg := (hforest.mem_children_iff g c).1 (hc ▸ List.mem_singleton_self c)
  have hg := Document.isNamed_iff.2 ⟨group, hs.leaves.outer, hs.leaves.named⟩
  obtain ⟨hchildren, he⟩ := childrenFirst_surrounds (n := n) s hs.isCoherent hs.leaves.inner
    hlasting hs.leaves.surrounds hg hc ((Document.climb_of_parent hcg k).trans hs.depth) (by omega)
  have hbelow := (keepsWithin_collapseVisit _ g s.2).childrenFirst n g s
    (.refl hs.isCoherent (isRegion_subtree hforest hcg)) (hforest.mem_subtree_iff.2 (.inl rfl))
  generalize ht : Walk.childrenFirst collapseVisit.visitor n g s c = t at hchildren he hbelow
  have hgc : g ∉ s.2.subtree c :=
    not_mem_subtree_of_isAbove hforest (Document.isAbove_of_parent hcg)
  have hxc : ∀ p, s.2.parent g = some p → p ∉ s.2.subtree c := fun p hp =>
    not_mem_subtree_of_isAbove hforest
      ((Document.isAbove_of_parent hp).trans (Document.isAbove_of_parent hcg))
  have hcollapsible : IsCollapsible t.2 g :=
    ⟨(hbelow.isNamed_eq hgc "g").trans hg, by rw [hchildren]; exact List.cons_ne_nil _ _,
      (hbelow.isAlternative_eq hgc hxc).trans hs.leaves.single⟩
  have hlowerable : IsLowerableTo t.2 g id group e :=
    ⟨hchildren, (hbelow.element?_eq g hgc).trans hs.leaves.outer, he, hs.leaves.named,
      hs.leaves.lowerable⟩
  have hfold : (s.2.children g).foldl (Walk.childrenFirst collapseVisit.visitor n g) s = t := by
    rw [hc]
    exact ht
  rw [Visit.childrenFirst_of_keep collapseVisit_keep hfold
    ((hbelow.parent_eq g hgc).trans hs.parent)]
  exact hlowerable.hasGrown hbelow.isCoherent hcollapsible hs.leaves.filled

/-- The induction is on the levels between a node and the group. -/
theorem hasGrown_childrenFirst {σ : Type} {m k n : Nat} {y x : NodeId} (s : σ × Document)
    (hlasting : e.lasting ≠ []) (hs : IsWaiting m k y x g id group e s.2)
    (hn : s.2.size ≤ n + k) :
    HasGrown id e (Walk.childrenFirst collapseVisit.visitor n x s y).2 := by
  induction m generalizing n k y x s with
  | zero =>
    obtain rfl := Option.some.inj hs.up
    obtain ⟨n, rfl⟩ := hs.isCoherent.isForest.exists_succ_of_climb hs.parent hs.depth hn
    exact Leaves.hasGrown s hlasting hs hn
  | succ m ih =>
    obtain ⟨n, rfl⟩ := hs.isCoherent.isForest.exists_succ_of_climb hs.parent hs.depth hn
    have hup := hs.up
    rw [Document.climb_succ] at hup
    obtain ⟨z, hz, hzy⟩ := Option.bind_eq_some_iff.1 hup
    have hbelow := hasGrown_foldl (n := n) s hlasting ⟨hs.isCoherent, hs.leaves, hz, hzy,
      (Document.climb_of_parent hzy k).trans hs.depth⟩ fun t hsize ht => ih t ht (by omega)
    generalize ht : (s.2.children y).foldl (Walk.childrenFirst collapseVisit.visitor n y) s = t
      at hbelow
    by_cases hparent : t.2.parent y = some x
    · rw [Walk.childrenFirst_keep ht hparent (collapseVisit_keep t.2 y)]
      exact (keeps_hasGrown hlasting).kept t.2 y x hbelow hparent
    · rwa [Walk.childrenFirst_away ht hparent]

/-! ## The pass -/

theorem isAbove_root (hd : d.IsRooted) (hid : id ∈ d.subtree root) (hg : d.IsAbove g id)
    (hgroup : d.element? g = some group) : d.IsAbove root g := by
  have hne : root ≠ g := by
    rintro rfl
    rw [Document.element?, hd.content_root] at hgroup
    cases hgroup
  have htop : ∀ a, ¬ d.IsAbove a root := fun a =>
    Document.not_isAbove_of_parent_none hd.parent_root
  rcases hd.isForest.mem_subtree_iff.1 hid with rfl | hroot
  · exact absurd hg (htop g)
  · rcases Document.isAbove_trichotomy hroot hg with heq | habove | habove
    · exact absurd heq hne
    · exact habove
    · exact absurd habove (htop g)

/-- Collapsing groups keeps the attributes of an element, of which some are not inherited, if
and only if it gets none from a group around it. -/
theorem attributes_collapseGroups_iff (hd : d.IsCoherent) (hid : id ∈ d.subtree root)
    (he : d.element? id = some e) (hlasting : e.lasting ≠ []) :
    ((collapseGroups.run d).element? id).map (·.attributes) = some e.attributes ↔
      ¬ Receives d id := by
  have hforest := hd.isForest
  refine ⟨fun hkept hreceives => ?_, fun hnot => ?_⟩
  · obtain ⟨g, group, e', hleaves⟩ := hreceives
    obtain rfl := Option.some.inj (he.symm.trans hleaves.inner)
    obtain ⟨n, hn⟩ := Document.isAbove_iff_climb.1 (isAbove_root hd.toIsRooted hid
      (hleaves.surrounds.isAbove hforest) hleaves.outer)
    rw [Document.climb_succ] at hn
    obtain ⟨y, hy, hroot⟩ := Option.bind_eq_some_iff.1 hn
    have hgrown : HasGrown id e (collapseGroups.run d) :=
      hasGrown_foldl ((), d) hlasting
        ⟨hd, hleaves, hy, hroot, (Document.climb_one y).trans hroot⟩
        fun t hsize ht => hasGrown_childrenFirst t hlasting ht (by rw [hsize, Walk.bound]; omega)
    obtain ⟨e', he', -, p, -, hlt⟩ := hgrown.grown
    rw [he', Option.map_some, Option.some.injEq] at hkept
    have hsame : extent e' p = extent e p := by
      simp only [extent, Element.attr?, Element.attribute?, hkept]
    omega
  · rw [element?_collapseGroups hd he hlasting hnot, Option.map_some]

end Pass

/-! ## Elements that stand elsewhere too

A reference draws the element with its id somewhere else, where the groups around it do not
count.  The passes over groups ask for no references: an element with an id loses what the
group around it takes, and gets what that group gives. -/

namespace Pass

open Document (root IsCoherent)

variable {d : Document} {id p : NodeId} {e : Element}

theorem lasting_of_id (h : e.hasAttr "id" = true) : e.lasting ≠ [] := by
  intro hnil
  rw [Element.hasAttr, e.attribute?_eq_lasting (by decide), hnil] at h
  cases h

/-- Both passes keep the attributes of an element with an id, and so of all that references
point at, exactly if the group around it has no say: if moving attributes to groups, where
the element takes nothing itself, takes nothing to that group, and if collapsing groups
finds none that gives the element what it has. -/
theorem attributes_kept_iff (hd : d.IsCoherent) (hid : id ∈ d.subtree root)
    (hp : d.parent id = some p) (he : d.element? id = some e) (hattr : e.hasAttr "id" = true) :
    (taken d id = [] →
        (((moveSharedToGroup.run d).element? id).map (·.attributes) = some e.attributes ↔
          taken d p = [])) ∧
      (((collapseGroups.run d).element? id).map (·.attributes) = some e.attributes ↔
        ¬ Receives d id) :=
  ⟨attributes_moveSharedToGroup_iff hd hp hid he,
    attributes_collapseGroups_iff hd hid he (lasting_of_id hattr)⟩

/-! Two shapes that are drawn elsewhere too.  One shares its color with the other shape of its
group, and one is alone in a group with a color. -/

namespace Shown

def element (name : String) (attributes : List Attribute) : Element :=
  .ofAttributes (.plain name) attributes

def red : Attribute := ⟨.plain "fill", "red"⟩

def first : Element := element "rect" [⟨.plain "id", "a"⟩, red]

def second : Element := element "rect" [⟨.plain "id", "b"⟩]

def document : Document :=
  ((((((((Document.empty.append root (.element (element "svg" []))).1.append 1
    (.element (element "g" []))).1.append 2 (.element first)).1.append 2
      (.element (element "circle" [red]))).1.append 1 (.element (element "g" [red]))).1.append 5
        (.element second)).1.append 1 (.element (element "use" [⟨.plain "href", "#a"⟩]))).1.append 1
          (.element (element "use" [⟨.plain "href", "#b"⟩]))).1

theorem isCoherent_document : document.IsCoherent := by
  have helement : ∀ e : Element, Content.element e ≠ .root := fun _ h => by cases h
  refine ⟨⟨?_, fun j e he => ⟨trivial, fun _ _ => trivial, ?_⟩⟩, fun j e he => ?_⟩
  · exact (((((((Document.IsRooted.empty.append (by decide) (helement _)).append (by decide)
      (helement _)).append (by decide) (helement _)).append (by decide) (helement _)).append
        (by decide) (helement _)).append (by decide) (helement _)).append (by decide)
          (helement _)).append (by decide) (helement _)
  · exact Document.forall_element?_of_all (Q := fun e => (e.attributes.map (·.name)).Nodup)
      (by decide) he
  · exact Document.forall_element?_of_all (Q := Element.IsFresh) (by decide) he

end Shown

/-- The first shape loses its color, and the second one gets one. -/
theorem attributes_shown :
    Shown.document.IsCoherent ∧
      (3 ∈ Shown.document.subtree root ∧ 6 ∈ Shown.document.subtree root) ∧
      (Shown.document.parent 3 = some 2 ∧ Shown.document.parent 6 = some 5) ∧
      (Shown.document.element? 3 = some Shown.first ∧
        Shown.document.element? 6 = some Shown.second) ∧
      (Shown.first.hasAttr "id" = true ∧ Shown.second.hasAttr "id" = true) ∧
      taken Shown.document 3 = [] ∧
      ((moveSharedToGroup.run Shown.document).element? 3).map (·.attributes) ≠
        some Shown.first.attributes ∧
      ((collapseGroups.run Shown.document).element? 6).map (·.attributes) ≠
        some Shown.second.attributes := by
  have hcoherent := Shown.isCoherent_document
  have hreached : 3 ∈ Shown.document.subtree root ∧ 6 ∈ Shown.document.subtree root := by decide
  have hparent : Shown.document.parent 3 = some 2 ∧ Shown.document.parent 6 = some 5 := by decide
  have helement : Shown.document.element? 3 = some Shown.first ∧
      Shown.document.element? 6 = some Shown.second := by decide
  have hattr : Shown.first.hasAttr "id" = true ∧ Shown.second.hasAttr "id" = true := by decide
  have hnone : taken Shown.document 3 = [] := by decide
  obtain ⟨hmoved, -⟩ :=
    attributes_kept_iff hcoherent hreached.1 hparent.1 helement.1 hattr.1
  obtain ⟨-, hcollapsed⟩ :=
    attributes_kept_iff hcoherent hreached.2 hparent.2 helement.2 hattr.2
  have htaken : taken Shown.document 2 ≠ [] := by decide
  have hreceives : Receives Shown.document 6 :=
    ⟨5, Shown.element "g" [Shown.red], Shown.second, .only (by decide), by decide, helement.2,
      by decide, by decide, by decide, by decide⟩
  exact ⟨hcoherent, hreached, hparent, helement, hattr, hnone,
    fun hkept => htaken ((hmoved hnone).1 hkept), fun hkept => hcollapsed.1 hkept hreceives⟩

end Pass

end SvgCompact
