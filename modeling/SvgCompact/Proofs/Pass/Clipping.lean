import SvgCompact.Proofs.Pass.Collapsing
import SvgCompact.Proofs.Pass.Effective
import SvgCompact.Proofs.Pass.Rising
import SvgCompact.Proofs.Pass.Tracing

/-!
Transforms that move, and clips and masks.

A clip or a mask of an element is drawn under the transform of the element.  So a transform
does not move onto an element with an attribute `clip-path` or `mask`, up from children or
down from a group.  In a style the same properties are not looked for: what moves there moves
them as well.
-/

namespace SvgCompact

open Document (IsCoherent)

namespace Document

variable {d d' d'' : Document} {id : NodeId} {p s : String}

/-- Whether an element comes to a transform that it did not have. -/
def GainsTransform (d d' : Document) (id : NodeId) : Prop :=
  ∃ t, d'.transform? id = some t ∧ d.transform? id ≠ some t

theorem GainsTransform.cases (h : GainsTransform d d'' id) (d' : Document) :
    GainsTransform d d' id ∨ GainsTransform d' d'' id := by
  obtain ⟨t, ht, hne⟩ := h
  by_cases hmid : d'.transform? id = some t
  · exact .inl ⟨t, hmid, hne⟩
  · exact .inr ⟨t, ht, hmid⟩

theorem not_gainsTransform (h : d'.transform? id = d.transform? id) : ¬ GainsTransform d d' id :=
  fun ⟨_, ht, hne⟩ => hne (h.symm.trans ht)

theorem attributed?_of_element? {e : Element} (he : d.element? id = some e)
    (h : e.hasAttr s = false) : d.attributed? s id = none := by
  rw [attributed?, he, Option.bind_some, Element.attr?,
    Option.not_isSome_iff_eq_none.1 (Bool.eq_false_iff.1 h), Option.map_none]

end Document

namespace Pass

variable {d d' d'' : Document} {id j : NodeId} {s : String}

/-! ## Clips and masks stay -/

def clippingNames : List String := ["clip-path", "mask"]

theorem isInherited_of_clipping (hs : s ∈ clippingNames) : Inheritance.isInherited s = false := by
  have hall : ∀ s ∈ clippingNames, Inheritance.isInherited s = false := by decide
  exact hall s hs

theorem KeepsLasting.attributed?_eq (h : KeepsLasting d d')
    (hs : Inheritance.isInherited s = false) : d'.attributed? s id = d.attributed? s id := by
  rw [Document.attributed?, Document.attributed?]
  rcases h.element?_eq id with ⟨hnone', hnone⟩ | ⟨e, e', he, he', hlasting⟩
  · rw [hnone', hnone]
  · rw [he', he, Option.bind_some, Option.bind_some, Element.attr?_of_lasting hlasting hs]

theorem KeepsLasting.declared?_eq (h : KeepsLasting d d') (hd : d.IsCoherent)
    (hd' : d'.IsCoherent) (p : String) : d'.declared? p id = d.declared? p id := by
  rw [Document.declared?, Document.declared?]
  rcases h.element?_eq id with ⟨hnone', hnone⟩ | ⟨e, e', he, he', hlasting⟩
  · rw [hnone', hnone]
  · rw [he', he, Option.bind_some, Option.bind_some,
      (hd'.fresh id e' he').style_eq_of_lasting (hd.fresh id e he) hlasting]

/-- What a step of the passes over groups keeps, as far as clips and masks are concerned. -/
structure KeepsClips (d d' : Document) : Prop where
  coherent : d'.IsCoherent
  lasting : KeepsLasting d d'
  gained : ∀ id, d.GainsTransform d' id → ∀ s ∈ clippingNames, d.attributed? s id = none

theorem KeepsClips.refl (hd : d.IsCoherent) : KeepsClips d d :=
  ⟨hd, fun _ => rfl, fun _ h => absurd h (Document.not_gainsTransform rfl)⟩

theorem KeepsClips.trans (h : KeepsClips d d') (h' : KeepsClips d' d'') : KeepsClips d d'' := by
  refine ⟨h'.coherent, h.lasting.trans h'.lasting, fun id hgains s hs => ?_⟩
  rcases hgains.cases d' with hgains | hgains
  · exact h.gained id hgains s hs
  · rw [← h.lasting.attributed?_eq (isInherited_of_clipping hs)]
    exact h'.gained id hgains s hs

/-! ## One visit -/

/-- An element gets another transform only with an attribute of that name. -/
theorem exists_transform_of_gained {join : String → String → String} {moved : List Attribute}
    {e : Element} {t : String} (ht : (moved.foldl (putJoined join) e).attr? "transform" = some t)
    (hne : e.attr? "transform" ≠ some t) : ∃ a ∈ moved, a.name = QName.plain "transform" := by
  by_contra hnone
  have hkept : ∀ a ∈ moved, a.name ≠ QName.plain "transform" :=
    fun a ha hname => hnone ⟨a, ha, hname⟩
  rw [attr?_foldl_putJoined_of_not QName.read_transform hkept] at ht
  exact hne ht

/-- A transform does not move up to a group with a clip or a mask. -/
theorem hasAttr_of_mem_hoistedFrom {a : Attribute} (ha : a ∈ hoistedFrom d id)
    (hname : a.name = QName.plain "transform") {group : Element} (hg : d.element? id = some group)
    (hs : s ∈ clippingNames) : group.hasAttr s = false := by
  rw [hoistedFrom, hg] at ha
  cases hchildren : plainElements? d id with
  | none => simp [hchildren] at ha
  | some children =>
    rw [hchildren] at ha
    dsimp only at ha
    split at ha
    · have hallowed := (Bool.and_eq_true_iff.1 (List.mem_filter.1 ha).2).1
      have hnamed : a.name.isNamed "transform" = true :=
        (Element.isNamed_iff_eq_plain QName.read_transform).2 hname
      rw [hnamed, Bool.and_true, Bool.not_eq_true', Bool.or_eq_false_iff, Bool.or_eq_false_iff]
        at hallowed
      simp only [clippingNames, List.mem_cons, List.not_mem_nil, or_false] at hs
      rcases hs with rfl | rfl
      · exact hallowed.1.2
      · exact hallowed.2
    · cases ha

theorem keepsClips_sharedVisit (hd : d.IsCoherent) (id : NodeId) :
    KeepsClips d (sharedVisit d id).1 := by
  by_cases hmoved : hoistedFrom d id = []
  · rw [sharedVisit, hmoved]
    exact .refl hd
  · obtain ⟨group, h⟩ := isHoistable_hoistedFrom hd.toIsSound id hmoved
    have hvisit : (sharedVisit d id).1 = hoist d id (hoistedFrom d id) := by
      unfold sharedVisit
      split
      · next hnil => exact absurd hnil hmoved
      · rfl
    rw [hvisit]
    refine ⟨h.isCoherent_hoist hd, h.keepsLasting_hoist hd.isForest, fun j hgains s hs => ?_⟩
    obtain ⟨t, ht, hne⟩ := hgains
    rw [Document.transform?, h.element?_hoist hd.isForest] at ht
    split at ht
    · next hj =>
      subst hj
      rw [Document.transform?, h.element] at hne
      obtain ⟨a, ha, hname⟩ := exists_transform_of_gained ht hne
      exact Document.attributed?_of_element? h.element
        (hasAttr_of_mem_hoistedFrom ha hname h.element hs)
    · split at ht
      · -- a child keeps its transform or loses it
        obtain ⟨e', he', ht'⟩ := Option.bind_eq_some_iff.1 ht
        obtain ⟨e, he, rfl⟩ := Option.map_eq_some_iff.1 he'
        rw [Element.attr?_filterAttrs QName.read_transform
          fun n => !((hoistedFrom d id).map (·.name)).contains n] at ht'
        split at ht'
        · rw [Document.transform?, he] at hne
          exact absurd ht' hne
        · cases ht'
      · exact absurd ht hne

/-- A transform does not move down to a child with a clip or a mask. -/
theorem IsLowerableTo.hasAttr_child {c : NodeId} {group child : Element}
    (h : IsLowerableTo d id c group child) {a : Attribute} (ha : a ∈ group.attributes)
    (hname : a.name = QName.plain "transform") (hs : s ∈ clippingNames) :
    child.hasAttr s = false := by
  have hlow := h.lowerable a ha
  simp only [isLowerable, hname, QName.plain, beq_self_eq_true, if_true, Bool.and_eq_true,
    Bool.not_eq_true', isTransformSensitive, Bool.or_eq_false_iff] at hlow
  simp only [clippingNames, List.mem_cons, List.not_mem_nil, or_false] at hs
  rcases hs with rfl | rfl
  · exact hlow.2.1.1
  · exact hlow.2.1.2

theorem IsLowerableTo.keepsClips_lowered {c : NodeId} {group child : Element}
    (h : IsLowerableTo d id c group child) (hd : d.IsCoherent) :
    KeepsClips d (lowered d id c group.attributes) := by
  have hg : d.isNamed id "g" = true := Document.isNamed_iff.2 ⟨group, h.outer, h.named⟩
  refine ⟨(h.isCoherent_lowered hd).1, h.lower_eq ▸ keepsLasting_lower hd.isForest hg,
    fun j hgains s hs => ?_⟩
  obtain ⟨t, ht, hne⟩ := hgains
  rw [Document.transform?, h.element?_lowered hd.isForest] at ht
  split at ht
  · rw [Option.bind_some, Element.attr?_of_attributes_nil (by simp)] at ht
    cases ht
  · split at ht
    · next hj =>
      subst hj
      rw [Document.transform?, h.inner] at hne
      obtain ⟨a, ha, hname⟩ := exists_transform_of_gained ht hne
      exact Document.attributed?_of_element? h.inner (h.hasAttr_child ha hname hs)
    · exact absurd ht hne

theorem keepsClips_unwrap (hd : d.IsCoherent) (hg : d.isNamed id "g" = true)
    (hbare : (d.element? id).any (·.attributes.isEmpty) = true) : KeepsClips d (d.unwrap id) := by
  refine ⟨(isRegrouped_unwrap hd hg hbare).1, keepsLasting_unwrap d id, fun j hgains => ?_⟩
  refine absurd hgains (Document.not_gainsTransform ?_)
  rw [Document.transform?, Document.element?_unwrap, Document.transform?]

theorem keepsClips_collapseVisit (hd : d.IsCoherent) (id : NodeId) :
    KeepsClips d (collapseVisit d id).1 := by
  rcases collapseVisit_cases hd id with hsame | ⟨hid, ⟨hbare, hvisit⟩ |
    ⟨c, group, child, h, -, hvisit⟩⟩
  · rw [hsame]
    exact .refl hd
  · rw [hvisit]
    exact keepsClips_unwrap hd hid.named hbare
  · rw [hvisit]
    -- the child got the transform before the group went
    have hlowered := h.keepsClips_lowered hd
    exact hlowered.trans (keepsClips_unwrap hlowered.coherent
      (((h.isCoherent_lowered hd).2 id "g").trans hid.named) (h.isBare_lowered hd.isForest))

/-! ## The walks -/

/-- Whether no attribute clips or masks an element, before or after, and its style says what
it said. -/
structure ClipsByStyle (d d' : Document) (id : NodeId) : Prop where
  before : ∀ s ∈ clippingNames, d.attributed? s id = none
  after : ∀ s ∈ clippingNames, d'.attributed? s id = none
  style : ∀ p, d'.declared? p id = d.declared? p id

theorem KeepsClips.clipsByStyle (h : KeepsClips d d') (hd : d.IsCoherent)
    (hgains : d.GainsTransform d' id) : ClipsByStyle d d' id where
  before := h.gained id hgains
  after s hs := (h.lasting.attributed?_eq (isInherited_of_clipping hs)).trans
    (h.gained id hgains s hs)
  style := h.lasting.declared?_eq hd h.coherent

/-- An element to which a transform moves, in a visit of either pass over groups or in the
whole pass, has no attribute `clip-path` and no attribute `mask`.  So it is clipped or masked
just if its style says so, which the passes do not look at. -/
theorem clipsByStyle_of_gainsTransform {pass : Pass} {visit : Visit}
    (hpass : (pass, visit) ∈ [(moveSharedToGroup, sharedVisit), (collapseGroups, collapseVisit)])
    (hd : d.IsCoherent) :
    (∀ m ∈ Walk.bottomUpVisits visit.visitor ((), d), ∀ id,
      m.found.GainsTransform m.left id → ClipsByStyle m.found m.left id) ∧
    ∀ id, d.GainsTransform (pass.run d) id → ClipsByStyle d (pass.run d) id := by
  obtain ⟨hrun, hvisit⟩ : pass = .bottomUp visit ∧
      ∀ d id, d.IsCoherent → KeepsClips d (visit d id).1 ∧ (visit d id).2 = .keep := by
    simp only [List.mem_cons, List.not_mem_nil, or_false, Prod.mk.injEq] at hpass
    rcases hpass with ⟨rfl, rfl⟩ | ⟨rfl, rfl⟩
    · exact ⟨rfl, fun d id hd => ⟨keepsClips_sharedVisit hd id, sharedVisit_keep d id⟩⟩
    · exact ⟨rfl, fun d id hd => ⟨keepsClips_collapseVisit hd id, collapseVisit_keep d id⟩⟩
  have hsettle : ∀ (s : Unit × Document) id p, KeepsClips d s.2 → s.2.parent id = some p →
      KeepsClips d (visit.visitor.settle s id).2 := by
    intro s id p hs _
    obtain ⟨hstep, hkeep⟩ := hvisit s.2 id hs.coherent
    rw [Visitor.settle_of_keep hkeep]
    exact hs.trans hstep
  have hwalk := Walk.run_bottomUp visit.visitor ((), d)
  constructor
  · intro m hm id hgains
    obtain ⟨front, back, hvisits⟩ := List.append_of_mem hm
    rw [hvisits] at hwalk
    obtain ⟨u, p, hfront, hmoment, -, -⟩ := hwalk.split
    have hcoherent := (hfront.keeps hsettle (.refl hd)).coherent
    rw [hmoment] at hgains ⊢
    exact (hvisit u.2 m.id hcoherent).1.clipsByStyle hcoherent hgains
  · rw [hrun]
    exact fun id hgains => (hwalk.keeps hsettle (.refl hd)).clipsByStyle hd hgains

/-! ## A clip in a style -/

namespace Framed

def element (name : String) (attributes : List Attribute) : Element :=
  .ofAttributes (.plain name) attributes

def document : Document :=
  ((((Document.empty.append Document.root (.element (element "svg" []))).1.append 1
    (.element (element "g" [⟨.plain "style", "mask:url(#m)"⟩]))).1.append 2
      (.element (element "rect" [⟨.plain "transform", "scale(2)"⟩]))).1.append 2
        (.element (element "circle" [⟨.plain "transform", "scale(2)"⟩]))).1

theorem isCoherent_document : document.IsCoherent := by
  have helement : ∀ e, Content.element e ≠ .root := fun e h => by cases h
  refine ⟨⟨?_, fun j e he => ⟨trivial, fun _ _ => trivial, ?_⟩⟩, fun j e he => ?_⟩
  · exact (((Document.IsRooted.empty.append (by decide) (helement _)).append (by decide)
      (helement _)).append (by decide) (helement _)).append (by decide) (helement _)
  · exact Document.forall_element?_of_all (Q := fun e => (e.attributes.map (·.name)).Nodup)
      (by decide) he
  · exact Document.forall_element?_of_all (Q := Element.IsFresh) (by decide +kernel) he

end Framed

/-- The transform of two shapes moves to a group with a mask in its style. -/
theorem clipsByStyle_framed :
    Framed.document.IsCoherent ∧
      Framed.document.GainsTransform (moveSharedToGroup.run Framed.document) 2 ∧
      (moveSharedToGroup.run Framed.document).declared? "mask" 2 = some "url(#m)" ∧
      ClipsByStyle Framed.document (moveSharedToGroup.run Framed.document) 2 := by
  have hgains : Framed.document.GainsTransform (moveSharedToGroup.run Framed.document) 2 :=
    ⟨"scale(2)", by decide +kernel, by decide⟩
  have hpass : (moveSharedToGroup, sharedVisit) ∈
      [(moveSharedToGroup, sharedVisit), (collapseGroups, collapseVisit)] := .head _
  exact ⟨Framed.isCoherent_document, hgains, by decide +kernel,
    (clipsByStyle_of_gainsTransform hpass Framed.isCoherent_document).2 2 hgains⟩

end Pass
end SvgCompact
