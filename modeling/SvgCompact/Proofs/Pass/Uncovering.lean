import SvgCompact.Proofs.Css.Length
import SvgCompact.Proofs.Element.Changes
import SvgCompact.Proofs.Pass.Effective
import SvgCompact.Proofs.Pass.Unread

/-!
Initial values that go from styles.

In a style a value hides the attribute of its element and all values above.  When styles are
written anew an initial value goes unless something above would take its place, but the
attribute beside it is not asked and comes to light (`agree_effective_minifyStyles_iff`).

What goes from a style is decided by the values above that stay in any case: those of
attributes, those that are not initial, and those in styles of `style` elements, which are not
written anew.  A node is visited when all above it have been, so the initial values above it
are gone by then if nothing above them stays.
-/

namespace SvgCompact

open Document (root)
open Markup (escapedSize)

/-! ## Parts of a style -/

namespace Style

variable {style : Style} {q : Declaration → Bool}

theorem find?_filter (h : style.properties.Nodup) (q : Declaration → Bool) (p : String) :
    (style.filter q).find? p = (style.find? p).filter q := by
  obtain ⟨l⟩ := style
  rw [find?, filter, find?]
  induction l with
  | nil => rfl
  | cons x rest ih =>
    obtain ⟨hx, hrest⟩ := List.nodup_cons.1 h
    have ih := ih hrest
    dsimp only at ih ⊢
    rw [List.filter_cons, List.find?_cons]
    by_cases hp : x.property = p
    · have hnone : rest.find? (·.property == p) = none := by
        exact List.find?_eq_none.2 fun y hy hyp =>
          hx (List.mem_map.2 ⟨y, hy, (eq_of_beq hyp).trans hp.symm⟩)
      rw [hnone] at ih
      rw [beq_iff_eq.2 hp, Option.filter_some]
      split
      · rw [List.find?_cons, beq_iff_eq.2 hp]
      · exact ih
    · split
      · rw [List.find?_cons, beq_eq_false_iff_ne.2 hp]
        exact ih
      · rw [beq_eq_false_iff_ne.2 hp]
        exact ih

theorem nodup_properties_filter (h : style.properties.Nodup) (q : Declaration → Bool) :
    (style.filter q).properties.Nodup :=
  h.sublist ((List.filter_sublist (p := q)).map _)

theorem two_le_declarationSize (x : Declaration) : 2 ≤ Css.declarationSize x := by
  rw [Css.declarationSize, Css.escapedSize_write]
  omega

/-- A style is longer than a part of it. -/
theorem escapedSize_write_filter_lt (h : style.filter q ≠ style) :
    escapedSize (style.filter q).write.toList < escapedSize style.write.toList := by
  obtain ⟨l⟩ := style
  have hsum : ∀ l : List Declaration, l.filter q ≠ l →
      ((l.filter q).map Css.declarationSize).sum + 2 ≤ (l.map Css.declarationSize).sum := by
    intro l hne
    induction l with
    | nil => exact absurd rfl hne
    | cons x rest ih =>
      have hx := two_le_declarationSize x
      rw [List.filter_cons] at hne ⊢
      split
      · next hq =>
        rw [if_pos hq] at hne
        have hrest := ih fun heq => hne (congrArg _ heq)
        simp only [List.map_cons, List.sum_cons]
        omega
      · have hsublist : (rest.filter q).Sublist rest := List.filter_sublist
        have hrest := (hsublist.map Css.declarationSize).sum_le_sum fun _ _ => Nat.zero_le _
        simp only [List.map_cons, List.sum_cons]
        omega
  have hlt := hsum l fun heq => h (congrArg _ heq)
  -- no separator follows the last declaration, and where nothing is left none is saved
  rw [write, write, String.toList_ofList, String.toList_ofList, Css.escapedSize_writeDeclarations,
    Css.escapedSize_writeDeclarations, filter]
  dsimp only
  omega

theorem escapedSize_write_read_le (s : String) :
    escapedSize (read s).write.toList ≤ escapedSize s.toList := by
  have hsame : (read s).mapValues (fun _ v => v) = read s := by
    rw [mapValues]
    exact congrArg _ (List.map_id _)
  have hle := escapedSize_write_mapValues_read_le (f := fun _ v => v) (fun _ _ => Nat.le_refl _) s
  rwa [hsame] at hle

end Style

/-! ## Elements and their texts -/

namespace Element

variable {e : Element} {p : String}

/-- Whether the style of an element has one declaration for each property, and is what its
text is read as or is written as its text. -/
structure HasStyleText (e : Element) : Prop where
  nodup : e.style.properties.Nodup
  bare : e.attr? "style" = none → e.style = Style.empty
  text : ∀ t, e.attr? "style" = some t → e.style = Style.read t ∨ t = e.style.write

theorem IsFresh.hasStyleText (h : e.IsFresh) : e.HasStyleText := by
  have hstyle := h.style
  refine ⟨?_, fun hnone => ?_, fun t ht => .inl ?_⟩
  · cases ht : e.attr? "style" with
    | none =>
      rw [ht] at hstyle
      rw [hstyle]
      exact List.nodup_nil
    | some t =>
      rw [ht] at hstyle
      rw [hstyle]
      exact Style.nodup_properties_ofDeclarations _
  · rw [hstyle, hnone]
    rfl
  · rw [hstyle, ht]
    rfl

/-- A part of a style has a text of its own. -/
theorem HasStyleText.filter_eq (h : e.HasStyleText) {q : Declaration → Bool}
    (hsame : (e.style.filter q).write = (e.attr? "style").getD "") :
    e.style.filter q = e.style := by
  cases ht : e.attr? "style" with
  | none =>
    rw [h.bare ht]
    rfl
  | some t =>
    rw [ht, Option.getD_some] at hsame
    by_contra hne
    have hlt := Style.escapedSize_write_filter_lt hne
    rw [hsame] at hlt
    rcases h.text t ht with hread | hwritten
    -- what is read from a text is never written longer than the text
    · rw [hread] at hlt
      exact absurd hlt (Nat.not_lt_of_le (Style.escapedSize_write_read_le t))
    · rw [← hwritten] at hlt
      exact absurd hlt (Nat.lt_irrefl _)

theorem hasStyleText_replaceStyle (hnames : (e.attributes.map (·.name)).Nodup) {style : Style}
    (hstyle : style.properties.Nodup) : (e.replaceStyle style).HasStyleText := by
  have htext : (e.replaceStyle style).attr? "style" = shown style.write :=
    attr?_writeBack_self (e := { e with style }) read_style hnames style.write
  refine ⟨?_, fun hnone => ?_, fun t ht => .inr ?_⟩
  · rwa [style_replaceStyle]
  · rw [htext, Forms.shown_eq_none_iff] at hnone
    rw [style_replaceStyle]
    exact Forms.eq_empty_of_write hnone
  · rw [htext, Forms.shown_eq_some_iff] at ht
    rw [style_replaceStyle]
    exact ht.2.symm

end Element

/-! ## One visit -/

namespace Pass

open Element (HasStyleText)

variable {d : Document} {id j : NodeId} {e : Element} {p : String}

theorem style_minifyInline (h : e.HasStyleText) : (minifyInline d id e).style =
    e.style.filter fun x => !Defaults.isRemovable d id e.name.stem x.property x.value := by
  rw [minifyInline]
  split
  · next hsame => exact (h.filter_eq (eq_of_beq hsame)).symm
  · exact Element.style_replaceStyle e _

theorem get?_minifyInline (h : e.HasStyleText) : (minifyInline d id e).style.get? p =
    (e.style.get? p).filter fun v => !Defaults.isRemovable d id e.name.stem p v := by
  rw [style_minifyInline h, Style.get?, Style.find?_filter h.nodup, Style.get?]
  cases hx : e.style.find? p with
  | none => rfl
  | some x =>
    have hproperty : x.property = p := by simpa using List.find?_some hx
    subst hproperty
    rw [Option.map_some, Option.filter_some, Option.filter_some]
    split <;> rfl

theorem attr?_minifyInline (hp : p ≠ "style") : (minifyInline d id e).attr? p = e.attr? p := by
  rw [minifyInline]
  split
  · rfl
  · exact Element.attr?_writeBack Element.read_style hp _

theorem hasStyleText_minifyInline (h : e.HasStyleText)
    (hnames : (e.attributes.map (·.name)).Nodup) : (minifyInline d id e).HasStyleText := by
  rw [minifyInline]
  split
  · exact h
  · exact Element.hasStyleText_replaceStyle hnames (Style.nodup_properties_filter h.nodup _)

/-- What is done at a node when styles are minified. -/
def stylesVisit : Visit := fun d id =>
  match d.element? id with
  | some e =>
    if e.isNamed "style" then (minifySheet d id, .keep)
    else (d.updateElement id (minifyInline d id), .keep)
  | none => (d, .keep)

theorem minifyStyles_eq : minifyStyles = .topDown stylesVisit := rfl

theorem isStyling_stylesVisit {P : QName → Prop} [QName.Admits P] : IsStyling P stylesVisit := by
  obtain ⟨visit, heq, hvisit⟩ := exists_isStyling (P := P)
  rw [minifyStyles_eq, Pass.topDown.injEq] at heq
  rwa [heq]

theorem element?_minifySheet : (minifySheet d id).element? j = d.element? j := by
  unfold minifySheet
  simp only
  split
  · rfl
  · split
    · exact Document.element?_replaceText ..
    · rfl

theorem element?_stylesVisit : (stylesVisit d id).1.element? j =
    if j = id ∧ d.isNamed id "style" = false then (d.element? j).map (minifyInline d id)
    else d.element? j := by
  rw [stylesVisit, Document.isNamed]
  cases he : d.element? id with
  | none =>
    dsimp only
    split
    · next hj => rw [hj.1, he, Option.map_none]
    · rfl
  | some e =>
    dsimp only
    split
    · next hstyle => rw [element?_minifySheet, if_neg (by simp [hstyle])]
    · next hstyle =>
      rw [Document.element?_updateElement]
      simp only [Bool.not_eq_true] at hstyle
      simp only [hstyle, and_true]

end Pass

namespace Document

variable {d : Document}

/-- Whether all elements have styles that go with their texts. -/
def HasStyleTexts (d : Document) : Prop :=
  ∀ id e, d.element? id = some e → e.HasStyleText

theorem IsCoherent.hasStyleTexts (hd : d.IsCoherent) : d.HasStyleTexts :=
  fun id e he => (hd.fresh id e he).hasStyleText

end Document

namespace Pass

open Defaults (isDefault isRemovable stemAt Agree KeepsOrSheds)
open Visit (IsWithin)

variable {d d' : Document} {id a j : NodeId} {p : String}

/-! ## What one visit keeps -/

theorem attributed?_stylesVisit (hp : p ≠ "style") :
    (stylesVisit d id).1.attributed? p j = d.attributed? p j := by
  rw [Document.attributed?, element?_stylesVisit, Document.attributed?]
  split
  · rw [Option.bind_map]
    exact congrArg _ (funext fun e => attr?_minifyInline hp)
  · rfl

theorem declared?_stylesVisit (h : d.HasStyleTexts) :
    (stylesVisit d id).1.declared? p j =
      if j = id ∧ d.isNamed id "style" = false then
        (d.declared? p j).filter fun v => !isRemovable d id (stemAt d id) p v
      else d.declared? p j := by
  rw [Document.declared?, element?_stylesVisit, Document.declared?]
  split
  · next hj =>
    rw [hj.1]
    cases he : d.element? id with
    | none => rfl
    | some e =>
      rw [Option.map_some, Option.bind_some, Option.bind_some, get?_minifyInline (h id e he),
        Defaults.stemAt_of_element? he]
  · rfl

theorem stemAt_stylesVisit : stemAt (stylesVisit d id).1 j = stemAt d j := by
  rw [stemAt, element?_stylesVisit, stemAt]
  split
  · cases d.element? j with
    | none => rfl
    | some e =>
      exact congrArg QName.stem (isRevision_minifyInline (P := fun _ => True) d id e).name
  · rfl

theorem hasStyleTexts_stylesVisit (hd : d.IsSound fun _ => True) (h : d.HasStyleTexts) :
    (stylesVisit d id).1.HasStyleTexts := by
  intro j e he
  rw [element?_stylesVisit] at he
  split at he
  · obtain ⟨e₀, he₀, rfl⟩ := Option.map_eq_some_iff.1 he
    exact hasStyleText_minifyInline (h j e₀ he₀) (hd.names j e₀ he₀).nodup
  · exact h j e he

/-! ## Values that stay in any case -/

/-- Whether a value of a property stays at a node when styles are minified: that of an
attribute, one that is not initial, or one in the style of a `style` element. -/
def HoldsFast (d : Document) (p : String) (id : NodeId) : Prop :=
  (∃ w, d.attributed? p id = some w) ∨
    ∃ v, d.declared? p id = some v ∧
      (d.isNamed id "style" = true ∨ isDefault (stemAt d id) p v = false)

/-- Whether the style of a node gives up a property. -/
structure GivesUp (d : Document) (p : String) (id : NodeId) : Prop where
  other : d.isNamed id "style" = false
  initial : ∃ v, d.declared? p id = some v ∧ isDefault (stemAt d id) p v = true
  free : Inheritance.isInherited p = true → ∀ a, d.IsAbove a id → ¬ HoldsFast d p a

/-- What is left of the values of a property while styles are minified. -/
structure Fades (d : Document) (p : String) (d' : Document) : Prop where
  texts : d'.HasStyleTexts
  stem_eq : ∀ j, stemAt d' j = stemAt d j
  attributed_eq : ∀ j, d'.attributed? p j = d.attributed? p j
  declared : ∀ j, d'.declared? p j = d.declared? p j ∨
    d'.declared? p j = none ∧ d.isNamed j "style" = false ∧
      ∃ v, d.declared? p j = some v ∧ isDefault (stemAt d j) p v = true

/-- A node that is left, with the nodes above it, while styles are minified. -/
structure Remains (d : Document) (p : String) (a : NodeId) (d' : Document) : Prop
    extends Spares (fun _ => True) d a d', Fades d p d'

theorem Fades.refl (h : d.HasStyleTexts) : Fades d p d :=
  ⟨h, fun _ => rfl, fun _ => rfl, fun _ => .inl rfl⟩

theorem Fades.stylesVisit (h : Fades d p d') (hd' : d'.IsSound fun _ => True)
    (hnamed : d'.isNamed id "style" = d.isNamed id "style") (hp : p ≠ "style") :
    Fades d p (stylesVisit d' id).1 := by
  refine ⟨hasStyleTexts_stylesVisit hd' h.texts, fun j => stemAt_stylesVisit.trans (h.stem_eq j),
    fun j => (attributed?_stylesVisit hp).trans (h.attributed_eq j), fun j => ?_⟩
  rw [declared?_stylesVisit h.texts]
  split
  · next hj =>
    obtain ⟨rfl, hother⟩ := hj
    rcases h.declared j with hsame | ⟨hnone, hgone⟩
    · rw [hsame, h.stem_eq]
      cases hv : d.declared? p j with
      | none => exact .inl rfl
      | some v =>
        rw [Option.filter_some]
        split
        · exact .inl rfl
        · next hremovable =>
          simp only [Bool.not_eq_true, Bool.not_eq_false', isRemovable, Bool.and_eq_true]
            at hremovable
          exact .inr ⟨rfl, hnamed ▸ hother, v, rfl, hremovable.1⟩
    · exact .inr ⟨by rw [hnone]; rfl, hgone⟩
  · exact h.declared j

theorem Fades.isSome_property? (h : Fades d p d') (hfast : HoldsFast d p a) :
    (d'.property? p a).isSome = true := by
  rw [Document.property?_eq_or, Option.isSome_or, Bool.or_eq_true]
  rcases hfast with ⟨w, hw⟩ | ⟨v, hv, hstays⟩
  · rw [h.attributed_eq, hw]
    exact .inr rfl
  · rcases h.declared a with hsame | ⟨-, hother, v', hv', hdefault⟩
    · rw [hsame, hv]
      exact .inl rfl
    · cases hv.symm.trans hv'
      rw [hother, hdefault] at hstays
      exact absurd hstays (by decide)

theorem property?_stylesVisit_of_none (h : d.HasStyleTexts) (hp : p ≠ "style")
    (hnone : d.property? p j = none) : (stylesVisit d id).1.property? p j = none := by
  rw [Document.property?_eq_or, Option.or_eq_none_iff] at hnone
  rw [Document.property?_eq_or, attributed?_stylesVisit hp, declared?_stylesVisit h, hnone.1,
    hnone.2]
  split <;> rfl

theorem Remains.refl (hd : d.IsSound fun _ => True) (htexts : d.HasStyleTexts) (a : NodeId) :
    Remains d p a d :=
  ⟨.refl hd a, .refl htexts⟩

/-- A node in the document around which no sheet stands. -/
structure IsSpared (d : Document) (a : NodeId) : Prop where
  reached : a ∈ d.subtree root
  lt : a < d.size
  clear : ∀ b, d.IsAbove b a → ¬ d.HoldsStyles b

theorem IsSpared.of_isAbove (h : IsSpared d a) (hd : d.IsRooted) {b : NodeId}
    (hb : d.IsAbove b a) : IsSpared d b where
  reached := ((Document.IsCut.of_isRestyled (.refl d)).isAbove_of_reached hd hd.isForest h.lt
    h.reached hb).2
  lt := hd.isForest.lt_size_of_isAbove hb
  clear c hc := h.clear c (hc.trans hb)

/-- What is above a node that remains was above it before. -/
theorem Remains.isAbove_iff (h : Remains d p a d') (hd : d.IsRooted) (ha : IsSpared d a)
    {b : NodeId} : d'.IsAbove b a ↔ d.IsAbove b a :=
  ⟨h.isCut.isAbove hd.isForest ha.lt, fun hb => (h.isCut.isAbove_of_reached hd h.isForest ha.lt
    (h.mem_subtree hd.isForest ha.reached) hb).1⟩

/-- Whether nothing above a node has a value that the node would inherit. -/
def IsFree (d : Document) (p : String) (id : NodeId) (d' : Document) : Prop :=
  Inheritance.isInherited p = true → ∀ b, d.IsAbove b id → d'.property? p b = none

section Free

variable (h : Remains d p a d') (hd : d.IsForest) (hid : id < d.size) (hfree : IsFree d p id d')
include h hd hid hfree

/-- Below nodes without values no initial value stays in a style. -/
theorem Remains.declared?_stylesVisit (hinitial : ∀ v, d.declared? p id = some v →
    d.isNamed id "style" = false ∧ isDefault (stemAt d id) p v = true) :
    (stylesVisit d' id).1.declared? p id = none := by
  rw [Pass.declared?_stylesVisit h.texts]
  cases hv : d'.declared? p id with
  | none => split <;> rfl
  | some v =>
    have hold : d.declared? p id = some v := by
      rcases h.declared id with hsame | ⟨hgone, -⟩
      · exact hsame.symm.trans hv
      · cases hgone.symm.trans hv
    obtain ⟨hother, hdefault⟩ := hinitial v hold
    have hunset : (Inheritance.isInherited p && Defaults.isSetAbove d' id p) = false :=
      Bool.and_eq_false_imp.2 fun hp => (Defaults.isSetAbove_eq_false_iff h.isForest).2 fun b hb =>
        hfree hp b (h.isCut.isAbove hd hid hb)
    rw [if_pos ⟨rfl, (h.isNamed_eq id _).trans hother⟩, Option.filter_some, isRemovable, h.stem_eq,
      hdefault, hunset]
    rfl

/-- So no value stays but those that stay in any case. -/
theorem Remains.property?_stylesVisit (hp : p ≠ "style") (hfast : ¬ HoldsFast d p id) :
    (stylesVisit d' id).1.property? p id = none := by
  rw [HoldsFast, not_or] at hfast
  rw [Document.property?_eq_or, Option.or_eq_none_iff, attributed?_stylesVisit hp, h.attributed_eq]
  refine ⟨h.declared?_stylesVisit hd hid hfree fun v hv => ?_,
    Option.eq_none_iff_forall_ne_some.2 fun w hw => hfast.1 ⟨w, hw⟩⟩
  by_contra hnot
  rw [not_and_or, Bool.not_eq_false, Bool.not_eq_true] at hnot
  exact hfast.2 ⟨v, hv, hnot⟩

end Free

section Styling

variable (hd : d.IsSound fun _ => True) (hp : p ≠ "style") (ha : IsSpared d a)
include hd hp ha

theorem keeps_remains : stylesVisit.Keeps (Remains d p a) := by
  have hspares := keeps_spares (isStyling_stylesVisit (P := fun _ => True)) hd ha.lt ha.clear
  exact .of_keep (fun d' id q h hq => ⟨hspares.kept d' id q h.toSpares hq,
    h.toFades.stylesVisit h.sound (h.isNamed_eq id _) hp⟩)
    (isStyling_stylesVisit (P := fun _ => True)).keep

variable (htexts : d.HasStyleTexts)
include htexts

theorem remains_minifyStyles : Remains d p a (minifyStyles.run d) :=
  (keeps_remains hd hp ha).topDown (.refl hd htexts a)

/-- A value in a style that is not given up stays: what would take its place is above it at
any time. -/
theorem declared?_of_not_givesUp (hgives : ¬ GivesUp d p a) :
    (minifyStyles.run d).declared? p a = d.declared? p a := by
  have hremains := keeps_remains hd hp ha
  have hkeeps : stylesVisit.Keeps fun d' =>
      Remains d p a d' ∧ d'.declared? p a = d.declared? p a := by
    refine .of_keep (fun d' id q h hq => ⟨hremains.kept d' id q h.1 hq, ?_⟩)
      (isStyling_stylesVisit (P := fun _ => True)).keep
    obtain ⟨h, hsame⟩ := h
    rw [declared?_stylesVisit h.texts, hsame]
    split
    · next hid =>
      obtain ⟨rfl, hother⟩ := hid
      cases hv : d.declared? p a with
      | none => rfl
      | some v =>
        rw [Option.filter_some, if_pos]
        by_contra hremovable
        rw [Bool.not_eq_true', Bool.not_eq_false, isRemovable, Bool.and_eq_true, Bool.not_eq_true',
          Bool.and_eq_false_imp, h.stem_eq] at hremovable
        refine hgives ⟨h.isNamed_eq a _ ▸ hother, ⟨v, hv, hremovable.1⟩,
          fun hinherited b hb hfast => ?_⟩
        have hnone := (Defaults.isSetAbove_eq_false_iff h.isForest).1 (hremovable.2 hinherited) b
          ((h.isAbove_iff hd.toIsRooted ha).2 hb)
        have hsome := h.isSome_property? hfast
        rw [hnone] at hsome
        cases hsome
    · rfl
  exact (hkeeps.topDown ⟨.refl hd htexts a, rfl⟩).2

/-- A value that is given up goes: nothing is above it any more when its node is visited. -/
theorem declared?_of_givesUp (hgives : GivesUp d p a) :
    (minifyStyles.run d).declared? p a = none := by
  have hremains := keeps_remains hd hp ha
  have hkeep := (isStyling_stylesVisit (P := fun _ => True)).keep
  obtain ⟨v, hv, hdefault⟩ := hgives.initial
  have hnone : d.element? root = none :=
    Option.not_isSome_iff_eq_none.1 (Bool.eq_false_iff.1 hd.not_isElement_root)
  have hne : a ≠ root := by
    rintro rfl
    rw [Document.declared?, hnone] at hv
    cases hv
  have hroot : d.IsAbove root a := (hd.isForest.mem_subtree_iff.1 ha.reached).resolve_left hne
  -- on the way down to the node no value is left above; after its visit its own is gone
  refine (Visit.settles_topDown hd.isForest hkeep
    (Q := fun id d' => Remains d p a d' ∧ IsFree d p id d')
    (R := fun d' => Remains d p a d' ∧ d'.declared? p a = none) (fun id => ?_) ?_
    (fun d' id h => h.1.toKeepsWay) ?_ ?_ hroot ?_).2
  · exact .of_keep (fun d' i q h hq => ⟨hremains.kept d' i q h.1 hq, fun hinherited b hb =>
      property?_stylesVisit_of_none h.1.texts hp (h.2 hinherited b hb)⟩) hkeep
  · refine .of_keep (fun d' i q h hq => ⟨hremains.kept d' i q h.1 hq, ?_⟩) hkeep
    rw [declared?_stylesVisit h.1.texts, h.2]
    split <;> rfl
  · intro d' id q c h hq hida hc
    refine ⟨hremains.kept d' id q h.1 hq, fun hinherited b hb => ?_⟩
    rcases (Document.isAbove_iff_of_parent hc).1 hb with rfl | hb
    -- the node that was just visited is above the next one
    · exact h.1.property?_stylesVisit hd.isForest (hd.isForest.lt_size_of_isAbove hida) h.2 hp
        (hgives.free hinherited b hida)
    · exact property?_stylesVisit_of_none h.1.texts hp (h.2 hinherited b hb)
  · intro d' q h hq
    refine ⟨hremains.kept d' a q h.1 hq, h.1.declared?_stylesVisit hd.isForest ha.lt h.2
      fun w hw => ⟨hgives.other, ?_⟩⟩
    rwa [Option.some.inj (hw.symm.trans hv)]
  · intro c hc
    refine ⟨.refl hd htexts a, fun _ b hb => ?_⟩
    rcases (Document.isAbove_iff_of_parent hc).1 hb with rfl | hb
    · rw [Document.property?, hnone, Option.bind_none]
    · exact absurd hb (Document.not_isAbove_of_parent_none hd.parent_root)

/-! ## What comes to light -/

theorem property?_of_not_givesUp (hgives : ¬ GivesUp d p a) :
    (minifyStyles.run d).property? p a = d.property? p a := by
  rw [Document.property?_eq_or, declared?_of_not_givesUp hd hp ha htexts hgives,
    (remains_minifyStyles hd hp ha htexts).attributed_eq, Document.property?_eq_or]

theorem property?_of_givesUp (hgives : GivesUp d p a) :
    (minifyStyles.run d).property? p a = d.attributed? p a := by
  rw [Document.property?_eq_or, declared?_of_givesUp hd hp ha htexts hgives,
    (remains_minifyStyles hd hp ha htexts).attributed_eq, Option.none_or]

/-- Of values that do not stay in any case nothing is left if none above stays either. -/
theorem property?_eq_none_of_free (hfast : ¬ HoldsFast d p a)
    (hfree : Inheritance.isInherited p = true → ∀ b, d.IsAbove b a → ¬ HoldsFast d p b) :
    (minifyStyles.run d).property? p a = none := by
  rw [HoldsFast, not_or] at hfast
  have hattributed : d.attributed? p a = none :=
    Option.eq_none_iff_forall_ne_some.2 fun w hw => hfast.1 ⟨w, hw⟩
  by_cases hgives : GivesUp d p a
  · rw [property?_of_givesUp hd hp ha htexts hgives, hattributed]
  · rw [property?_of_not_givesUp hd hp ha htexts hgives, Document.property?_eq_or, hattributed,
      Option.or_none, Option.eq_none_iff_forall_ne_some]
    intro v hv
    have hstays : ¬ (d.isNamed a "style" = true ∨ isDefault (stemAt d a) p v = false) :=
      fun hstays => hfast.2 ⟨v, hv, hstays⟩
    rw [not_or, Bool.not_eq_true, Bool.not_eq_false] at hstays
    exact hgives ⟨hstays.1, ⟨v, hv, hstays.2⟩, hfree⟩

theorem keepsOrSheds_minifyStyles : KeepsOrSheds d (minifyStyles.run d) p a := by
  by_cases hgives : GivesUp d p a
  · obtain ⟨v, hv, hdefault⟩ := hgives.initial
    refine .inr ⟨v, ?_, hdefault, fun hinherited b hb => ?_⟩
    · rw [Document.property?_eq_or, hv, Option.some_or]
    · have habove :=
        ((remains_minifyStyles hd hp ha htexts).isAbove_iff hd.toIsRooted ha).1 hb
      exact property?_eq_none_of_free hd hp (ha.of_isAbove hd.toIsRooted habove) htexts
        (hgives.free hinherited b habove) fun _ c hc => hgives.free hinherited c (hc.trans habove)
  · exact .inl (property?_of_not_givesUp hd hp ha htexts hgives)

/-- Whether a style gives up an initial value beside an attribute with another one. -/
def Uncovers (d : Document) (p : String) (id : NodeId) : Prop :=
  GivesUp d p id ∧ ∃ w, d.attributed? p id = some w ∧ isDefault (stemAt d id) p w = false

theorem agree_property?_iff :
    Agree (stemAt d a) p (d.property? p a) ((minifyStyles.run d).property? p a) ↔
      ¬ Uncovers d p a := by
  by_cases hgives : GivesUp d p a
  · obtain ⟨v, hv, hdefault⟩ := hgives.initial
    have hbefore : d.property? p a = some v := by rw [Document.property?_eq_or, hv, Option.some_or]
    rw [hbefore, property?_of_givesUp hd hp ha htexts hgives, Uncovers, and_iff_right hgives]
    constructor
    · rintro hagree ⟨w, hw, hother⟩
      rw [hw] at hagree
      have hdefault' : isDefault (stemAt d a) p w = true := by
        rcases hagree with heq | ⟨-, hinitial⟩
        · rwa [Option.some.inj heq]
        · exact Defaults.isInitial_some.1 hinitial
      rw [hother] at hdefault'
      cases hdefault'
    · intro hnone
      refine .inr ⟨Defaults.isInitial_some.2 hdefault, fun w hw => ?_⟩
      by_contra hother
      exact hnone ⟨w, hw, Bool.eq_false_iff.2 hother⟩
  · rw [property?_of_not_givesUp hd hp ha htexts hgives]
    exact iff_of_true (.refl _ _ _) fun huncovers => hgives huncovers.1

end Styling

/-- At an element that is left, the value of a property that takes effect comes to the same
when styles are minified, unless it is from a style that gives it up beside an attribute
with a value that is not initial. -/
theorem agree_effective_minifyStyles_iff (hd : d.IsSound fun _ => True) (htexts : d.HasStyleTexts)
    {e : Element} (he : d.element? id = some e) (hid : id ∈ d.elements)
    (hleft : id ∈ (minifyStyles.run d).elements) (hp : p ≠ "style") :
    Agree e.name.stem p (d.effective? p id) ((minifyStyles.run d).effective? p id) ↔
      ∀ a, d.source? p id = some a → ¬ Uncovers d p a := by
  have hreached := (Document.mem_elements_iff.1 hid).1
  have hlt := Document.lt_size_of_element? he
  have hspared : IsSpared d id := ⟨hreached, hlt, fun a ha =>
    not_holdsStyles_of_left hd hlt hreached (Document.mem_elements_iff.1 hleft).1 ha⟩
  have hforest := (remains_minifyStyles hd hp hspared htexts).isForest
  rw [← Defaults.stemAt_of_element? he, Defaults.agree_effective_iff hd.isForest hforest
    (P := IsSpared d) (fun a ha => (remains_minifyStyles hd hp ha htexts).parent_eq a (.inl rfl))
    (fun a q ha hq => ha.of_isAbove hd.toIsRooted (Document.isAbove_of_parent hq))
    (fun a ha => keepsOrSheds_minifyStyles hd hp ha htexts) hspared]
  refine forall₂_congr fun a hsource => agree_property?_iff hd hp ?_ htexts
  rcases hd.isForest.eq_or_isAbove_of_source? hsource with rfl | habove
  · exact hspared
  · exact hspared.of_isAbove hd.toIsRooted habove

/-! ## A hidden attribute -/

namespace Veiled

def shape : Element where
  name := .plain "rect"
  attributes := [⟨.plain "opacity", ".5"⟩, ⟨.plain "style", "opacity:1"⟩]
  classes := .empty
  style := ⟨[⟨"opacity", "1", .normal⟩]⟩

def document : Document :=
  ((Document.empty.append root (.element (.bare (.plain "svg")))).1.append 1 (.element shape)).1

theorem isSound_document : document.IsSound fun _ => True := by
  have helement : ∀ e, Content.element e ≠ .root := fun e h => by cases h
  refine ⟨?_, fun j e he => ⟨trivial, fun _ _ => trivial, ?_⟩⟩
  · exact (Document.IsRooted.empty.append (by decide) (helement _)).append (by decide) (helement _)
  · exact Document.forall_element?_of_all (Q := fun e => (e.attributes.map (·.name)).Nodup)
      (by decide) he

theorem hasStyleTexts_document : document.HasStyleTexts := by
  have hcases : ∀ id e, document.element? id = some e → e = .bare (.plain "svg") ∨ e = shape :=
    fun id e => Document.forall_element?_of_all (Q := fun e => e = .bare (.plain "svg") ∨ e = shape)
      (by decide)
  intro id e he
  rcases hcases id e he with rfl | rfl
  · exact ⟨List.nodup_nil, fun _ => rfl, fun t ht => by cases ht⟩
  · refine ⟨by decide, fun hnone => absurd hnone (by decide), fun t ht => .inr ?_⟩
    rw [show shape.attr? "style" = some "opacity:1" by decide] at ht
    cases ht
    decide

theorem uncovers_document : Uncovers document "opacity" 2 := by
  refine ⟨⟨by decide, ⟨"1", by decide, by decide⟩, ?_⟩,
    ⟨".5", by decide, by decide⟩⟩
  exact fun hinherited => absurd hinherited (by decide)

end Veiled

/-- The style loses a value of 1, and the attribute with a value of one half comes to light. -/
theorem agree_effective_minifyStyles_veiled :
    (Veiled.document.IsSound fun _ => True) ∧ Veiled.document.HasStyleTexts ∧
      2 ∈ Veiled.document.elements ∧ 2 ∈ (minifyStyles.run Veiled.document).elements ∧
      Veiled.document.effective? "opacity" 2 = some "1" ∧
      (minifyStyles.run Veiled.document).effective? "opacity" 2 = some ".5" ∧
      ¬ Agree "rect" "opacity" (Veiled.document.effective? "opacity" 2)
        ((minifyStyles.run Veiled.document).effective? "opacity" 2) := by
  have hid : 2 ∈ Veiled.document.elements := by decide
  have hleft : 2 ∈ (minifyStyles.run Veiled.document).elements := by decide
  refine ⟨Veiled.isSound_document, Veiled.hasStyleTexts_document, hid, hleft, by decide,
    by decide, fun hagree => ?_⟩
  exact (agree_effective_minifyStyles_iff Veiled.isSound_document Veiled.hasStyleTexts_document
    (e := Veiled.shape) (by decide) hid hleft (by decide)).1 hagree 2 (by decide)
    Veiled.uncovers_document

end Pass
end SvgCompact
