import SvgCompact.Proofs.Pass.Regrouping

/-!
What the passes over groups leave alone.

Only inherited attributes move.  All others stay where they are, in their order, at groups
and at all other elements, and with them ids, classes and styles.
-/

namespace SvgCompact

instance : DecidablePred QName.IsInherited := fun n =>
  inferInstanceAs (Decidable (n.space = none ∧ Inheritance.isInherited n.stem = true))

theorem QName.IsInherited.eq_plain {n : QName} (h : n.IsInherited) : n = QName.plain n.stem := by
  cases n
  exact congrArg (QName.mk · _) h.1

namespace Element

/-- The attributes of an element that are not inherited. -/
def lasting (e : Element) : List Attribute :=
  e.attributes.filter fun a => !decide a.name.IsInherited

variable {e e' : Element} {a : Attribute} {s : String}

theorem lasting_of_bare (h : e.attributes.isEmpty = true) : e.lasting = [] := by
  rw [lasting, List.isEmpty_iff.1 h, List.filter_nil]

theorem lasting_put (ha : a.name.IsInherited) : (e.put a).lasting = e.lasting := by
  rw [lasting, lasting]
  rcases attributes_put_cases e a with ⟨front, held, back, hold, hheld, -, hnew⟩ | ⟨-, hnew⟩
  · rw [← hheld] at ha
    simp [hold, hnew, List.filter_append, ← hheld, ha]
  · simp [hnew, List.filter_append, ha]

theorem lasting_foldl_putJoined {join : String → String → String} {moved : List Attribute}
    (h : ∀ a ∈ moved, a.name.IsInherited) :
    (moved.foldl (Pass.putJoined join) e).lasting = e.lasting :=
  List.foldlRecOn (motive := fun e' : Element => e'.lasting = e.lasting) moved _ rfl
    fun e' he' a ha => by
      rw [Pass.putJoined_eq, lasting_put (a := ⟨a.name, Pass.joinedValue join e' a⟩) (h a ha), he']

theorem lasting_filterAttrs {q : Attribute → Bool}
    (h : ∀ a ∈ e.attributes, q a = false → a.name.IsInherited) :
    (e.filterAttrs q).lasting = e.lasting := by
  rw [lasting, lasting, attributes_filterAttrs, List.filter_filter]
  refine List.filter_congr fun a ha => ?_
  cases hq : q a with
  | true => rw [Bool.and_true]
  | false => simp [h a ha hq]

/-- Attributes that are not inherited are looked up among the lasting ones. -/
theorem attribute?_eq_lasting (e : Element) (hs : Inheritance.isInherited s = false) :
    e.attribute? s = e.lasting.find? (·.name.isNamed s) := by
  rw [attribute?, lasting, List.find?_filter]
  refine congrArg (List.find? · e.attributes) (funext fun a => ?_)
  cases hnamed : a.name.isNamed s with
  | false => simp
  | true =>
    have hnot : ¬ a.name.IsInherited := by
      rintro ⟨hspace, hinherited⟩
      rw [QName.isNamed, hspace] at hnamed
      rw [beq_iff_eq.1 hnamed, hs] at hinherited
      cases hinherited
    simp [hnot]

theorem attr?_of_lasting (h : e'.lasting = e.lasting) (hs : Inheritance.isInherited s = false) :
    e'.attr? s = e.attr? s := by
  rw [attr?, attr?, attribute?_eq_lasting e' hs, attribute?_eq_lasting e hs, h]

/-- A style is what its attribute says, and that attribute lasts. -/
theorem IsFresh.style_eq_of_lasting (h' : e'.IsFresh) (h : e.IsFresh)
    (hlasting : e'.lasting = e.lasting) : e'.style = e.style := by
  rw [h'.style, h.style, attr?_of_lasting hlasting (by decide)]

end Element

namespace Pass

open Document (IsCoherent)

variable {d d' : Document} {id c : NodeId}

/-- What is kept where attributes move up is kept by the whole pass. -/
theorem keeps_moveSharedToGroup {Q : Document → Prop}
    (hstep : ∀ d id, Q d → hoistedFrom d id ≠ [] → Q (hoist d id (hoistedFrom d id))) (hd : Q d) :
    Q (moveSharedToGroup.run d) := by
  have hkeeps : sharedVisit.Keeps Q := by
    unfold sharedVisit
    refine .of_keep (fun d id _ hd _ => ?_) fun d id => by split <;> rfl
    split
    · exact hd
    · next hmoved => exact hstep d id hd hmoved
  rw [moveSharedToGroup_eq]
  exact hkeeps.bottomUp hd

/-- Whether all elements keep the attributes that are not inherited. -/
def KeepsLasting (d d' : Document) : Prop :=
  ∀ j, (d'.element? j).map Element.lasting = (d.element? j).map Element.lasting

theorem KeepsLasting.trans {d'' : Document} (h : KeepsLasting d d') (h' : KeepsLasting d' d'') :
    KeepsLasting d d'' :=
  fun j => (h' j).trans (h j)

theorem KeepsLasting.element?_eq (h : KeepsLasting d d') (j : NodeId) :
    (d'.element? j = none ∧ d.element? j = none) ∨
      ∃ e e', d.element? j = some e ∧ d'.element? j = some e' ∧ e'.lasting = e.lasting := by
  have hj := h j
  cases he : d.element? j with
  | none =>
    rw [he, Option.map_none, Option.map_eq_none_iff] at hj
    exact .inl ⟨hj, rfl⟩
  | some e =>
    rw [he, Option.map_some] at hj
    obtain ⟨e', he', hlasting⟩ := Option.map_eq_some_iff.1 hj
    exact .inr ⟨e, e', rfl, he', hlasting⟩

theorem KeepsLasting.element?_cases {P : QName → Prop} {drops : Element → Prop}
    (h : KeepsLasting d d') (hedits : Document.Edits P drops d d') (j : NodeId) :
    (d'.element? j = none ∧ d.element? j = none) ∨
      ∃ e e', d.element? j = some e ∧ d'.element? j = some e' ∧
        e'.name = e.name ∧ e'.lasting = e.lasting := by
  refine (h.element?_eq j).imp_right fun ⟨e, e', he, he', hlasting⟩ => ?_
  obtain ⟨e'', he'', hname⟩ := hedits.name_of_element? he
  obtain rfl := Option.some.inj (he'.symm.trans he'')
  exact ⟨e, e', he, he', hname, hlasting⟩

theorem IsHoistable.keepsLasting_hoist {group : Element} {moved : List Attribute}
    (h : IsHoistable d id group moved) (hd : d.IsForest) : KeepsLasting d (hoist d id moved) := by
  intro j
  rw [h.element?_hoist hd]
  split
  · next hj =>
    rw [hj, h.element, Option.map_some, Option.map_some,
      Element.lasting_foldl_putJoined h.inherited]
  · split
    · rw [Option.map_map]
      refine Option.map_congr fun e _ => Element.lasting_filterAttrs fun a _ ha => ?_
      have hmem : a.name ∈ moved.map (·.name) := by simpa using ha
      obtain ⟨b, hb, hname⟩ := List.mem_map.1 hmem
      rw [← hname]
      exact h.inherited b hb
    · rfl

theorem keepsLasting_lower (hd : d.IsForest) (hg : d.isNamed id "g" = true) :
    KeepsLasting d (lower d id) := by
  rcases lower_cases hg with hsame | ⟨c, group, child, h, hlowered⟩
  · rw [hsame]
    exact fun _ => rfl
  · have hlowered : lower d id = lowered d id c group.attributes := hlowered
    intro j
    rw [hlowered, h.element?_lowered hd]
    split
    · next hj =>
      rw [hj, h.outer, Option.map_some, Option.map_some,
        Element.lasting_filterAttrs fun a ha _ => h.inherited ha]
    · split
      · next hj =>
        rw [hj, h.inner, Option.map_some, Option.map_some,
          Element.lasting_foldl_putJoined fun a ha => h.inherited ha]
      · rfl

theorem keepsLasting_unwrap (d : Document) (id : NodeId) : KeepsLasting d (d.unwrap id) :=
  fun j => congrArg (Option.map Element.lasting) (Document.element?_unwrap d id j)

theorem keepsLasting_run {pass : Pass} (hpass : pass ∈ [moveSharedToGroup, collapseGroups])
    (hd : d.IsCoherent) : (pass.run d).IsCoherent ∧ KeepsLasting d (pass.run d) := by
  simp only [List.mem_cons, List.not_mem_nil, or_false] at hpass
  rcases hpass with rfl | rfl
  · refine keeps_moveSharedToGroup (Q := fun d' => d'.IsCoherent ∧ KeepsLasting d d')
      (fun d' id hd' hmoved => ?_) ⟨hd, fun _ => rfl⟩
    obtain ⟨group, h⟩ := isHoistable_hoistedFrom hd'.1.toIsSound id hmoved
    exact ⟨h.isCoherent_hoist hd'.1, hd'.2.trans (h.keepsLasting_hoist hd'.1.isForest)⟩
  · refine keeps_collapseGroups (Q := fun d' => d'.IsCoherent ∧ KeepsLasting d d')
      (fun d' id hd' hg => ?_) ⟨hd, fun _ => rfl⟩
    obtain ⟨hcoherent, hregrouped⟩ := isRegrouped_lower hd'.1 hg
    have hlower := hd'.2.trans (keepsLasting_lower hd'.1.isForest hg)
    refine ⟨⟨hcoherent, hlower⟩, fun hbare => ?_⟩
    have hg' := (hregrouped.named id "g").trans hg
    exact ⟨(isRegrouped_unwrap hcoherent hg' hbare).1, hlower.trans (keepsLasting_unwrap _ id)⟩

end Pass
end SvgCompact
