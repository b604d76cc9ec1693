import SvgCompact.Proofs.Inlining.Preservation
import SvgCompact.Proofs.Pass.Lasting
import SvgCompact.Proofs.Selector.Restyled

/-!
Moving attributes beside style sheets.

The value of a property at an element is that of the declaration that wins there, over
the style of the element and the rules that match it; or else that of its attribute; or
else it is inherited.  The passes over groups look at styles and not at rules: what moves
onto a group comes behind a rule that matches the group, and with a group goes what rules
said of it.  Apart from rules that match groups, all elements keep their values where the
rules match as before.
-/

namespace SvgCompact

open Inlining (Applies cascaded clausesOf sheetsOf)

namespace Document

/-- The declaration that wins for a property at a node, over its own and those of the rules
that match it. -/
def winner? (d : Document) (p : String) (id : NodeId) : Option Declaration :=
  cascaded (d.declarationAt id p) ((clausesOf (sheetsOf d)).filterMap (·.bid? d id p))

/-- The value of a property that a node has itself: by the cascade, or by its attribute. -/
def styled? (d : Document) (p : String) (id : NodeId) : Option String :=
  ((d.winner? p id).map (·.value)).or ((d.element? id).bind (·.attr? p))

/-- The value of a property at a node: its own, or else the nearest above. -/
def computed? (d : Document) (p : String) (id : NodeId) : Option String :=
  (id :: d.ancestors id).findSome? (d.styled? p)

/-- The value of a property at a node if rules do not count at groups. -/
def computedBesideGroups? (d : Document) (p : String) (id : NodeId) : Option String :=
  (id :: d.ancestors id).findSome? fun a =>
    if d.isNamed a "g" then d.property? p a else d.styled? p a

/-- Whether the rules of two documents are the same, and match a node and the nodes above
it alike, groups apart. -/
structure HasSameRules (d d' : Document) (p : String) (id : NodeId) : Prop where
  clauses : clausesOf (sheetsOf d') = clausesOf (sheetsOf d)
  bids : ∀ c ∈ clausesOf (sheetsOf d), ∀ a ∈ id :: d.ancestors id, d.isNamed a "g" = false →
    c.bid? d' a p = c.bid? d a p

/-- Whether no rule that declares a property matches a group around a node. -/
def HasFreeGroups (d : Document) (p : String) (id : NodeId) : Prop :=
  ∀ c ∈ clausesOf (sheetsOf d), ∀ a ∈ id :: d.ancestors id, d.isNamed a "g" = true →
    c.bid? d a p = none

/-- Whether no rule that declares a property tests an inherited attribute. -/
def TestsNoInherited (d : Document) (p : String) : Prop :=
  ∀ c ∈ clausesOf (sheetsOf d), (Style.ofDeclarations c.declarations).find? p ≠ none →
    ∀ selector, ComplexSelector.read c.text = .ok selector →
      ∀ s ∈ selector.testedAttributes, Inheritance.isInherited s = false

variable {d d' d'' : Document} {p : String} {id : NodeId}

/-! ## What a node has itself -/

/-- The winner is the outcome of the cascade. -/
theorem isOutcome_winner? (d : Document) (p : String) (id : NodeId) :
    Inlining.Candidate.IsOutcome (Applies d (sheetsOf d) id p) (d.winner? p id) :=
  Inlining.isOutcome_applies d id p (sheetsOf d)

theorem declarationAt_of_winner? (h : d.winner? p id = none) : d.declarationAt id p = none := by
  have hnone := (isOutcome_winner? d p id).eq_none_iff.1 h
  cases hx : d.declarationAt id p with
  | none => rfl
  | some x => exact absurd (.own hx) (hnone _)

theorem property?_eq (d : Document) (p : String) (id : NodeId) :
    d.property? p id =
      ((d.declarationAt id p).map (·.value)).or ((d.element? id).bind (·.attr? p)) := by
  rw [property?, declarationAt]
  cases d.element? id with
  | none => rfl
  | some e =>
    rw [Option.bind_some, Option.bind_some, Option.bind_some, Element.property?_eq_or]
    rfl

/-- Where nothing wins the style has nothing to say either. -/
theorem styled?_eq (d : Document) (p : String) (id : NodeId) :
    d.styled? p id = ((d.winner? p id).map (·.value)).or (d.property? p id) := by
  rw [styled?, property?_eq]
  cases hwinner : d.winner? p id with
  | some x => rfl
  | none =>
    rw [declarationAt_of_winner? hwinner]
    rfl

theorem styled?_of_free (h : ∀ c ∈ clausesOf (sheetsOf d), c.bid? d id p = none) :
    d.styled? p id = d.property? p id := by
  have hwinner : d.winner? p id = d.declarationAt id p := by
    rw [winner?, List.filterMap_eq_nil_iff.2 h]
    simp [cascaded]
  rw [styled?, property?_eq, hwinner]

theorem findSome?_congr {α β : Type} {f g : α → Option β} {l : List α} (h : ∀ a ∈ l, f a = g a) :
    l.findSome? f = l.findSome? g := by
  induction l with
  | nil => rfl
  | cons a rest ih =>
    rw [List.findSome?_cons, List.findSome?_cons, h a List.mem_cons_self,
      ih fun b hb => h b (List.mem_cons_of_mem a hb)]

theorem computed?_of_free (h : d.HasFreeGroups p id) :
    d.computed? p id = d.computedBesideGroups? p id := by
  refine findSome?_congr fun a ha => ?_
  split
  · next hg => exact styled?_of_free fun c hc => h c hc a ha hg
  · rfl

/-! ## Documents whose groups change beside rules -/

/-- The value at a node, where rules say what `given` holds. -/
def resolvedBeside? (given : NodeId → Option String) (d : Document) (p : String) (id : NodeId) :
    Option String :=
  (id :: d.ancestors id).findSome? fun a => (given a).or (d.property? p a)

/-- Whether documents differ in nothing that elements other than groups see of a property,
beside rules that say nothing of groups. -/
structure IsRegroupedBeside (given : NodeId → Option String) (p : String) (d d' : Document) :
    Prop where
  named : ∀ id s, d'.isNamed id s = d.isNamed id s
  declared : ∀ id, d'.declarationAt id p = d.declarationAt id p
  above : ∀ a id, d'.IsAbove a id → d.IsAbove a id
  resolved : ∀ id, d.isNamed id "g" = false →
    d'.resolvedBeside? given p id = d.resolvedBeside? given p id

namespace IsRegroupedBeside

variable {given : NodeId → Option String}

theorem refl (given : NodeId → Option String) (p : String) (d : Document) :
    IsRegroupedBeside given p d d :=
  ⟨fun _ _ => rfl, fun _ => rfl, fun _ _ => id, fun _ _ => rfl⟩

theorem trans (h : IsRegroupedBeside given p d d') (h' : IsRegroupedBeside given p d' d'') :
    IsRegroupedBeside given p d d'' where
  named id s := (h'.named id s).trans (h.named id s)
  declared id := (h'.declared id).trans (h.declared id)
  above a id ha := h.above a id (h'.above a id ha)
  resolved id hid :=
    (h'.resolved id ((h.named id "g").trans hid)).trans (h.resolved id hid)

/-- Attributes of a group and its children may change where no child sees a difference. -/
theorem of_shifted (hd : d.IsForest) (h : d.IsRestyled d')
    (hnamed : ∀ id s, d'.isNamed id s = d.isNamed id s) (hid : given id = none)
    (hg : d.isNamed id "g" = true)
    (hdeclared : ∀ j, d'.declarationAt j p = d.declarationAt j p)
    (hothers : ∀ j, j ≠ id → d.parent j ≠ some id → d'.element? j = d.element? j)
    (hproperty : ∀ c, d.parent c = some id →
      (d'.property? p c).or (d'.property? p id) = (d.property? p c).or (d.property? p id)) :
    IsRegroupedBeside given p d d' := by
  have hd' : d'.IsForest := hd.of_links h.parent_eq h.children_eq
  refine ⟨hnamed, hdeclared, fun a j ha => ?_, fun j hj => ?_⟩
  · exact ha.mono fun c q hc => (h.parent_eq c).symm.trans hc
  · have hne : j ≠ id := by
      rintro rfl
      rw [hg] at hj
      cases hj
    rw [resolvedBeside?, resolvedBeside?, findSome?_eq_gathered, findSome?_eq_gathered]
    refine hd.gathered_of_shifted hd' (fun x y z => Option.or_assoc.symm) h.parent_eq
      (fun i hi hp => ?_) (fun c hc => ?_) hne
    · rw [property?, property?, hothers i hi hp]
    · rw [hid, Option.none_or, Option.none_or, Option.or_assoc, Option.or_assoc, hproperty c hc]

end IsRegroupedBeside

end Document

namespace Pass

open Document (IsCoherent IsRegroupedBeside)

variable {d : Document} {id c : NodeId} {p : String} {given : NodeId → Option String}

/-! ## The steps -/

theorem IsHoistable.isRegroupedBeside_hoist {group : Element} {moved : List Attribute}
    (h : IsHoistable d id group moved) (hd : d.IsCoherent) (hid : given id = none)
    (hp : Inheritance.isInherited p = true) (hpt : p ≠ "transform") :
    IsRegroupedBeside given p d (hoist d id moved) := by
  have hnames : ∀ a ∈ moved, a.name ≠ QName.plain "style" := fun a ha => (h.inherited a ha).ne_style
  refine .of_shifted hd.isForest (isRestyled_hoist d id moved) (h.isRegrouped_hoist hd).named hid
    (Document.isNamed_iff.2 ⟨group, h.element, h.named⟩) (fun j => ?_) (fun j hj hp => ?_)
    fun c hc => h.property?_shifted hd hc hp hpt
  · rw [Document.declarationAt, Document.declarationAt, h.element?_hoist hd.isForest]
    split
    · next hj =>
      rw [hj, h.element, Option.bind_some, Option.bind_some, style_foldl_putJoined hnames]
    · split
      · cases he : d.element? j with
        | none => rfl
        | some e =>
          have hkept : (!(moved.map (·.name)).contains (QName.plain "style")) = true := by
            simpa using hnames
          rw [Option.map_some, Option.bind_some, Option.bind_some,
            Element.style_filterAttrs (q := fun n => !(moved.map (·.name)).contains n)
              (hd.fresh j e he) hkept]
      · rfl
  · rw [h.element?_hoist hd.isForest, if_neg hj, if_neg hp]

theorem isRegroupedBeside_lower (hd : d.IsCoherent) (hg : d.isNamed id "g" = true)
    (hid : given id = none) (hp : Inheritance.isInherited p = true) (hpt : p ≠ "transform") :
    IsRegroupedBeside given p d (lower d id) := by
  rcases lower_cases hg with hsame | ⟨c, group, child, h, hlowered⟩
  · rw [hsame]
    exact .refl given p d
  · have hnamed := (isRegrouped_lower hd hg).2.named
    have hlowered : lower d id = lowered d id c group.attributes := hlowered
    rw [hlowered] at hnamed ⊢
    have hshape := isRestyled_lowered d id c group.attributes
    refine .of_shifted hd.isForest hshape hnamed hid hg (fun j => ?_) (fun j hj hp => ?_)
      fun c' hc' => ?_
    · rw [Document.declarationAt, Document.declarationAt, h.element?_lowered hd.isForest]
      split
      · next hj =>
        have hbare : (group.filterAttrs fun _ => false).style = Style.empty := by
          rw [(Element.isFresh_filterAttrs _ group).style,
            Element.attr?_of_attributes_nil (by simp)]
          rfl
        rw [hj, h.outer, Option.bind_some, Option.bind_some, h.style_group hd, hbare]
      · split
        · next hj =>
          rw [hj, h.inner, Option.bind_some, Option.bind_some,
            style_foldl_putJoined fun a ha => (h.inherited ha).ne_style]
        · rfl
    · rw [h.element?_lowered hd.isForest, if_neg hj,
        if_neg fun heq => hp ((h.parent_iff hd.isForest j).2 heq)]
    · obtain rfl := (h.parent_iff hd.isForest c').1 hc'
      exact h.property?_shifted hd hp hpt

theorem isAbove_of_unwrap (hd : d.IsForest) {a j : NodeId} (h : (d.unwrap id).IsAbove a j) :
    d.IsAbove a j := by
  cases hid : d.parent id with
  | none =>
    rw [Document.unwrap_of_parent_none hid] at h
    exact h
  | some q =>
    refine Relation.TransGen.trans_induction_on h (fun {a j} hlink => ?_) fun _ _ => .trans
    rw [hd.parent_unwrap hid] at hlink
    split at hlink
    · next hj =>
      obtain rfl := Option.some.inj hlink
      exact (Document.isAbove_of_parent hid).tail hj
    · split at hlink
      · cases hlink
      · exact Document.isAbove_of_parent hlink

theorem isRegroupedBeside_unwrap (hd : d.IsCoherent) (hg : d.isNamed id "g" = true)
    (hid : given id = none) (hbare : (d.element? id).any (·.attributes.isEmpty) = true) :
    IsRegroupedBeside given p d (d.unwrap id) := by
  have hcontent := Document.element?_unwrap d id
  have hproperty : (d.unwrap id).property? p = d.property? p := by
    funext j
    rw [Document.property?, hcontent, Document.property?]
  refine ⟨(isRegrouped_unwrap hd hg hbare).2.named, fun j => ?_,
    fun a j => isAbove_of_unwrap hd.isForest, fun j hj => ?_⟩
  · rw [Document.declarationAt, hcontent, Document.declarationAt]
  · obtain ⟨group, hgroup, hnil⟩ := (Option.any_eq_true _ _).1 hbare
    have hown : (given id).or (d.property? p id) = none := by
      rw [hid, Option.none_or, Document.property?, hgroup]
      exact Element.property?_of_attributes_nil (hd.fresh id group hgroup)
        (List.isEmpty_iff.1 hnil) p
    have hne : j ≠ id := by
      rintro rfl
      rw [hg] at hj
      cases hj
    rw [Document.resolvedBeside?, Document.resolvedBeside?, hproperty,
      Document.findSome?_eq_gathered, Document.findSome?_eq_gathered]
    exact hd.isForest.gathered_unwrap _ (fun x => rfl) hown hne

/-! ## The passes -/

theorem isRegroupedBeside_run {pass : Pass} (hpass : pass ∈ [moveSharedToGroup, collapseGroups])
    (hd : d.IsCoherent) (hgiven : ∀ g, d.isNamed g "g" = true → given g = none)
    (hp : Inheritance.isInherited p = true) (hpt : p ≠ "transform") :
    IsRegroupedBeside given p d (pass.run d) := by
  have hfree : ∀ {d' : Document} {g : NodeId}, IsRegroupedBeside given p d d' →
      d'.isNamed g "g" = true → given g = none := fun h hg =>
    hgiven _ ((h.named _ "g").symm.trans hg)
  simp only [List.mem_cons, List.not_mem_nil, or_false] at hpass
  rcases hpass with rfl | rfl
  · refine (keeps_moveSharedToGroup
      (Q := fun d' => d'.IsCoherent ∧ IsRegroupedBeside given p d d') (fun d' id hd' hmoved => ?_)
      ⟨hd, .refl given p d⟩).2
    obtain ⟨group, h⟩ := isHoistable_hoistedFrom hd'.1.toIsSound id hmoved
    have hg := Document.isNamed_iff.2 ⟨group, h.element, h.named⟩
    exact ⟨h.isCoherent_hoist hd'.1,
      hd'.2.trans (h.isRegroupedBeside_hoist hd'.1 (hfree hd'.2 hg) hp hpt)⟩
  · refine (keeps_collapseGroups
      (Q := fun d' => d'.IsCoherent ∧ IsRegroupedBeside given p d d') (fun d' id hd' hg => ?_)
      ⟨hd, .refl given p d⟩).2
    have hid := hfree hd'.2 hg
    obtain ⟨hcoherent, hregrouped⟩ := isRegrouped_lower hd'.1 hg
    have hlower := hd'.2.trans (isRegroupedBeside_lower hd'.1 hg hid hp hpt)
    refine ⟨⟨hcoherent, hlower⟩, fun hbare => ?_⟩
    have hg' := (hregrouped.named id "g").trans hg
    exact ⟨(isRegrouped_unwrap hcoherent hg' hbare).1,
      hlower.trans (isRegroupedBeside_unwrap hcoherent hg' hid hbare)⟩

/-- Both passes keep, at every element that is no group, the value of each inherited
attribute that it has if rules do not count at groups, where rules match as before.  If no
rule for it matches a group around the element, that is the value. -/
theorem computed_of_hasSameRules {pass : Pass} (hpass : pass ∈ [moveSharedToGroup, collapseGroups])
    (hd : d.IsCoherent) (hid : d.isNamed id "g" = false)
    (hp : Inheritance.isInherited p = true) (hpt : p ≠ "transform")
    (hrules : d.HasSameRules (pass.run d) p id) :
    (pass.run d).computedBesideGroups? p id = d.computedBesideGroups? p id ∧
      (d.HasFreeGroups p id → (pass.run d).HasFreeGroups p id →
        (pass.run d).computed? p id = d.computed? p id) := by
  let given : NodeId → Option String := fun a =>
    if d.isNamed a "g" then none else (d.winner? p a).map (·.value)
  have hregrouped : IsRegroupedBeside given p d (pass.run d) :=
    isRegroupedBeside_run hpass hd (fun g hg => if_pos hg) hp hpt
  have hd' := (keepsLasting_run hpass hd).1
  have hbefore : d.computedBesideGroups? p id = d.resolvedBeside? given p id := by
    refine Document.findSome?_congr fun a _ => ?_
    dsimp only [given]
    split
    · rw [Option.none_or]
    · exact d.styled?_eq p a
  have hafter : (pass.run d).computedBesideGroups? p id =
      (pass.run d).resolvedBeside? given p id := by
    refine Document.findSome?_congr fun a ha => ?_
    dsimp only [given]
    rw [hregrouped.named]
    split
    · rw [Option.none_or]
    · next hg =>
      have hup : a ∈ id :: d.ancestors id := by
        rw [List.mem_cons, hd'.isForest.mem_ancestors_iff] at ha
        rw [List.mem_cons, hd.isForest.mem_ancestors_iff]
        exact ha.imp_right (hregrouped.above a id)
      have hbids : (clausesOf (sheetsOf (pass.run d))).filterMap (·.bid? (pass.run d) a p) =
          (clausesOf (sheetsOf d)).filterMap (·.bid? d a p) := by
        rw [hrules.clauses]
        exact List.filterMap_congr fun c hc => hrules.bids c hc a hup (Bool.not_eq_true _ ▸ hg)
      have hwinner : (pass.run d).winner? p a = d.winner? p a := by
        rw [Document.winner?, Document.winner?, hregrouped.declared, hbids]
      rw [Document.styled?_eq, hwinner]
  have hbeside : (pass.run d).computedBesideGroups? p id = d.computedBesideGroups? p id := by
    rw [hafter, hregrouped.resolved id hid, hbefore]
  refine ⟨hbeside, fun hfree hfree' => ?_⟩
  rw [Document.computed?_of_free hfree, Document.computed?_of_free hfree', hbeside]

/-! ## Rules that moving attributes up leaves alone -/

/-- Where the nodes stand as before and only inherited attributes have moved, all that rules
ask for is kept. -/
theorem isRepainted_of_keepsLasting {P : QName → Prop} {drops : Element → Prop} {d' : Document}
    (hd : d.IsCoherent) (hd' : d'.IsCoherent) (hrestyled : d.IsRestyled d')
    (hedits : Document.Edits P drops d d') (hlasting : KeepsLasting d d') {names : List String}
    (hnames : ∀ s ∈ names, Inheritance.isInherited s = false) : d.IsRepainted names d' := by
  refine ⟨hrestyled, hd.toIsRooted, hd'.toIsRooted, fun j => ?_, fun j => ?_, fun s hs j => ?_⟩
  · rcases hlasting.element?_cases hedits j with ⟨hnone', hnone⟩ | ⟨e, e', he, he', hname, -⟩
    · rw [hnone', hnone]
    · rw [he, he', Option.map_some, Option.map_some, hname]
  · rcases hlasting.element?_cases hedits j with ⟨hnone', hnone⟩ | ⟨e, e', he, he', -, hsame⟩
    · rw [hnone', hnone]
    · rw [he, he', Option.map_some, Option.map_some, (hd.fresh j e he).classes,
        (hd'.fresh j e' he').classes, Element.attr?_of_lasting hsame (by decide)]
  · have hs : Inheritance.isInherited s = false := by
      rcases List.mem_cons.1 hs with rfl | hs
      · decide
      · exact hnames s hs
    rcases hlasting.element?_cases hedits j with ⟨hnone', hnone⟩ | ⟨e, e', he, he', -, hsame⟩
    · rw [hnone', hnone]
    · rw [he, he', Option.bind_some, Option.bind_some, Element.attr?_of_lasting hsame hs]

theorem isRepainted_moveSharedToGroup (hd : d.IsCoherent) {names : List String}
    (hnames : ∀ s ∈ names, Inheritance.isInherited s = false) :
    d.IsRepainted names (moveSharedToGroup.run d) := by
  have hmember : moveSharedToGroup ∈ [moveSharedToGroup, collapseGroups] := List.mem_cons_self
  obtain ⟨hd', hlasting⟩ := keepsLasting_run hmember hd
  have hedits : Document.Edits (fun _ => True) (fun _ => False) d (moveSharedToGroup.run d) :=
    isStepwise_moveSharedToGroup.isEditing d hd.toIsSound
  have hrestyled : d.IsRestyled (moveSharedToGroup.run d) :=
    keeps_moveSharedToGroup (Q := d.IsRestyled)
      (fun d' id h _ => h.trans (isRestyled_hoist d' id _)) (.refl d)
  exact isRepainted_of_keepsLasting hd hd' hrestyled hedits hlasting hnames

theorem bid?_congr {d' : Document} {c : Inlining.Clause} {a : NodeId}
    (h : ∀ selector, ComplexSelector.read c.text = .ok selector →
      (Style.ofDeclarations c.declarations).find? p ≠ none →
        (a ∈ d'.select Document.root [selector] ↔ a ∈ d.select Document.root [selector])) :
    c.bid? d' a p = c.bid? d a p := by
  rw [Inlining.Clause.bid?, Inlining.Clause.bid?]
  cases hread : ComplexSelector.read c.text with
  | error e => rfl
  | ok selector =>
    cases hdeclared : (Style.ofDeclarations c.declarations).find? p with
    | none => simp
    | some x => simp only [h selector hread (by simp [hdeclared])]

/-- Rules that test no inherited attribute are the same when attributes have moved up, and
match the same elements. -/
theorem hasSameRules_moveSharedToGroup (hd : d.IsCoherent) (htests : d.TestsNoInherited p)
    (id : NodeId) :
    d.HasSameRules (moveSharedToGroup.run d) p id ∧
      (d.HasFreeGroups p id → (moveSharedToGroup.run d).HasFreeGroups p id) := by
  have htyped : d.IsRepainted ["type"] (moveSharedToGroup.run d) :=
    isRepainted_moveSharedToGroup hd (by decide)
  have hsheets : sheetsOf (moveSharedToGroup.run d) = sheetsOf d :=
    htyped.sheetsOf_eq List.mem_cons_self
  have hbids : ∀ c ∈ clausesOf (sheetsOf d), ∀ a,
      c.bid? (moveSharedToGroup.run d) a p = c.bid? d a p := by
    refine fun c hc a => bid?_congr fun selector hread hdeclared => ?_
    have htested := htests c hc hdeclared selector hread
    rw [(isRepainted_moveSharedToGroup hd htested).select_eq fun _ hs => hs]
  refine ⟨⟨by rw [hsheets], fun c hc a _ _ => hbids c hc a⟩, fun hfree c hc a ha hg => ?_⟩
  rw [hsheets] at hc
  rw [htyped.ancestors_eq] at ha
  rw [htyped.isNamed_eq] at hg
  rw [hbids c hc a, hfree c hc a ha hg]

end Pass
end SvgCompact
