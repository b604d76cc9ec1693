import SvgCompact.Plugin
import SvgCompact.Proofs.Document.Editing
import SvgCompact.Proofs.Pass.Walks

/-!
Every pass of this library is a sequence of edits.

A walk edits if its visits do.  The passes are gone through one by one; what each of
them may drop is stated with it, and only one of them can drop an `svg` element.
-/

namespace SvgCompact

open Document (Edit Edits)

variable {P : QName → Prop} {drops : Element → Prop}

/-- A visit that edits, and that drops a node only when that is an edit as well. -/
structure Visit.IsEditing (P : QName → Prop) (drops : Element → Prop) (visit : Visit) : Prop where
  edits : ∀ d id, d.IsSound P → Edits P drops d (visit d id).1
  drop : ∀ d id, d.IsSound P → (visit d id).2 = .drop →
    ∀ e, (visit d id).1.element? id = some e → drops e

def Pass.IsEditing (P : QName → Prop) (drops : Element → Prop) (pass : Pass) : Prop :=
  ∀ d, d.IsSound P → Edits P drops d (pass.run d)

/-! ## Walks -/

namespace Visit.IsEditing

variable {visit : Visit} {σ : Type}

theorem edits_drop (h : visit.IsEditing P drops) {d : Document} (hd : d.IsSound P) {id : NodeId}
    (hv : (visit d id).2 = .drop) : Edits P drops d ((visit d id).1.detach id) :=
  (h.edits d id hd).trans (.edit (.detach id (h.drop d id hd hv)))

theorem parentsFirst (h : visit.IsEditing P drops) (n : Nat) (parent : NodeId) (s : σ × Document)
    (hs : s.2.IsSound P) (id : NodeId) :
    Edits P drops s.2 (Walk.parentsFirst visit.visitor n parent s id).2 := by
  induction n generalizing parent s id with
  | zero => exact .refl _
  | succ n ih =>
    by_cases hp : s.2.parent id = some parent
    · cases hv : (visit s.2 id).2 with
      | drop =>
        rw [Walk.parentsFirst_drop hp hv]
        exact h.edits_drop hs hv
      | keep =>
        rw [Walk.parentsFirst_keep hp hv]
        have hvisit := h.edits s.2 id hs
        exact hvisit.trans (Edits.foldl_view (·.2) (fun s hs c _ => ih id s hs c)
          (s := (s.1, (visit s.2 id).1)) (hvisit.isSound hs))
    · rw [Walk.parentsFirst_away hp]
      exact .refl _

theorem childrenFirst (h : visit.IsEditing P drops) (n : Nat) (parent : NodeId) (s : σ × Document)
    (hs : s.2.IsSound P) (id : NodeId) :
    Edits P drops s.2 (Walk.childrenFirst visit.visitor n parent s id).2 := by
  induction n generalizing parent s id with
  | zero => exact .refl _
  | succ n ih =>
    have hbelow := Edits.foldl_view (·.2) (l := s.2.children id)
      (fun s hs c _ => ih id s hs c) hs
    generalize ht : (s.2.children id).foldl (Walk.childrenFirst visit.visitor n id) s = t
      at hbelow
    have hsound := hbelow.isSound hs
    by_cases hp : t.2.parent id = some parent
    · cases hv : (visit t.2 id).2 with
      | drop =>
        rw [Walk.childrenFirst_drop ht hp hv]
        exact hbelow.trans (h.edits_drop hsound hv)
      | keep =>
        rw [Walk.childrenFirst_keep ht hp hv]
        exact hbelow.trans (h.edits t.2 id hsound)
    · rwa [Walk.childrenFirst_away ht hp]

theorem topDown (h : visit.IsEditing P drops) : (Pass.topDown visit).IsEditing P drops :=
  fun d hd => Edits.foldl_view (·.2) (s := ((), d))
    (fun s hs c _ => h.parentsFirst _ Document.root s hs c) hd

theorem bottomUp (h : visit.IsEditing P drops) : (Pass.bottomUp visit).IsEditing P drops :=
  fun d hd => Edits.foldl_view (·.2) (s := ((), d))
    (fun s hs c _ => h.childrenFirst _ Document.root s hs c) hd

theorem mono {drops' : Element → Prop} (h : visit.IsEditing P drops)
    (hdrops : ∀ e, drops e → drops' e) : visit.IsEditing P drops' where
  edits d id hd := (h.edits d id hd).mono hdrops
  drop d id hd hv e he := hdrops e (h.drop d id hd hv e he)

end Visit.IsEditing

namespace Pass

/-- Whether a pass edits step by step, at once or with each visit of its walk. -/
def IsStepwise (P : QName → Prop) (drops : Element → Prop) : Pass → Prop
  | whole f => ∀ d, d.IsSound P → Edits P drops d (f d)
  | topDown visit => visit.IsEditing P drops
  | bottomUp visit => visit.IsEditing P drops

theorem IsStepwise.isEditing {pass : Pass} (h : pass.IsStepwise P drops) :
    pass.IsEditing P drops := by
  cases pass with
  | whole f => exact h
  | topDown visit => exact Visit.IsEditing.topDown h
  | bottomUp visit => exact Visit.IsEditing.bottomUp h

theorem IsStepwise.mono {drops' : Element → Prop} {pass : Pass} (h : pass.IsStepwise P drops)
    (hdrops : ∀ e, drops e → drops' e) : pass.IsStepwise P drops' := by
  cases pass with
  | whole f => exact fun d hd => (h d hd).mono hdrops
  | topDown visit => exact Visit.IsEditing.mono h hdrops
  | bottomUp visit => exact Visit.IsEditing.mono h hdrops

end Pass

/-! ## Names -/

/-- A name without label is compared with the whole of a name. -/
theorem QName.isNamed_unique {n : QName} {s t : String} (hs : QName.read s = QName.plain s)
    (hns : n.isNamed s = true) (hnt : n.isNamed t = true) : s = t := by
  unfold QName.isNamed at hns hnt
  split at hns
  · next hn =>
    simp only [hn] at hnt
    rw [← eq_of_beq hns, ← eq_of_beq hnt]
  · next space hn =>
    rw [eq_of_beq hns, hs] at hn
    cases hn

namespace Element

/-- What every pass but one may drop. -/
def IsNoSvg (e : Element) : Prop := e.isNamed "svg" = false

theorem isNoSvg_of_isNamed {e : Element} {s : String} (hs : QName.read s = QName.plain s)
    (hne : s ≠ "svg") (h : e.isNamed s = true) : e.IsNoSvg := by
  refine Bool.eq_false_iff.2 fun hsvg => ?_
  exact hne (QName.isNamed_unique hs h hsvg)

end Element

open Element

theorem Document.isNoSvg_of_isNamed {d : Document} {id : NodeId} {s : String}
    (hs : QName.read s = QName.plain s) (hne : s ≠ "svg") (h : d.isNamed id s = true) :
    ∀ e, d.element? id = some e → e.IsNoSvg := by
  intro e he
  obtain ⟨e', he', hname⟩ := Document.isNamed_iff.1 h
  obtain rfl : e' = e := Option.some.inj (he'.symm.trans he)
  exact Element.isNoSvg_of_isNamed hs hne hname

/-! ## The simple kinds of visits -/


theorem Visit.isEditing_dropping {p : Content → Bool}
    (hp : ∀ e, p (.element e) = true → drops e) : (Visit.dropping p).IsEditing P drops where
  edits d id _ := .refl d
  drop d id _ hv e he := by
    unfold Visit.dropping at hv he
    simp only at hv he
    rw [Content.eq_element_of_element? he] at hv
    split at hv
    · next hpe => exact hp e hpe
    · cases hv

theorem Visit.isEditing_rewriting {f : Element → Element} (hf : ∀ e, IsRevision P e (f e)) :
    (Visit.rewriting f).IsEditing P drops where
  edits d id _ := .rewrite id hf
  drop d id _ hv := by cases hv

namespace Pass

theorem isStepwise_removeDoctype : removeDoctype.IsStepwise P drops :=
  Visit.isEditing_dropping fun e he => by cases he

theorem isStepwise_removeDeclaration : removeDeclaration.IsStepwise P drops :=
  Visit.isEditing_dropping fun e he => by cases he

theorem isStepwise_removeComments : removeComments.IsStepwise P drops :=
  Visit.isEditing_dropping fun e he => by cases he

theorem isRevision_shortenColors [QName.Admits P] (e : Element) :
    IsRevision P e (shortenColors e) := by
  unfold shortenColors
  have hmap := @isRevision_mapAttrs P e fun name value =>
    if name.space.isNone && Color.isProperty name.stem then some (Color.shorten value) else none
  simp only
  split
  · exact hmap
  · exact hmap.trans (isRevision_replaceStyle _ _)

theorem isStepwise_minifyColors [QName.Admits P] : minifyColors.IsStepwise P drops :=
  Visit.isEditing_rewriting isRevision_shortenColors

theorem isRevision_rewritePath [QName.Admits P] (format : PathFormat) (e : Element) :
    IsRevision P e (rewritePath format e) := by
  rw [rewritePath]
  split
  · split
    · exact isRevision_setPathData e _
    · exact .refl e
  · exact .refl e

theorem isStepwise_convertPathData [QName.Admits P] (precision : Option Nat) :
    (convertPathData precision).IsStepwise P drops :=
  Visit.isEditing_rewriting (isRevision_rewritePath _)

theorem isStepwise_removeXmlns : removeXmlns.IsStepwise P drops := by
  refine Visit.isEditing_rewriting fun e => ?_
  split
  · exact isRevision_removeAttr e _
  · exact .refl e

/-! ## Passes over elements -/

theorem isNoSvg_of_isDescriptive {e : Element} (h : isDescriptive e = true) : e.IsNoSvg := by
  rw [isDescriptive, Bool.or_eq_true] at h
  rcases h with h | h
  · obtain ⟨s, hs, hname⟩ := List.any_eq_true.1 h
    have hplain : ∀ s ∈ ["metadata", "title", "desc"],
        QName.read s = QName.plain s ∧ s ≠ "svg" := by
      decide
    exact Element.isNoSvg_of_isNamed (hplain s hs).1 (hplain s hs).2 hname
  · refine Bool.eq_false_iff.2 fun hsvg => ?_
    unfold Element.isNamed QName.isNamed at hsvg
    split at hsvg
    · next hn => simp [isEditorName, hn] at h
    · next space hn =>
      rw [eq_of_beq hsvg] at hn
      cases hn

theorem isStepwise_removeMetadata : removeMetadata.IsStepwise P IsNoSvg := by
  refine Visit.IsEditing.mk (fun d id _ => ?_) fun d id _ hv e he => ?_
  · split
    · split
      · exact .refl d
      · exact .rewrite id fun e => isRevision_filterAttrs e _
    · exact .refl d
  · split at hv
    · next e' he' =>
      split at hv
      · next hdescriptive =>
        simp only [he', hdescriptive, if_true] at he
        obtain rfl : e' = e := Option.some.inj he
        exact isNoSvg_of_isDescriptive hdescriptive
      · cases hv
    · cases hv

theorem isStepwise_removeDefaults : removeDefaults.IsStepwise P drops := by
  refine Visit.IsEditing.mk (fun d id _ => ?_) fun d id _ hv => ?_
  · split
    · exact .rewrite id fun e => .foldl (fun e name _ => isRevision_removeAttr e name) e
    · exact .refl d
  · split at hv <;> cases hv

/-- What `removeHidden` drops. -/
def IsDroppable (e : Element) : Prop :=
  (isHidden e && !e.hasAttr "id" && !e.isDefinition) = true

theorem isStepwise_removeHidden : removeHidden.IsStepwise P IsDroppable := by
  refine Visit.IsEditing.mk (fun d id _ => ?_) fun d id _ hv e he => ?_
  · split
    · split <;> exact .refl d
    · exact .refl d
  · split at hv
    · next e' he' =>
      split at hv
      · next hhidden =>
        simp only [he', hhidden, if_true] at he
        obtain rfl : e' = e := Option.some.inj he
        rw [Bool.and_eq_true] at hhidden
        exact hhidden.1
      · cases hv
    · cases hv

theorem isStepwise_removeEmptyContainers : removeEmptyContainers.IsStepwise P IsNoSvg := by
  refine Visit.IsEditing.mk (fun d id _ => ?_) fun d id _ hv e he => ?_
  · split
    · split <;> exact .refl d
    · exact .refl d
  · split at hv
    · next e' he' =>
      split at hv
      · next hempty =>
        simp only [he', hempty, if_true] at he
        obtain rfl : e' = e := Option.some.inj he
        simp only [Bool.and_eq_true, Bool.not_eq_true'] at hempty
        exact hempty.1.1.1
      · cases hv
    · cases hv

theorem isStepwise_removeUnusedNamespaces : removeUnusedNamespaces.IsStepwise P drops :=
  fun _ hd => .foldl (fun _ _ id _ => .rewrite id fun e => isRevision_filterAttrs e _) hd

theorem isStepwise_sortDefs : sortDefs.IsStepwise P drops := by
  refine Visit.IsEditing.mk (fun d id _ => ?_) fun d id _ hv => ?_
  · split
    · exact .edit (.reorder id (List.mergeSort_perm ..))
    · exact .refl d
  · split at hv <;> cases hv

/-! ## Styles -/

theorem isEditing_minifySheet {d : Document} {id : NodeId} (h : d.isElement id = true) :
    Edits P drops d (minifySheet d id) := by
  unfold minifySheet
  simp only
  split
  · exact .refl d
  · split
    · exact .edit (.replaceText id _ _ h)
    · exact .refl d

theorem isRevision_minifyInline [QName.Admits P] (d : Document) (id : NodeId) (e : Element) :
    IsRevision P e (minifyInline d id e) := by
  unfold minifyInline
  simp only
  split
  · exact .refl e
  · exact isRevision_replaceStyle e _

theorem isStepwise_minifyStyles [QName.Admits P] : minifyStyles.IsStepwise P drops := by
  refine Visit.IsEditing.mk (fun d id _ => ?_) fun d id _ hv => ?_
  · split
    · next e he =>
      split
      · exact isEditing_minifySheet (Option.isSome_iff_exists.2 ⟨e, he⟩)
      · exact .rewrite id fun e => isRevision_minifyInline d id e
    · exact .refl d
  · split at hv
    · split at hv <;> cases hv
    · cases hv

/-! ## Groups -/

theorem name_of_mem_hoistedFrom {d : Document} (hd : d.IsSound P) {id : NodeId} {a : Attribute}
    (ha : a ∈ hoistedFrom d id) : P a.name := by
  rw [hoistedFrom] at ha
  split at ha
  · next group children hgroup hchildren =>
    split at ha
    · have hshared : a ∈ Inheritance.shared children := (List.mem_filter.1 ha).1
      cases children with
      | nil => cases hshared
      | cons e rest =>
        have hattr : a ∈ e.attributes := (List.mem_filter.1 hshared).1
        obtain ⟨c, hc⟩ : ∃ c, d.element? c = some e := by
          rw [plainElements?] at hchildren
          cases hids : d.children id with
          | nil => simp [hids] at hchildren
          | cons c cs =>
            rw [hids, List.mapM_cons] at hchildren
            simp only [bind, Option.bind_eq_some_iff] at hchildren
            obtain ⟨e', he', rest', -, heq⟩ := hchildren
            obtain rfl : e' = e := by simpa using (List.cons.inj (Option.some.inj heq)).1
            exact ⟨c, (Option.filter_eq_some_iff.1 he').1⟩
        exact (hd.names c e hc).names a hattr
    · cases ha
  · cases ha

section Groups

variable [QName.Admits P]

theorem isRevision_putJoined (join : String → String → String) (e : Element) {a : Attribute}
    (ha : P a.name) : IsRevision P e (putJoined join e a) := by
  rw [putJoined]
  split
  · exact isRevision_setTransform e _
  · exact isRevision_put e ha

theorem isRevision_foldl_putJoined (join : String → String → String) {moved : List Attribute}
    (hmoved : ∀ a ∈ moved, P a.name) (e : Element) :
    IsRevision P e (moved.foldl (putJoined join) e) :=
  .foldl (fun e a ha => isRevision_putJoined join e (hmoved a ha)) e

theorem edits_hoist {d : Document} (hd : d.IsSound P) (id : NodeId) {moved : List Attribute}
    (hmoved : ∀ a ∈ moved, P a.name) : Edits P drops d (hoist d id moved) := by
  refine Edits.trans (.foldl (fun d _ c _ => .rewrite c fun e => ?_) hd) (.rewrite id fun e => ?_)
  · exact isRevision_filterAttrs e _
  · exact isRevision_foldl_putJoined _ hmoved e

theorem isStepwise_moveSharedToGroup : moveSharedToGroup.IsStepwise P drops := by
  refine Visit.IsEditing.mk (fun d id hd => ?_) fun d id _ hv => ?_
  · split
    · exact .refl d
    · exact edits_hoist hd id fun a ha => name_of_mem_hoistedFrom hd ha
  · split at hv <;> cases hv

theorem edits_lower {d : Document} (hd : d.IsSound P) (id : NodeId) :
    Edits P drops d (lower d id) := by
  rw [lower]
  split
  · next c _ =>
    split
    · next group child hgroup _ =>
      split
      · refine Edits.trans (.rewrite c fun e => ?_) (.rewrite id fun e => ?_)
        · exact isRevision_foldl_putJoined _ (hd.names id group hgroup).names e
        · exact isRevision_filterAttrs e _
      · exact .refl d
    · exact .refl d
  · exact .refl d

theorem isStepwise_collapseGroups : collapseGroups.IsStepwise P drops := by
  refine Visit.IsEditing.mk (fun d id hd => ?_) fun d id _ hv => ?_
  · split
    · exact .refl d
    · next hcond =>
      have hlower : Edits P drops d (lower d id) := edits_lower hd id
      simp only
      split
      · simp only [Bool.or_eq_true, Bool.not_eq_true', not_or] at hcond
        refine hlower.trans (.edit (.unwrap id (hlower.isNamed ?_)))
        simpa using hcond.1.1
      · exact hlower
  · split at hv
    · cases hv
    · simp only at hv
      split at hv <;> cases hv

end Groups

end Pass

/-! ## Merging paths -/

namespace Merging

variable [QName.Admits P]

theorem edits_absorb (options : Options) {d : Document} (target : Target) {id : NodeId}
    (path : Path Float) (hid : d.isNamed id "path" = true) :
    Edits P IsNoSvg d (absorb options d target id path).1 := by
  have hrewrite : Edits P IsNoSvg d (d.updateElement target.id
      (·.setAttr "d" (Path.write options.format (target.path.join path)))) :=
    .rewrite target.id fun e => isRevision_setPathData e _
  exact hrewrite.trans (.edit (.detach id
    (Document.isNoSvg_of_isNamed (by decide) (by decide) (hrewrite.isNamed hid))))

theorem isNamed_of_isMergeable {d : Document} {id : NodeId} (h : isMergeable d id = true) :
    d.isNamed id "path" = true := by
  simp only [isMergeable, Bool.and_eq_true, Option.any_eq_true] at h
  obtain ⟨⟨⟨e, he, hsimple⟩, -⟩, -⟩ := h
  simp only [isSimplePath, Bool.and_eq_true] at hsimple
  exact Document.isNamed_iff.2 ⟨e, he, hsimple.1.1⟩

omit [QName.Admits P] in
theorem children_of_isMergeable {d : Document} {id : NodeId} (h : isMergeable d id = true) :
    d.children id = [] := by
  rw [isMergeable, Bool.and_eq_true, Bool.and_eq_true] at h
  exact List.isEmpty_iff.1 h.1.2

/-- Whether a path may join a run. -/
structure MayJoin (options : Options) (d : Document) (target : Target) (id : NodeId)
    (path : Path Float) : Prop where
  isMergeable : isMergeable d id = true
  alike : ∃ before next, d.element? target.id = some before ∧ d.element? id = some next ∧
    sameAttributes before next = true
  reads : pathOf? d id = some path
  apart : (options.force || areApart d target.id target.path path) = true

omit [QName.Admits P] in
/-- A child joins the run before it.  Otherwise the document stays, and the child may begin a
run. -/
theorem advance_cases (options : Options) (d : Document) (run : Option Target) (id : NodeId) :
    (∃ next, advance options d run id = (d, next) ∧
      ∀ t ∈ next, isMergeable d id = true ∧ t.id = id ∧ pathOf? d id = some t.path) ∨
    ∃ target path, run = some target ∧ MayJoin options d target id path ∧
      advance options d run id = absorb options d target id path := by
  have hnone : ∀ t ∈ (none : Option Target),
      isMergeable d id = true ∧ t.id = id ∧ pathOf? d id = some t.path := fun t ht => by cases ht
  unfold advance
  split
  · exact .inl ⟨_, rfl, hnone⟩
  · next hcond =>
    have hmergeable : isMergeable d id = true := by simpa using hcond
    have hbegin : ∀ t ∈ begin? d id,
        isMergeable d id = true ∧ t.id = id ∧ pathOf? d id = some t.path := by
      intro t ht
      obtain ⟨path, hpath, rfl⟩ := Option.map_eq_some_iff.1 ht
      exact ⟨hmergeable, rfl, hpath⟩
    split
    · exact .inl ⟨_, rfl, hbegin⟩
    · next target =>
      split
      · next before next hbefore hnext =>
        split
        · exact .inl ⟨_, rfl, hbegin⟩
        · next hsame =>
          split
          · exact .inl ⟨_, rfl, hnone⟩
          · next path hpath =>
            split
            · next hapart =>
              refine .inr ⟨target, path, rfl, ⟨hmergeable, ?_, hpath, hapart⟩, rfl⟩
              exact ⟨before, next, hbefore, hnext, by simpa using hsame⟩
            · refine .inl ⟨_, rfl, fun t ht => ?_⟩
              obtain rfl := Option.some.inj ht
              exact ⟨hmergeable, rfl, hpath⟩
      · exact .inl ⟨_, rfl, hnone⟩

theorem edits_advance (options : Options) (d : Document) (run : Option Target) (id : NodeId) :
    Edits P IsNoSvg d (advance options d run id).1 := by
  rcases advance_cases options d run id with ⟨next, heq, -⟩ | ⟨target, path, -, hjoins, heq⟩
  · rw [heq]
    exact .refl d
  · rw [heq]
    exact edits_absorb options target path (isNamed_of_isMergeable hjoins.isMergeable)

end Merging

theorem Pass.isStepwise_mergePaths [QName.Admits P] (options : Merging.Options) :
    (mergePaths options).IsStepwise P IsNoSvg := by
  refine Visit.IsEditing.mk (fun d id hd => ?_) fun d id _ hv => ?_
  · split
    · exact Edits.foldl_view (·.1) (s := (d, none))
        (fun s _ c _ => Merging.edits_advance options s.1 s.2 c) hd
    · exact .refl d
  · split at hv <;> cases hv

/-! ## Moving style rules -/

namespace Inlining

theorem isRevision_dropId (name : String) (e : Element) : IsRevision P e (dropId name e) := by
  rw [dropId]
  split
  · exact isRevision_removeAttr e _
  · exact .refl e

theorem edits_removeSheet {d : Document} {id : NodeId} (hid : d.isNamed id "style" = true) :
    Edits P IsNoSvg d (removeSheet d id) := by
  have hdetach : Edits P IsNoSvg d (d.detach id) :=
    .edit (.detach id (Document.isNoSvg_of_isNamed (by decide) (by decide) hid))
  unfold removeSheet
  simp only
  split
  · next p _ =>
    split
    · next hp =>
      rw [Bool.and_eq_true] at hp
      exact hdetach.trans
        (.edit (.detach p (Document.isNoSvg_of_isNamed (by decide) (by decide) hp.1)))
    · exact hdetach
  · exact hdetach

theorem edits_writeBack {d : Document} {s : Sheet} (hs : d.isNamed s.owner "style" = true) :
    Edits P IsNoSvg d (writeBack d s) := by
  rw [writeBack]
  split
  · exact edits_removeSheet hs
  · exact .edit (.replaceText _ _ _ (Document.isElement_of_isNamed hs))

theorem edits_foldl_writeBack {d : Document} {sheets : List Sheet}
    (hs : ∀ s ∈ sheets, d.isNamed s.owner "style" = true) :
    Edits P IsNoSvg d (sheets.foldl writeBack d) := by
  induction sheets generalizing d with
  | nil => exact .refl d
  | cons s rest ih =>
    have hfirst : Edits P IsNoSvg d (writeBack d s) := edits_writeBack (hs s (by simp))
    exact hfirst.trans (ih fun s' hs' => hfirst.isNamed (hs s' (by simp [hs'])))

theorem isNamed_of_mem_sheetsOf {d : Document} {s : Sheet} (hs : s ∈ sheetsOf d) :
    d.isNamed s.owner "style" = true := by
  obtain ⟨id, -, hid⟩ := List.mem_filterMap.1 hs
  rw [sheetOf?] at hid
  split at hid
  · next hsheet =>
    obtain ⟨e, he, hisSheet⟩ := (Option.any_eq_true _ _).1 hsheet
    simp only at hid
    split at hid
    · cases hid
    · obtain ⟨sheet, -, rfl⟩ := Option.map_eq_some_iff.1 hid
      simp only [isSheet, Bool.and_eq_true] at hisSheet
      exact Document.isNamed_iff.2 ⟨e, he, hisSheet.1.1⟩
  · cases hid

variable [QName.Admits P]

theorem isRevision_offer (e : Element) (x : Declaration) : IsRevision P e (offer e x) := by
  rw [offer]
  split
  · split
    · exact isRevision_setStyle e x
    · exact .refl e
  · exact isRevision_setStyle e x

theorem edits_applyRecord {d : Document} (hd : d.IsSound P) (r : Record) :
    Edits P drops d (applyRecord d r) :=
  .foldl (fun _ _ id _ => .rewrite id fun e => .foldl (fun e x _ => isRevision_offer e x) e) hd

theorem edits_dropName (names : SelectorNames) (referenced : List String) {d : Document}
    (hd : d.IsSound P) (r : Record) : Edits P drops d (dropName names referenced d r) := by
  rw [dropName]
  split
  · split
    · exact .refl d
    · exact .foldl (fun _ _ id _ => .rewrite id fun e => isRevision_removeClass e _) hd
  · split
    · exact .refl d
    · exact .foldl (fun _ _ id _ => .rewrite id fun e => isRevision_dropId _ e) hd
  · exact .refl d

theorem edits_inline (options : Options) {d : Document} (hd : d.IsSound P) :
    Edits P IsNoSvg d (inline options d) := by
  rw [inline]
  simp only
  generalize List.filter options.isEligible (byStrength (recordsOf options d (sheetsOf d)))
    = inlined
  have hstyled : Edits P IsNoSvg d (inlined.foldl applyRecord d) :=
    .foldl (fun _ hd r _ => edits_applyRecord hd r) hd
  split
  · exact hstyled
  · have hdropped := hstyled.trans (.foldl (l := inlined)
      (fun _ hd r _ => edits_dropName (namesInUse (inlined.foldl applyRecord d)
        ((sheetsOf d).map (·.reduced inlined)))
        (References.inDocument (inlined.foldl applyRecord d)) hd r) (hstyled.isSound hd))
    refine hdropped.trans (edits_foldl_writeBack fun s hs => hdropped.isNamed ?_)
    obtain ⟨s', hs', rfl⟩ := List.mem_map.1 hs
    exact isNamed_of_mem_sheetsOf (s := s') hs'

end Inlining

theorem Pass.isStepwise_inlineStyles [QName.Admits P] (options : Inlining.Options) :
    (inlineStyles options).IsStepwise P IsNoSvg :=
  fun _ hd => Inlining.edits_inline options hd

end SvgCompact
