import SvgCompact.Pass.Merging
import SvgCompact.Proofs.Document.References
import SvgCompact.Proofs.Pass.Hidden
import SvgCompact.Proofs.Pass.Pruning
import SvgCompact.Proofs.Pass.Regrouping

/-!
Which passes leave references to ids that are gone.

Empty containers, groups and merged paths give up no id: what goes has none, or another
element has the same.  Descriptions and hidden elements take with them all that is below
them, and so every id that stands nowhere else.
-/

namespace SvgCompact

open Document (Edits IsPruned IsSpared root)

namespace Document

/-- Whether no id is lost. -/
def KeepsIds (d e : Document) : Prop :=
  ∀ v, d.Carries v → e.Carries v

theorem KeepsIds.refl (d : Document) : d.KeepsIds d := fun _ => id

theorem KeepsIds.trans {d e f : Document} (h : d.KeepsIds e) (h' : e.KeepsIds f) : d.KeepsIds f :=
  fun v hv => h' v (h v hv)

theorem keepsIds_of_eq {d e : Document} (hreached : ∀ j, j ∈ d.subtree root → j ∈ e.subtree root)
    (hids : ∀ j, e.idOf? j = d.idOf? j) : d.KeepsIds e := by
  intro v hv
  obtain ⟨j, hj, hid⟩ := carries_iff.1 hv
  exact carries_iff.2 ⟨j, hreached j hj, (hids j).trans hid⟩

theorem idOf?_detach (d : Document) (id j : NodeId) : (d.detach id).idOf? j = d.idOf? j := by
  rw [idOf?, element?_detach, idOf?]

/-- A node without an id and without children can go. -/
theorem keepsIds_detach {d : Document} {id : NodeId} (hd : d.IsForest) (hleaf : d.children id = [])
    (hnone : d.idOf? id = none) : d.KeepsIds (d.detach id) := by
  intro v hv
  obtain ⟨j, hj, hid⟩ := carries_iff.1 hv
  have hne : j ≠ id := by
    rintro rfl
    rw [hnone] at hid
    cases hid
  exact carries_iff.2 ⟨j, (hd.mem_subtree_detach_iff hleaf hne).2 hj, (d.idOf?_detach id j).trans hid⟩

theorem idOf?_eq_none_of_hasAttr {d : Document} {id : NodeId} {e : Element}
    (he : d.element? id = some e) (h : e.hasAttr "id" = false) : d.idOf? id = none := by
  rw [Element.hasAttr, Option.isSome_eq_false_iff, Option.isNone_iff_eq_none] at h
  rw [idOf?, he, Option.bind_some, Element.attr?, h, Option.map_none]

theorem idOf?_updateElement {d : Document} {id : NodeId} {f : Element → Element}
    (hf : ∀ e, d.element? id = some e → (f e).attr? "id" = e.attr? "id") (j : NodeId) :
    (d.updateElement id f).idOf? j = d.idOf? j := by
  rw [idOf?, element?_updateElement, idOf?]
  split
  · next hj =>
    subst hj
    cases he : d.element? j with
    | none => rfl
    | some e => exact hf e he
  · rfl

end Document

namespace Pass

variable {d : Document} {v : String}

/-- Whether a pass leaves a reference to an id that it takes out. -/
structure LeavesDangling (pass : Pass) (d : Document) (v : String) : Prop where
  referred : (pass.run d).RefersTo v
  carried : d.Carries v
  gone : ¬ (pass.run d).Carries v

theorem not_leavesDangling {pass : Pass} (h : d.KeepsIds (pass.run d)) :
    ¬ LeavesDangling pass d v :=
  fun hdangling => hdangling.gone (h v hdangling.carried)

/-! ## Empty containers -/

/-- Empty containers are dropped unless something may refer to them. -/
def emptyVisit : Visit := fun d id =>
  match d.element? id with
  | some e =>
    if !e.isNamed "svg" && e.isContainer && d.isEmpty id && !mattersEmpty e then (d, .drop)
    else (d, .keep)
  | none => (d, .keep)

theorem removeEmptyContainers_eq : removeEmptyContainers = .bottomUp emptyVisit := rfl

theorem keepsIds_removeEmptyContainers (hd : d.IsRooted) :
    d.KeepsIds (removeEmptyContainers.run d) := by
  have hkeeps : emptyVisit.Keeps fun d' => d'.IsForest ∧ d.KeepsIds d' := by
    unfold emptyVisit
    refine ⟨fun d' id p hd' hp => ?_, fun d' id p hd' hp hv => ?_⟩
    · split
      · split <;> exact hd'
      · exact hd'
    · split at hv
      · next e he =>
        split at hv
        · next hcond =>
          simp only [hcond, if_true]
          simp only [Bool.and_eq_true, Bool.not_eq_true', mattersEmpty, Bool.or_eq_false_iff] at hcond
          have hleaf : d'.children id = [] := List.isEmpty_iff.1 hcond.1.2
          have hnone := Document.idOf?_eq_none_of_hasAttr he hcond.2.1.1
          exact ⟨hd'.1.detach id, hd'.2.trans (Document.keepsIds_detach hd'.1 hleaf hnone)⟩
        · cases hv
      · cases hv
  rw [removeEmptyContainers_eq]
  exact (hkeeps.bottomUp ⟨hd.isForest, .refl d⟩).2

/-! ## Groups -/

theorem keepsIds_lower (hd : d.IsSound fun _ => True) {id : NodeId}
    (hg : d.isNamed id "g" = true) : d.KeepsIds (lower d id) := by
  rcases lower_cases hg with hsame | ⟨c, group, child, h, hlowered⟩
  · rw [hsame]
    exact .refl d
  · have hlowered : lower d id = lowered d id c group.attributes := hlowered
    have hplain : ∀ a ∈ group.attributes, a.name ≠ QName.plain "id" := by
      intro a ha heq
      have hinherited := (h.inherited ha).2
      rw [heq] at hinherited
      revert hinherited
      decide
    have hgroup : group.attr? "id" = none := by
      rw [Option.eq_none_iff_forall_ne_some]
      intro w hw
      have hnodup := (hd.names id group h.outer).nodup
      exact hplain _ ((Element.attr?_eq_some_iff Element.read_id hnodup).1 hw) rfl
    have hshape : d.IsRestyled (lowered d id c group.attributes) :=
      (Document.IsRestyled.updateElement d c _).trans (.updateElement _ id _)
    have hforest := hd.isForest.of_links hshape.parent_eq hshape.children_eq
    rw [hlowered]
    refine Document.keepsIds_of_eq (fun j hj =>
      (hd.isForest.mem_subtree_iff_of_parent_eq hforest hshape.parent_eq).2 hj) fun j => ?_
    rw [Document.idOf?, h.element?_lowered hd.isForest, Document.idOf?]
    split
    · next hj =>
      rw [hj, h.outer, Option.bind_some, Option.bind_some, hgroup]
      exact Element.attr?_of_attributes_nil (by simp) _
    · split
      · next hj =>
        rw [hj, h.inner, Option.bind_some, Option.bind_some]
        exact attr?_foldl_putJoined_of_not Element.read_id hplain
      · rfl

theorem keepsIds_unwrap (hd : d.IsRooted) {id : NodeId}
    (hbare : (d.element? id).any (·.attributes.isEmpty) = true) : d.KeepsIds (d.unwrap id) := by
  intro w hw
  obtain ⟨j, hj, hid⟩ := Document.carries_iff.1 hw
  obtain ⟨e, he, hnil⟩ := (Option.any_eq_true _ _).1 hbare
  have hne : j ≠ id := by
    rintro rfl
    rw [Document.idOf?, he, Option.bind_some,
      Element.attr?_of_attributes_nil (List.isEmpty_iff.1 hnil)] at hid
    cases hid
  refine Document.carries_iff.2 ⟨j, (hd.mem_subtree_unwrap_iff hne).2 hj, ?_⟩
  rwa [Document.idOf?, Document.element?, Document.content_unwrap]

theorem keepsIds_collapseGroups (hd : d.IsSound fun _ => True) :
    d.KeepsIds (collapseGroups.run d) := by
  refine (keeps_collapseGroups (Q := fun d' => d'.IsSound (fun _ => True) ∧ d.KeepsIds d')
    (fun d' id hd' hg => ?_) ⟨hd, .refl d⟩).2
  have hedits : Edits (fun _ => True) (fun _ => False) d' (lower d' id) := edits_lower hd'.1 id
  have hunwrap : Edits (fun _ => True) (fun _ => False) d' ((lower d' id).unwrap id) :=
    hedits.trans (.edit (.unwrap id (hedits.isNamed hg)))
  have hsound := hedits.isSound hd'.1
  have hlower := hd'.2.trans (keepsIds_lower hd'.1 hg)
  exact ⟨⟨hsound, hlower⟩, fun hbare =>
    ⟨hunwrap.isSound hd'.1, hlower.trans (keepsIds_unwrap hsound.toIsRooted hbare)⟩⟩

end Pass

/-! ## Merged paths -/

namespace Merging

variable {options : Options} {d : Document} {id p : NodeId} {v : String}

theorem attr?_id_of_sameAttributes {before next : Element}
    (hnodup : (before.attributes.map (·.name)).Nodup)
    (hnodup' : (next.attributes.map (·.name)).Nodup) (h : sameAttributes before next = true)
    (hid : next.attr? "id" = some v) : before.attr? "id" = some v := by
  rw [Element.attr?_eq_some_iff Element.read_id hnodup'] at hid
  rw [Element.attr?_eq_some_iff Element.read_id hnodup]
  rw [sameAttributes, Bool.and_eq_true, List.all_eq_true] at h
  have hmem := h.2 _ hid
  rw [Bool.or_eq_true] at hmem
  exact hmem.elim (fun hpath => by cases hpath) List.contains_iff_mem.1

/-- A path that is absorbed leaves its id with the one that absorbs it. -/
theorem keepsIds_absorb (hd : d.IsSound fun _ => True) {target : Target} {before next : Element}
    (path : Path Float) (hbefore : d.element? target.id = some before)
    (hnext : d.element? id = some next) (hsame : sameAttributes before next = true)
    (hempty : d.children id = []) (hne : target.id ≠ id) (htarget : d.parent target.id = some p)
    (hid : d.parent id = some p) : d.KeepsIds (absorb options d target id path).1 := by
  have hids : ∀ j, (absorb options d target id path).1.idOf? j = d.idOf? j := by
    intro j
    rw [absorb, Document.idOf?_detach]
    refine Document.idOf?_updateElement (fun e _ => ?_) j
    have hother : QName.read "d" ≠ QName.plain "id" := by decide
    rw [Element.setAttr, Element.attr?_put Element.read_id, if_neg hother]
  have hreached : ∀ j, j ≠ id → j ∈ d.subtree root →
      j ∈ (absorb options d target id path).1.subtree root := by
    intro j hj hmem
    have hshape := Document.IsRestyled.updateElement d target.id
      (·.setAttr "d" (Path.write options.format (target.path.join path)))
    have hforest := hd.isForest.of_links hshape.parent_eq hshape.children_eq
    rw [absorb, hforest.mem_subtree_detach_iff
      ((hshape.children_eq id).trans hempty) hj]
    exact (hd.isForest.mem_subtree_iff_of_parent_eq hforest hshape.parent_eq).2 hmem
  intro w hw
  obtain ⟨j, hj, hidj⟩ := Document.carries_iff.1 hw
  by_cases heq : j = id
  · subst heq
    rw [Document.idOf?, hnext, Option.bind_some] at hidj
    have hown : d.idOf? target.id = some w := by
      rw [Document.idOf?, hbefore, Option.bind_some]
      exact attr?_id_of_sameAttributes (hd.names _ _ hbefore).nodup (hd.names _ _ hnext).nodup
        hsame hidj
    have habove : target.id ∈ d.subtree root := by
      rcases hd.isForest.mem_subtree_iff_parent.1 hj with rfl | ⟨q, hq, hreach⟩
      · rw [hd.parent_root] at hid
        cases hid
      · obtain rfl : q = p := Option.some.inj (hq.symm.trans hid)
        exact hd.isForest.mem_subtree_iff_parent.2 (.inr ⟨q, htarget, hreach⟩)
    exact Document.carries_iff.2 ⟨target.id, hreached _ hne habove, (hids _).trans hown⟩
  · exact Document.carries_iff.2 ⟨j, hreached j heq hj, (hids j).trans hidj⟩

/-- The children that are still to come stand beside the path into which they may be
merged. -/
structure IsUnderway (p : NodeId) (coming : List NodeId) (s : Document × Option Target) :
    Prop where
  isSound : s.1.IsSound fun _ => True
  target : ∀ t ∈ s.2, s.1.parent t.id = some p ∧ t.id ∉ coming
  parent : ∀ c ∈ coming, s.1.parent c = some p
  nodup : coming.Nodup

/-- One child on, nothing is lost and the rest is as before. -/
theorem IsUnderway.advance {coming : List NodeId} {s : Document × Option Target}
    (h : IsUnderway p (id :: coming) s) (options : Options) :
    s.1.KeepsIds (advance options s.1 s.2 id).1 ∧
      IsUnderway p coming (advance options s.1 s.2 id) := by
  obtain ⟨hnotin, hnodup⟩ := List.nodup_cons.1 h.nodup
  have hid := h.parent id (by simp)
  have hsound := (edits_advance (P := fun _ => True) options s.1 s.2 id).isSound h.isSound
  rcases advance_cases options s.1 s.2 id with ⟨run, hsame, hrun⟩ |
    ⟨target, path, hrun, hjoins, habsorb⟩
  · rw [hsame] at hsound ⊢
    refine ⟨.refl _, hsound, fun t ht => ?_, fun c hc => h.parent c (by simp [hc]), hnodup⟩
    rw [(hrun t ht).2.1]
    exact ⟨hid, hnotin⟩
  · obtain ⟨hparent, hcoming⟩ := h.target target (by rw [hrun]; rfl)
    obtain ⟨before, next, hbefore, hnext, hattributes⟩ := hjoins.alike
    have hne : target.id ≠ id := fun heq => hcoming (by simp [heq])
    have hempty : s.1.children id = [] := children_of_isMergeable hjoins.isMergeable
    have hlinks : ∀ j, j ≠ id → (absorb options s.1 target id path).1.parent j = s.1.parent j := by
      intro j hj
      rw [absorb, Document.parent_detach, if_neg hj, Document.parent_updateElement]
    rw [habsorb] at hsound ⊢
    refine ⟨keepsIds_absorb h.isSound path hbefore hnext hattributes hempty hne hparent hid, hsound,
      fun t ht => ?_, fun c hc => ?_, hnodup⟩
    · obtain rfl := Option.some.inj ht
      rw [hlinks _ hne]
      exact ⟨hparent, fun hmem => hcoming (by simp [hmem])⟩
    · rw [hlinks c (ne_of_mem_of_not_mem hc hnotin)]
      exact h.parent c (by simp [hc])

theorem IsUnderway.foldl {coming : List NodeId} {s : Document × Option Target}
    (h : IsUnderway p coming s) :
    s.1.KeepsIds (coming.foldl (fun s c => Merging.advance options s.1 s.2 c) s).1 ∧
      (coming.foldl (fun s c => Merging.advance options s.1 s.2 c) s).1.IsSound fun _ => True := by
  induction coming generalizing s with
  | nil => exact ⟨.refl _, h.isSound⟩
  | cons c rest ih =>
    obtain ⟨hkeeps, hunderway⟩ := h.advance options
    obtain ⟨hkeeps', hsound⟩ := ih hunderway
    exact ⟨hkeeps.trans hkeeps', hsound⟩

theorem keepsIds_mergeChildren (options : Options) (hd : d.IsSound fun _ => True) (id : NodeId) :
    d.KeepsIds (mergeChildren options d id) ∧
      (mergeChildren options d id).IsSound fun _ => True :=
  IsUnderway.foldl (p := id) (s := (d, none)) ⟨hd, nofun,
    fun c hc => (hd.isForest.mem_children_iff id c).1 hc, hd.isForest.nodup_children id⟩

end Merging

namespace Pass

variable {d : Document} {v : String}

theorem keepsIds_mergePaths (options : Merging.Options) (hd : d.IsSound fun _ => True) :
    d.KeepsIds ((mergePaths options).run d) := by
  have hkeeps : Visit.Keeps (fun d id =>
      if d.isElement id then (Merging.mergeChildren options d id, .keep) else (d, .keep))
      fun d' => d'.IsSound (fun _ => True) ∧ d.KeepsIds d' := by
    refine .of_keep (fun d' id _ hd' _ => ?_) fun d' id => ?_
    · split
      · obtain ⟨hkeeps, hsound⟩ := Merging.keepsIds_mergeChildren options hd'.1 id
        exact ⟨hsound, hd'.2.trans hkeeps⟩
      · exact hd'
    · split <;> rfl
  exact (hkeeps.topDown ⟨hd, .refl d⟩).2

/-! ## Descriptions and hidden elements -/

/-- Where nodes are dropped with all that is below them, the ids of those are left that
have nothing dropped above them. -/
theorem carries_topDown_iff {visit : Visit} {drops : NodeId → Prop} {inv : Document → Prop}
    (h : visit.Prunes d drops inv) (hd : d.IsRooted) (hinv : inv d) (hroot : ¬ drops root)
    (hids : ∀ e, inv e → ∀ j, e.idOf? j = d.idOf? j) :
    ((Pass.topDown visit).run d).Carries v ↔ ∃ j, d.IsSpared drops j ∧ d.idOf? j = some v := by
  obtain ⟨hafter, hleft⟩ := h.mem_subtree_topDown_iff hd hinv hroot
  rw [Document.carries_iff]
  refine exists_congr fun j => ?_
  rw [hleft, hids _ hafter]

/-- Whether a node is a description or belongs to an editor. -/
def IsNote (d : Document) (id : NodeId) : Prop :=
  (d.element? id).any isDescriptive = true

def noteVisit : Visit := fun d id =>
  match d.element? id with
  | some e => if isDescriptive e then (d, .drop) else (d.updateElement id withoutNotes, .keep)
  | none => (d, .keep)

theorem removeMetadata_eq : removeMetadata = .topDown noteVisit := rfl

theorem noteVisit_fst (d : Document) (id : NodeId) :
    (noteVisit d id).1 = d ∨ (noteVisit d id).1 = d.updateElement id withoutNotes := by
  rw [noteVisit]
  split
  · split
    · exact .inl rfl
    · exact .inr rfl
  · exact .inl rfl

theorem noteVisit_snd (d : Document) (id : NodeId) :
    (noteVisit d id).2 = .drop ↔ IsNote d id := by
  rw [noteVisit, IsNote]
  cases d.element? id with
  | none => simp
  | some e =>
    dsimp only
    split <;> simp_all

/-- Whether names and ids are as they were, and perhaps other attributes are gone. -/
def HasSameIds (d e : Document) : Prop :=
  ∀ j, (e.element? j).map (·.name) = (d.element? j).map (·.name) ∧ e.idOf? j = d.idOf? j

theorem hasSameIds_withoutNotes (d : Document) (id : NodeId) :
    HasSameIds d (d.updateElement id withoutNotes) := by
  refine fun j => ⟨?_, Document.idOf?_updateElement (fun e _ => ?_) j⟩
  · rw [Document.element?_updateElement]
    split
    · cases d.element? j <;> rfl
    · rfl
  · have hkept := Element.attr?_filterAttrs (e := e) Element.read_id
      (fun n => !isEditorName n && !n.isNamed "data-name")
    rw [if_pos (by decide)] at hkept
    exact hkept

theorem isNote_congr {e : Document} {id : NodeId}
    (h : (e.element? id).map (·.name) = (d.element? id).map (·.name)) :
    IsNote e id ↔ IsNote d id := by
  rw [IsNote, IsNote]
  revert h
  cases e.element? id <;> cases d.element? id <;>
    simp +contextual [isDescriptive, Element.isAnyOf, Element.isNamed]

theorem carries_removeMetadata_iff (hd : d.IsRooted) :
    (removeMetadata.run d).Carries v ↔
      ∃ j, d.IsSpared (IsNote d) j ∧ d.idOf? j = some v := by
  rw [removeMetadata_eq]
  have hprunes : noteVisit.Prunes d (IsNote d) (HasSameIds d) := by
    refine ⟨fun e id j => ?_, fun e id j => ?_, fun e id he => ?_, fun e id he j => ?_,
      fun e id p he _ _ _ => ?_⟩
    · rcases noteVisit_fst e id with heq | heq <;> simp [heq]
    · rcases noteVisit_fst e id with heq | heq <;> simp [heq]
    · rcases noteVisit_fst e id with heq | heq
      · rwa [heq]
      · rw [heq]
        have hstep := hasSameIds_withoutNotes e id
        exact fun j => ⟨(hstep j).1.trans (he j).1, (hstep j).2.trans (he j).2⟩
    · rw [Document.element?_detach, Document.idOf?_detach]
      exact he j
    · rw [noteVisit_snd, isNote_congr (he id).1]
  have hroot : ¬ IsNote d root := by
    rw [IsNote, Document.element?, hd.content_root]
    exact Bool.false_ne_true
  exact carries_topDown_iff hprunes hd (fun j => ⟨rfl, rfl⟩) hroot fun e he j => (he j).2

theorem carries_removeHidden_iff (hd : d.IsRooted) :
    (removeHidden.run d).Carries v ↔
      ∃ j, d.IsSpared (hiddenVerdict d · = .drop) j ∧ d.idOf? j = some v := by
  rw [removeHidden_eq]
  have hprunes : hiddenVisit.Prunes d (hiddenVerdict d · = .drop)
      fun e => ∀ j, e.element? j = d.element? j := by
    refine ⟨fun _ _ _ => rfl, fun _ _ _ => rfl, fun _ _ he => he, fun e id he j => ?_,
      fun e id p he hpruned hspared hp => ?_⟩
    · rw [Document.element?_detach, he]
    · have hdefined : isDefined e id = isDefined d id := by
        rw [isDefined, isDefined, hpruned.ancestors_eq hd hp hspared]
        simp only [he]
      rw [hiddenVisit, hiddenVerdict, hiddenVerdict, he, hdefined]
  have hroot : hiddenVerdict d root ≠ .drop := by
    rw [hiddenVerdict, Document.element?, hd.content_root]
    intro hdrop
    cases hdrop
  refine carries_topDown_iff hprunes hd (fun _ => rfl) hroot fun e he j => ?_
  rw [Document.idOf?, he, Document.idOf?]

/-- An element with an id is never dropped as hidden, but it may be below one that is. -/
theorem not_drop_of_idOf? {j : NodeId} (hj : d.idOf? j = some v) : hiddenVerdict d j ≠ .drop := by
  obtain ⟨e, he, -⟩ := Option.bind_eq_some_iff.1 hj
  have hhas : e.hasAttr "id" = true := by
    rw [← Bool.not_eq_false]
    intro hnone
    rw [Document.idOf?_eq_none_of_hasAttr he hnone] at hj
    cases hj
  simp [hiddenVerdict, he, hhas]

/-- Ids that are left are those of the carriers that are spared. -/
theorem not_carries_iff {pass : Pass} {drops : NodeId → Prop}
    (h : (pass.run d).Carries v ↔ ∃ j, d.IsSpared drops j ∧ d.idOf? j = some v) :
    ¬ (pass.run d).Carries v ↔ ∀ j ∈ d.elements, d.idOf? j = some v →
      ∃ a, (a = j ∨ d.IsAbove a j) ∧ drops a := by
  rw [h]
  constructor
  · intro hnone j hj hid
    by_contra hnot
    refine hnone ⟨j, ⟨(List.mem_filter.1 hj).1, fun a ha hdrops => hnot ⟨a, ha, hdrops⟩⟩, hid⟩
  · rintro hall ⟨j, hspared, hid⟩
    have hmem : j ∈ d.elements :=
      List.mem_filter.2 ⟨hspared.reached, Document.isElement_of_idOf? hid⟩
    obtain ⟨a, ha, hdrops⟩ := hall j hmem hid
    exact hspared.spared a ha hdrops

/-- Three of the passes that remove nodes leave no reference dangling.  The other two do,
if an element that stays refers to an id and all elements that have it go with a
description or with a hidden element around them. -/
theorem leavesDangling_iff (hd : d.IsSound fun _ => True) (v : String) :
    ¬ LeavesDangling removeEmptyContainers d v ∧ ¬ LeavesDangling collapseGroups d v ∧
      (∀ options, ¬ LeavesDangling (mergePaths options) d v) ∧
      (LeavesDangling removeMetadata d v ↔
        (removeMetadata.run d).RefersTo v ∧ d.Carries v ∧ ∀ j ∈ d.elements, d.idOf? j = some v →
          ∃ a, (a = j ∨ d.IsAbove a j) ∧ IsNote d a) ∧
      (LeavesDangling removeHidden d v ↔
        (removeHidden.run d).RefersTo v ∧ d.Carries v ∧ ∀ j ∈ d.elements, d.idOf? j = some v →
          ∃ a, d.IsAbove a j ∧ hiddenVerdict d a = .drop) := by
  have hcases : ∀ {pass : Pass}, LeavesDangling pass d v ↔
      (pass.run d).RefersTo v ∧ d.Carries v ∧ ¬ (pass.run d).Carries v :=
    ⟨fun h => ⟨h.referred, h.carried, h.gone⟩, fun h => ⟨h.1, h.2.1, h.2.2⟩⟩
  refine ⟨not_leavesDangling (keepsIds_removeEmptyContainers hd.toIsRooted),
    not_leavesDangling (keepsIds_collapseGroups hd),
    fun options => not_leavesDangling (keepsIds_mergePaths options hd), ?_, ?_⟩
  · rw [hcases, not_carries_iff (carries_removeMetadata_iff hd.toIsRooted)]
  · rw [hcases, not_carries_iff (carries_removeHidden_iff hd.toIsRooted)]
    refine and_congr_right fun _ => and_congr_right fun _ => forall_congr' fun j =>
      forall_congr' fun _ => imp_congr_right fun hid => exists_congr fun a => ?_
    refine and_congr_left fun hdrop => or_iff_right ?_
    rintro rfl
    exact not_drop_of_idOf? hid hdrop

namespace Shaded

def gradient : Element := .ofAttributes (.plain "linearGradient") [⟨.plain "id", "g"⟩]

def rect : Element := .ofAttributes (.plain "rect") [⟨.plain "fill", "url(#g)"⟩]

/-- A rectangle that is filled with a gradient inside a hidden group. -/
def document : Document :=
  ((((Document.empty.append root (.element (.ofAttributes (.plain "svg") []))).1.append 1
    (.element (.ofAttributes (.plain "g") [⟨.plain "display", "none"⟩]))).1.append 2
      (.element gradient)).1.append 1 (.element rect)).1

theorem isSound_document : document.IsSound fun _ => True := by
  have helement : ∀ e : Element, Content.element e ≠ .root := fun _ => nofun
  refine ⟨?_, fun j e he => ⟨trivial, fun _ _ => trivial, ?_⟩⟩
  · exact (((Document.IsRooted.empty.append (by decide) (helement _)).append (by decide)
      (helement _)).append (by decide) (helement _)).append (by decide) (helement _)
  · exact Document.forall_element?_of_all (Q := fun e => (e.attributes.map (·.name)).Nodup)
      (by decide) he

end Shaded

/-- The rectangle is left without its gradient. -/
theorem leavesDangling_shaded :
    (Shaded.document.IsSound fun _ => True) ∧ LeavesDangling removeHidden Shaded.document "g" := by
  have hdrop : hiddenVerdict Shaded.document 2 = .drop := by decide
  have habove : Shaded.document.IsAbove 2 3 := Document.isAbove_of_parent (by decide)
  refine ⟨Shaded.isSound_document,
    (leavesDangling_iff Shaded.isSound_document "g").2.2.2.2.2 ⟨?_, ?_, ?_⟩⟩
  · exact ⟨4, by decide, Shaded.rect, by decide, ⟨.plain "fill", "url(#g)"⟩, by decide,
      .inl ⟨"", by decide, by decide⟩⟩
  · exact ⟨3, by decide, by decide⟩
  · intro j hj hid
    have helements : Shaded.document.elements = [1, 2, 3, 4] := by decide
    rw [helements] at hj
    have honly : ∀ j ∈ [1, 2, 3, 4], Shaded.document.idOf? j = some "g" → j = 3 := by decide
    obtain rfl := honly j hj hid
    exact ⟨2, habove, hdrop⟩

end Pass
end SvgCompact
