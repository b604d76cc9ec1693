import SvgCompact.Proofs.Inlining.WrittenBack
import SvgCompact.Proofs.Pass.Apart

/-!
What cannot be read is left alone.

A `style` element whose text is no sheet is left alone when sheets are inlined, and the
classes and ids in its text count as used.  A selector that cannot be read has no record, so
it stays in its rule.  Either way the element goes if a sheet stands around it that is
written back.

The walk that writes sheets anew replaces the children of each `style` element whose text is
a sheet.  An element whose text is none keeps its text, and its place unless such a sheet
stands around it.  Path data that cannot be read is neither written anew nor merged, and the
element that holds it stays where it is.
-/

namespace SvgCompact

theorem exists_error_of_isOk {ε α : Type} {r : Except ε α} (h : r.isOk = false) :
    ∃ fault, r = .error fault := by
  cases r with
  | error fault => exact ⟨fault, rfl⟩
  | ok a => cases h

/-- Whether a `style` element of a document holds a text that is no sheet. -/
structure Document.HoldsNoSheet (d : Document) (id : NodeId) : Prop where
  mem : id ∈ d.elements
  named : d.isNamed id "style" = true
  unread : (Stylesheet.read (d.textContent id)).isOk = false

/-- Whether a `style` element of a document holds a sheet. -/
structure Document.HoldsSheet (d : Document) (id : NodeId) (sheet : Stylesheet) : Prop where
  mem : id ∈ d.elements
  named : d.isNamed id "style" = true
  read : Stylesheet.read (d.textContent id) = .ok sheet

namespace Inlining

open Document (root)

/-! ## Selectors -/

def isUnread (text : String) : Bool :=
  !(ComplexSelector.read text).isOk

/-- Whether some selector of a rule cannot be read. -/
def HasUnread (r : StyleRule) : Prop :=
  ∃ text ∈ r.selectors, isUnread text = true

/-- Whether a rule stands in a sheet with its contexts, its declarations and all of its
selectors that cannot be read. -/
def KeepsUnread (sheet : Stylesheet) (x : List String × StyleRule) : Prop :=
  ∃ left, (x.1, { x.2 with selectors := left }) ∈ sheet.styleRules ∧ left.Sublist x.2.selectors ∧
    left.filter isUnread = x.2.selectors.filter isUnread

/-- Whether an element holds a sheet, in the text that it had or written anew. -/
def Holds (d d' : Document) (id : NodeId) (sheet : Stylesheet) : Prop :=
  d'.texts id = d.texts id ∧ Stylesheet.read (d.textContent id) = .ok sheet ∨
    d'.textContent id = sheet.write

/-- Whether no sheet that is written back stands around a node. -/
def IsOutside (options : Options) (d : Document) (id : NodeId) : Prop :=
  options.removesMatched = true → ∀ s ∈ sheetsOf d, ¬ d.IsAbove s.owner id

variable {P : QName → Prop} {options : Options} {d : Document} {s : Sheet} {id : NodeId}
  {sheet : Stylesheet} {x : List String × StyleRule}

theorem keepsUnread_self (hx : x ∈ sheet.styleRules) : KeepsUnread sheet x :=
  ⟨x.2.selectors, hx, List.Sublist.refl _, rfl⟩

theorem usesUp_of_isUnread {text : String} (h : isUnread text = true) (options : Options)
    (d : Document) (contexts : List String) : options.usesUp d contexts text = false := by
  rw [isUnread, Bool.not_eq_true'] at h
  obtain ⟨fault, hread⟩ := exists_error_of_isOk h
  rw [Options.usesUp, hread]
  exact Bool.and_false _

/-- Rules lose selectors that can be read only. -/
theorem keepsUnread_of_reduces {left : Stylesheet}
    (h : Rule.Reduces (options.usesUp d) [] sheet.rules left.rules) (hx : x ∈ sheet.styleRules)
    (hunread : HasUnread x.2) : KeepsUnread left x := by
  have hstays : ∀ text, isUnread text = true → (!options.usesUp d x.1 text) = true :=
    fun text htext => by rw [usesUp_of_isUnread htext, Bool.not_false]
  refine ⟨x.2.selectors.filter fun text => !options.usesUp d x.1 text, ?_, List.filter_sublist, ?_⟩
  · rw [Stylesheet.styleRules, h.styleRulesOf, List.mem_filter]
    refine ⟨List.mem_map_of_mem hx, ?_⟩
    obtain ⟨text, htext, hbad⟩ := hunread
    rw [Bool.not_eq_true', List.isEmpty_eq_false_iff]
    exact List.ne_nil_of_mem (List.mem_filter.2 ⟨htext, hstays text hbad⟩)
  · rw [List.filter_filter]
    refine List.filter_congr fun text _ => ?_
    cases hbad : isUnread text with
    | false => rfl
    | true => rw [Bool.true_and, hstays text hbad]

theorem isEmpty_of_keepsUnread (h : KeepsUnread sheet x) : sheet.isEmpty = false := by
  obtain ⟨left, hleft, -⟩ := h
  rw [Stylesheet.isEmpty, List.isEmpty_eq_false_iff]
  intro hnil
  rw [Stylesheet.styleRules, hnil] at hleft
  cases hleft

/-! ## Elements -/

theorem ne_owner_of_holdsNoSheet (h : d.HoldsNoSheet id) : ∀ s ∈ sheetsOf d, id ≠ s.owner := by
  rintro s hs rfl
  have hunread := h.unread
  rw [(sheetOf?_of_mem hs).2] at hunread
  cases hunread

section Passed

variable [QName.Admits P] (hd : d.IsSound P)
include hd

theorem isRestyled_inline (hkeeps : options.removesMatched = false) :
    d.IsRestyled (inline options d) := by
  obtain ⟨d₁, hrestyled, -, hinline⟩ := exists_isRestyled hd options
  rwa [hinline, hkeeps]

/-- The text of an element stays unless a sheet is written into it. -/
theorem texts_inline (options : Options)
    (hid : options.removesMatched = true → ∀ s ∈ sheetsOf d, id ≠ s.owner) :
    (inline options d).texts id = d.texts id := by
  cases hremoves : options.removesMatched with
  | true => exact texts_inline_of_ne hremoves hd (hid hremoves)
  | false => exact (isRestyled_inline hd hremoves).texts_eq id

/-- A `style` element into which no sheet is written stays if none stands around it. -/
theorem mem_elements_inline_iff_isOutside (options : Options) (hid : id ∈ d.elements)
    (hstyle : d.isNamed id "style" = true)
    (hother : options.removesMatched = true → ∀ s ∈ sheetsOf d, id ≠ s.owner) :
    id ∈ (inline options d).elements ↔ IsOutside options d id := by
  cases hremoves : options.removesMatched with
  | true =>
    rw [mem_elements_inline_iff_of_ne hremoves hd hstyle (hother hremoves) hid, IsOutside,
      imp_iff_right hremoves]
  | false =>
    rw [(isRestyled_inline hd hremoves).elements_eq, IsOutside, hremoves]
    exact iff_of_true hid Bool.noConfusion

/-- The names in a text that is no sheet are in use. -/
theorem resembles_inline_of_holdsNoSheet (options : Options) (h : d.HoldsNoSheet id) :
    d.Resembles (SelectorNames.ofText (d.textContent id)) (inline options d) := by
  refine resembles_inline_of_within _ hd options fun _ => within_namesInUse ?_
  have hrestyled := isRestyled_styled options d
  have hedits : Document.Edits P Element.IsNoSvg d (styled options d) :=
    .foldl (fun _ hd r _ => edits_applyRecord hd r) hd
  rw [← Document.textContent_of_texts (hrestyled.texts_eq id)]
  refine List.mem_append_right _ (List.mem_map_of_mem (List.mem_filter.2 ?_))
  refine ⟨hrestyled.elements_eq ▸ h.mem, ?_⟩
  rw [hedits.isNamed h.named, Bool.true_and, Bool.not_eq_true', List.any_eq_false]
  simp only [beq_iff_eq]
  exact (forall_sheetsAfter_iff (p := fun a => ¬ a = id)).2 fun s hs heq =>
    ne_owner_of_holdsNoSheet h s hs heq.symm

/-- A `style` element whose text is no sheet keeps that text. -/
theorem inline_of_holdsNoSheet (options : Options) (h : d.HoldsNoSheet id) :
    (inline options d).texts id = d.texts id ∧
      (id ∈ (inline options d).elements ↔ IsOutside options d id) := by
  have hother := ne_owner_of_holdsNoSheet h
  exact ⟨texts_inline hd options fun _ => hother,
    mem_elements_inline_iff_isOutside hd options h.mem h.named fun _ => hother⟩

/-- A selector that cannot be read stays in its rule. -/
theorem inline_of_hasUnread (options : Options) (h : d.HoldsSheet id sheet)
    (hunread : ∃ x ∈ sheet.styleRules, HasUnread x.2) :
    (id ∈ (inline options d).elements ↔ IsOutside options d id) ∧
      ∃ left, Holds d (inline options d) id left ∧
        ∀ x ∈ sheet.styleRules, HasUnread x.2 → KeepsUnread left x := by
  by_cases howner : options.removesMatched = true ∧ ∃ s ∈ sheetsOf d, s.owner = id
  · obtain ⟨hremoves, s, hs, rfl⟩ := howner
    obtain rfl : s.sheet = sheet := Except.ok.inj ((sheetOf?_of_mem hs).2.symm.trans h.read)
    have hkeeps : ∀ x ∈ s.sheet.styleRules, HasUnread x.2 →
        KeepsUnread (s.reduced (inlined options d)).sheet x :=
      fun x hx => keepsUnread_of_reduces (reduces_reduced options hs) hx
    obtain ⟨x, hx, hbad⟩ := hunread
    have hfull := isEmpty_of_keepsUnread (hkeeps x hx hbad)
    refine ⟨?_, _, .inr (textContent_inline hremoves hd hs hfull), hkeeps⟩
    rw [mem_elements_inline_iff hremoves hd hs, and_iff_right hfull, IsOutside,
      imp_iff_right hremoves]
  · have hother : options.removesMatched = true → ∀ s ∈ sheetsOf d, id ≠ s.owner :=
      fun hremoves s hs heq => howner ⟨hremoves, s, hs, heq.symm⟩
    exact ⟨mem_elements_inline_iff_isOutside hd options h.mem h.named hother, sheet,
      .inl ⟨texts_inline hd options hother, h.read⟩, fun x hx _ => keepsUnread_self hx⟩

end Passed
end Inlining

/-! ## Style elements -/

open Document (root Edits)
open Visit (IsWithin KeepsWay)

/-- Whether an element is a `style` element with a sheet that is not blank. -/
structure Document.HoldsStyles (d : Document) (id : NodeId) : Prop where
  named : d.isNamed id "style" = true
  visible : (d.textContent id).toList.all Text.isBlank = false
  read : (Stylesheet.read (d.textContent id)).isOk = true

namespace Pass

variable {P : QName → Prop} {d d' d'' : Document} {id j : NodeId}

/-! ## Sheets that are written anew -/

/-- What a visit may make of a document: the sheet of the node is written anew, or nothing but
attributes changes. -/
inductive Restyles (d : Document) (id : NodeId) : Document → Prop
  | written (h : d.HoldsStyles id) (cdata : Bool) (s : String) :
      Restyles d id (d.replaceText id cdata s)
  | restyled {d' : Document} (h : ¬ d.HoldsStyles id) (hrestyled : d.IsRestyled d')
      (hnames : ∀ j s, d'.isNamed j s = d.isNamed j s) : Restyles d id d'

/-- Whether a visit restyles and drops nothing. -/
structure IsStyling (P : QName → Prop) (visit : Visit) : Prop where
  editing : visit.IsEditing P Element.IsNoSvg
  keep : ∀ d id, (visit d id).2 = .keep
  restyles : ∀ d id, Restyles d id (visit d id).1

theorem restyles_minifySheet (hstyle : d.isNamed id "style" = true) :
    Restyles d id (minifySheet d id) := by
  unfold minifySheet
  simp only
  split
  · next hblank =>
    refine .restyled (fun h => ?_) (.refl d) fun _ _ => rfl
    rw [h.visible] at hblank
    cases hblank
  · next hvisible =>
    cases hread : Stylesheet.read (d.textContent id) with
    | ok sheet =>
      refine .written ⟨hstyle, Bool.not_eq_true _ ▸ hvisible, ?_⟩ _ _
      rw [hread]
      rfl
    | error fault =>
      refine .restyled (fun h => ?_) (.refl d) fun _ _ => rfl
      have hok := h.read
      rw [hread] at hok
      cases hok

theorem exists_isStyling [QName.Admits P] :
    ∃ visit : Visit, minifyStyles = .topDown visit ∧ IsStyling P visit := by
  refine ⟨_, rfl, isStepwise_minifyStyles, fun d id => ?_, fun d id => ?_⟩
  · split
    · split <;> rfl
    · rfl
  · split
    · next e he =>
      split
      · next hstyle => exact restyles_minifySheet (Document.isNamed_iff.2 ⟨e, he, hstyle⟩)
      · next hother =>
        refine .restyled (fun h => hother ?_) (.updateElement d id _)
          (Document.isNamed_updateElement fun e => (isRevision_minifyInline (P := P) d id e).name)
        obtain ⟨e', he', hstyle⟩ := Document.isNamed_iff.1 h.named
        rwa [Option.some.inj (he.symm.trans he')]
    · next hnone =>
      refine .restyled (fun h => ?_) (.refl d) fun _ _ => rfl
      obtain ⟨e, he, -⟩ := Document.isNamed_iff.1 h.named
      rw [hnone] at he
      cases he

namespace Restyles

theorem isCut (h : Restyles d id d') (hd : d.IsForest) : d.IsCut d' := by
  cases h with
  | written _ cdata s => exact .replaceText hd id cdata s
  | restyled _ hrestyled _ => exact .of_isRestyled hrestyled

theorem isNamed_eq (h : Restyles d id d') (j : NodeId) (s : String) :
    d'.isNamed j s = d.isNamed j s := by
  cases h with
  | written _ cdata s => rw [Document.isNamed, Document.element?_replaceText, Document.isNamed]
  | restyled _ _ hnames => exact hnames j s

theorem texts_eq (h : Restyles d id d') (hd : d.IsForest) (hj : j = id → ¬ d.HoldsStyles j) :
    d'.texts j = d.texts j := by
  cases h with
  | written hstyles cdata s =>
    have hne : j ≠ id := fun heq => hj heq (heq ▸ hstyles)
    exact Document.texts_replaceText hd
      (Document.lt_size_of_isElement (Document.isElement_of_isNamed hstyles.named)) cdata s hne
  | restyled _ hrestyled _ => exact hrestyled.texts_eq j

theorem parent_eq (h : Restyles d id d') (hd : d.IsForest) (hj : j < d.size)
    (hclear : ∀ p, d.parent j = some p → ¬ d.HoldsStyles p) : d'.parent j = d.parent j := by
  cases h with
  | written hstyles cdata s =>
    rw [hd.parent_replaceText, if_neg (Nat.ne_of_lt hj), if_neg]
    exact fun hp => hclear id hp hstyles
  | restyled _ hrestyled _ => exact hrestyled.parent_eq j

/-- What was below a sheet is not below it when it is written anew. -/
theorem not_isAbove (h : Restyles d id d') (hd : d.IsForest) (hd' : d'.IsForest)
    (hstyles : d.HoldsStyles id) (hj : j < d.size) : ¬ d'.IsAbove id j := by
  have hcut := h.isCut hd
  cases h with
  | written _ cdata s =>
    refine hcut.not_isAbove_of_new hd hd' hj fun c hc => ?_
    have hlt := Document.lt_size_of_isElement (Document.isElement_of_isNamed hstyles.named)
    rw [hd.children_replaceText hlt, if_pos rfl, List.mem_singleton] at hc
    exact Nat.le_of_eq hc.symm
  | restyled hnot _ _ => exact absurd hstyles hnot

end Restyles

theorem holdsStyles_iff (hname : d'.isNamed id "style" = d.isNamed id "style")
    (htexts : d'.texts id = d.texts id) : d'.HoldsStyles id ↔ d.HoldsStyles id := by
  have htext := Document.textContent_of_texts htexts
  constructor
  · rintro ⟨hnamed, hvisible, hread⟩
    rw [hname] at hnamed
    rw [htext] at hvisible hread
    exact ⟨hnamed, hvisible, hread⟩
  · rintro ⟨hnamed, hvisible, hread⟩
    rw [← hname] at hnamed
    rw [← htext] at hvisible hread
    exact ⟨hnamed, hvisible, hread⟩

/-- What restyling keeps of a node around which no sheet stands. -/
structure Spares (P : QName → Prop) (d : Document) (j : NodeId) (d' : Document) : Prop
    extends KeepsWay d j d' where
  sound : d'.IsSound P
  isCut : d.IsCut d'
  isNamed_eq : ∀ i s, d'.isNamed i s = d.isNamed i s
  texts_eq : ∀ i, d.IsAbove i j → d'.texts i = d.texts i

theorem Spares.refl (hd : d.IsSound P) (j : NodeId) : Spares P d j d :=
  ⟨.refl hd.isForest j, hd, .of_isRestyled (.refl d), fun _ _ => rfl, fun _ _ => rfl⟩

section Styling

variable {visit : Visit} (hvisit : IsStyling P visit) (hd : d.IsSound P)
include hvisit

theorem keeps_texts (hunread : d.HoldsNoSheet id) :
    visit.Keeps fun d' => d'.IsSound P ∧ d'.texts id = d.texts id := by
  refine .of_keep (fun d' i _ h _ => ?_) hvisit.keep
  refine ⟨(hvisit.editing.edits d' i h.1).isSound h.1,
    ((hvisit.restyles d' i).texts_eq h.1.isForest fun _ hstyles => ?_).trans h.2⟩
  have hread := hstyles.read
  rw [Document.textContent_of_texts h.2, hunread.unread] at hread
  cases hread

include hd

theorem keeps_spares (hj : j < d.size) (hclear : ∀ a, d.IsAbove a j → ¬ d.HoldsStyles a) :
    visit.Keeps (Spares P d j) := by
  refine .of_keep (fun d' id _ h _ => ?_) hvisit.keep
  have hstep := hvisit.restyles d' id
  have hforest := h.isForest
  have hsound := (hvisit.editing.edits d' id h.sound).isSound h.sound
  have habove : ∀ a, d.IsAbove a j → ¬ d'.HoldsStyles a := fun a ha =>
    (holdsStyles_iff (h.isNamed_eq a _) (h.texts_eq a ha)).not.2 (hclear a ha)
  refine ⟨⟨hsound.isForest, fun i hi => ?_⟩, hsound, h.isCut.trans (hstep.isCut hforest),
    fun i s => (hstep.isNamed_eq i s).trans (h.isNamed_eq i s),
    fun i hi => (hstep.texts_eq hforest fun _ => habove i hi).trans (h.texts_eq i hi)⟩
  have hlt : i < d.size := hi.elim (fun heq => heq ▸ hj) hd.isForest.lt_size_of_isAbove
  refine (hstep.parent_eq hforest (Nat.lt_of_lt_of_le hlt h.isCut.size_le) fun p hp => ?_).trans
    (h.parent_eq i hi)
  rw [h.parent_eq i hi] at hp
  exact habove p (hi.of_child hp)

/-- A sheet that is come upon with its text as it was sheds what is below it. -/
theorem not_isAbove_topDown {a : NodeId} (hid : id < d.size) (ha : d.IsAbove a id)
    (hroot : d.IsAbove root a) (hstyles : d.HoldsStyles a)
    (hclear : ∀ b, d.IsAbove b a → ¬ d.HoldsStyles b) :
    Spares P d a ((Pass.topDown visit).run d) ∧ ¬ ((Pass.topDown visit).run d).IsAbove a id := by
  have hspares := keeps_spares hvisit hd (hd.isForest.lt_size_of_isAbove ha) hclear
  have hcut : ∀ d' i, Spares P d a d' → ¬ d'.IsAbove a id → ¬ (visit d' i).1.IsAbove a id :=
    fun d' i h hnot habove => hnot (((hvisit.restyles d' i).isCut h.isForest).isAbove
      h.isForest (Nat.lt_of_lt_of_le hid h.isCut.size_le) habove)
  have hsheds : ∀ d', Spares P d a d' → (d'.texts a = d.texts a ∨ ¬ d'.IsAbove a id) →
      ¬ (visit d' a).1.IsAbove a id := by
    intro d' h hcase
    rcases hcase with htexts | hnot
    · exact (hvisit.restyles d' a).not_isAbove h.isForest
        ((hvisit.editing.edits d' a h.sound).isSound h.sound).isForest
        ((holdsStyles_iff (h.isNamed_eq a _) htexts).2 hstyles)
        (Nat.lt_of_lt_of_le hid h.isCut.size_le)
    · exact hcut d' a h hnot
  refine Visit.reaches_topDown hd.isForest hvisit.keep
    (Q := fun d' => Spares P d a d' ∧ (d'.texts a = d.texts a ∨ ¬ d'.IsAbove a id))
    (R := fun d' => Spares P d a d' ∧ ¬ d'.IsAbove a id) ?_ ?_
    (fun d' h => h.1.toKeepsWay) ?_ hroot ⟨.refl hd a, .inl rfl⟩
  · refine .of_keep (fun d' i p h hp => ⟨hspares.kept d' i p h.1 hp, ?_⟩) hvisit.keep
    by_cases hi : i = a
    · rw [hi]
      exact .inr (hsheds d' h.1 h.2)
    · refine h.2.imp (fun htexts => ?_) (hcut d' i h.1)
      exact ((hvisit.restyles d' i).texts_eq h.1.isForest
        fun heq => absurd heq.symm hi).trans htexts
  · exact .of_keep (fun d' i p h hp => ⟨hspares.kept d' i p h.1 hp, hcut d' i h.1 h.2⟩) hvisit.keep
  · exact fun d' p h hp => ⟨hspares.kept d' a p h.1 hp, hsheds d' h.1 h.2⟩

end Styling

section Minified

variable [QName.Admits P] (hd : d.IsSound P)
include hd

/-- Around what is left no sheet stood that was written anew. -/
theorem not_holdsStyles_of_left (hlt : id < d.size) (hreached : id ∈ d.subtree root)
    (hleft : id ∈ (minifyStyles.run d).subtree root) {a : NodeId} (ha : d.IsAbove a id) :
    ¬ d.HoldsStyles a := by
  obtain ⟨visit, heq, hvisit⟩ := exists_isStyling (P := P)
  rw [heq] at hleft
  intro hstyles
  obtain ⟨b, hb, hfull, hclear⟩ := hd.isForest.exists_uppermost (.inr ha) hstyles
  have hbid : d.IsAbove b id := hb.resolve_left fun heq => hclear a (heq ▸ ha) hstyles
  have hup : b ∈ d.subtree root := ((Document.IsCut.of_isRestyled (.refl d)).isAbove_of_reached
    hd.toIsRooted hd.isForest hlt hreached hbid).2
  have hroot : d.IsAbove root b := (hd.isForest.mem_subtree_iff.1 hup).resolve_left fun heq => by
    have hel := Document.isElement_of_isNamed hfull.named
    rw [heq, hd.not_isElement_root] at hel
    cases hel
  obtain ⟨hspares, hnot⟩ := not_isAbove_topDown hvisit hd hlt hbid hroot hfull hclear
  exact hnot (hspares.isCut.isAbove_of_reached hd.toIsRooted hspares.isForest hlt hleft hbid).1

variable (h : d.HoldsNoSheet id)
include h

theorem texts_minifyStyles : (minifyStyles.run d).texts id = d.texts id := by
  obtain ⟨visit, heq, hvisit⟩ := exists_isStyling (P := P)
  rw [heq]
  exact ((keeps_texts hvisit h).topDown ⟨hd, rfl⟩).2

/-- A `style` element whose text is no sheet stays unless a sheet stands around it. -/
theorem mem_elements_minifyStyles_iff :
    id ∈ (minifyStyles.run d).elements ↔ ∀ a, d.IsAbove a id → ¬ d.HoldsStyles a := by
  obtain ⟨hreached, helement⟩ := Document.mem_elements_iff.1 h.mem
  have hlt := Document.lt_size_of_isElement helement
  constructor
  · intro hmem a ha
    exact not_holdsStyles_of_left hd hlt hreached (Document.mem_elements_iff.1 hmem).1 ha
  · intro hclear
    obtain ⟨visit, heq, hvisit⟩ := exists_isStyling (P := P)
    have hspares := (keeps_spares hvisit hd hlt hclear).topDown (.refl hd id)
    rw [heq, Document.mem_elements_iff]
    exact ⟨hspares.mem_subtree hd.isForest hreached,
      Document.isElement_of_isNamed ((hspares.isNamed_eq id _).trans h.named)⟩

end Minified

end Pass

/-! ## Path data -/

/-- Whether an element of a document holds path data that cannot be read. -/
structure Document.HoldsNoPath (d : Document) (id : NodeId) : Prop where
  mem : id ∈ d.elements
  unread : ∃ e text, d.element? id = some e ∧ e.attr? "d" = some text ∧
    (Path.read text).isOk = false

/-- Whether an element stands in a document where it stood, as it was. -/
structure Document.StaysPut (d d' : Document) (id : NodeId) : Prop where
  content_eq : d'.content id = d.content id
  parent_eq : d'.parent id = d.parent id
  mem : id ∈ d'.elements

variable {d : Document} {id : NodeId}

theorem Document.HoldsNoPath.pathOf?_eq (h : d.HoldsNoPath id) : Merging.pathOf? d id = none := by
  obtain ⟨e, text, he, htext, hunread⟩ := h.unread
  obtain ⟨fault, hread⟩ := exists_error_of_isOk hunread
  rw [Merging.pathOf?, he, Option.bind_some, htext, Option.bind_some, hread]
  rfl

namespace Pass

theorem rewritePath_of_unread (format : PathFormat) {e : Element} {text : String}
    (htext : e.attr? "d" = some text) (hunread : (Path.read text).isOk = false) :
    rewritePath format e = e := by
  obtain ⟨fault, hread⟩ := exists_error_of_isOk hunread
  have hnone : shorterPath? format text = none := by
    rw [shorterPath?, hread]
  rw [rewritePath, htext, Option.bind_some, hnone]
  exact ite_self e

/-- Path data that cannot be read is not written anew. -/
theorem staysPut_convertPathData (precision : Option Nat) (h : d.HoldsNoPath id) :
    d.StaysPut ((convertPathData precision).run d) id := by
  obtain ⟨e, text, he, htext, hunread⟩ := h.unread
  have hcontent := Content.eq_element_of_element? he
  have hkeeps : (Visit.rewriting
      (rewritePath { PathFormat.default with precision })).Keeps
        fun d' => d.IsRestyled d' ∧ d'.content id = d.content id := by
    refine .of_keep (fun d' i _ hd' _ => ⟨hd'.1.trans (.updateElement d' i _), ?_⟩) fun _ _ => rfl
    rw [Visit.rewriting, Document.content_updateElement, hd'.2, hcontent, Content.mapElement,
      rewritePath_of_unread _ htext hunread, ite_self]
  obtain ⟨hrestyled, hsame⟩ := hkeeps.topDown ⟨.refl d, rfl⟩
  exact ⟨hsame, hrestyled.parent_eq id, hrestyled.elements_eq ▸ h.mem⟩

end Pass

/-! ## Merging -/

namespace Merging

variable {P : QName → Prop} {s : Document × Option Target}

/-- What merging keeps of an element whose path data cannot be read. -/
structure Bypasses (P : QName → Prop) (d : Document) (id : NodeId)
    (s : Document × Option Target) : Prop extends KeepsWay d id s.1 where
  sound : s.1.IsSound P
  content_eq : s.1.content id = d.content id
  run : ∀ t ∈ s.2, t.id ≠ id

section Bypassing

variable (h : Bypasses P d id s) (hunread : pathOf? d id = none)
include h hunread

theorem Bypasses.ne {c : NodeId} {path : Path Float} (hc : pathOf? s.1 c = some path) :
    c ≠ id := by
  rintro rfl
  rw [pathOf?_eq h.content_eq, hunread] at hc
  cases hc

theorem Bypasses.advance [QName.Admits P] (options : Options) (c : NodeId) :
    Bypasses P d id (advance options s.1 s.2 c) := by
  rcases advance_cases options s.1 s.2 c with ⟨run, heq, hrun⟩ | ⟨t, path, hrun, hjoins, heq⟩
  · rw [heq]
    refine ⟨h.toKeepsWay, h.sound, h.content_eq, fun t ht => ?_⟩
    obtain ⟨-, hid, hpath⟩ := hrun t ht
    exact hid ▸ h.ne hunread hpath
  · have ht : t.id ≠ id := h.run t hrun
    have hedits : Edits P Element.IsNoSvg s.1 (absorb options s.1 t c path).1 :=
      edits_absorb options t path (isNamed_of_isMergeable hjoins.isMergeable)
    have hsound := hedits.isSound h.sound
    rw [heq]
    refine ⟨⟨hsound.isForest, fun j hj => ?_⟩, hsound, ?_, fun t' ht' => ?_⟩
    · rw [parent_absorb, if_neg, h.parent_eq j hj]
      -- what is absorbed can be read and has no children
      rintro rfl
      rcases hj with heq | habove
      · exact h.ne hunread hjoins.reads heq.symm
      · obtain ⟨i, hi, -⟩ := h.exists_child habove
        rw [children_of_isMergeable hjoins.isMergeable] at hi
        cases hi
    · rw [content_absorb options t s.1 path ht.symm, h.content_eq]
    · cases ht'
      exact ht

end Bypassing

/-- An element whose path data cannot be read neither changes nor goes when paths are merged. -/
theorem staysPut_mergePaths [QName.Admits P] (options : Options) (hd : d.IsSound P)
    (hunread : d.HoldsNoPath id) : d.StaysPut ((Pass.mergePaths options).run d) id := by
  have hnone := hunread.pathOf?_eq
  have hkeeps : Visit.Keeps
      (fun d id =>
        if d.isElement id then (mergeChildren options d id, Verdict.keep) else (d, Verdict.keep))
      fun d' => Bypasses P d id (d', none) := by
    refine Visit.Keeps.of_keep (fun d' i _ h _ => ?_) fun d' i => by split <;> rfl
    split
    · have hmerged := List.foldlRecOn (motive := Bypasses P d id) (d'.children i)
        (fun s c => advance options s.1 s.2 c) h fun s h c _ => h.advance hnone options c
      exact ⟨hmerged.toKeepsWay, hmerged.sound, hmerged.content_eq, fun t ht => by cases ht⟩
    · exact h
  have h := hkeeps.topDown ⟨.refl hd.isForest id, hd, rfl, fun t ht => by cases ht⟩
  obtain ⟨hreached, helement⟩ := Document.mem_elements_iff.1 hunread.mem
  have hcontent : ((Pass.mergePaths options).run d).content id = d.content id := h.content_eq
  refine ⟨hcontent, h.parent_eq id (.inl rfl), Document.mem_elements_iff.2 ⟨?_, ?_⟩⟩
  · exact h.mem_subtree hd.isForest hreached
  · rwa [Document.isElement, hcontent]

end Merging

/-! ## All four passes -/

/-- What cannot be read is left as it is.  A `style` element whose text is no sheet keeps that
text, and the classes and ids in it stay; a selector stays in its rule; an element with path
data stays put.  A `style` element is lost exactly if a sheet stands around it that is written
anew. -/
theorem unread_stays (hd : d.IsSound fun _ => True) (inlining : Inlining.Options)
    (precision : Option Nat) (merging : Merging.Options) :
    let inlined := (Pass.inlineStyles inlining).run d
    let minified := Pass.minifyStyles.run d
    (∀ id, d.HoldsNoSheet id →
      (inlined.texts id = d.texts id ∧
        (id ∈ inlined.elements ↔ Inlining.IsOutside inlining d id)) ∧
      (minified.texts id = d.texts id ∧
        (id ∈ minified.elements ↔ ∀ a, d.IsAbove a id → ¬ d.HoldsStyles a)) ∧
      d.Resembles (SelectorNames.ofText (d.textContent id)) inlined) ∧
    (∀ id sheet, d.HoldsSheet id sheet → (∃ x ∈ sheet.styleRules, Inlining.HasUnread x.2) →
      (id ∈ inlined.elements ↔ Inlining.IsOutside inlining d id) ∧
      ∃ left, Inlining.Holds d inlined id left ∧
        ∀ x ∈ sheet.styleRules, Inlining.HasUnread x.2 → Inlining.KeepsUnread left x) ∧
    (∀ id, d.HoldsNoPath id →
      d.StaysPut ((Pass.convertPathData precision).run d) id ∧
      d.StaysPut ((Pass.mergePaths merging).run d) id) := by
  refine ⟨fun id h => ⟨?_, ⟨?_, ?_⟩, ?_⟩, fun id sheet h hunread => ?_, fun id h => ⟨?_, ?_⟩⟩
  · exact Inlining.inline_of_holdsNoSheet hd inlining h
  · exact Pass.texts_minifyStyles hd h
  · exact Pass.mem_elements_minifyStyles_iff hd h
  · exact Inlining.resembles_inline_of_holdsNoSheet hd inlining h
  · exact Inlining.inline_of_hasUnread hd inlining h hunread
  · exact Pass.staysPut_convertPathData precision h
  · exact Merging.staysPut_mergePaths merging hd h

/-! ## A sheet that is none inside another sheet -/

namespace Nested

def element (name : String) (attributes : List Attribute) : Content :=
  .element (.ofAttributes (.plain name) attributes)

def outerText : String := "!\x7bb:c\x7d"

def innerText : String := "\x7bb:c\x7d"

def document : Document :=
  ((((((Document.empty.append root (element "svg" [])).1.append 1 (element "style" [])).1.append 2
    (.text outerText)).1.append 2 (element "style" [])).1.append 4 (.text innerText)).1.append 1
      (element "path" [⟨.plain "d", "z"⟩])).1

def rule : StyleRule := ⟨0, ["!"], [⟨"b", "c", .normal⟩]⟩

def sheet : Stylesheet := ⟨[.style rule]⟩

theorem isSound_document : document.IsSound fun _ => True := by
  have helement : ∀ name attributes, element name attributes ≠ .root :=
    fun name attributes h => by cases h
  have htext : ∀ s, Content.text s ≠ .root := fun s h => by cases h
  refine ⟨?_, fun j e he => ⟨trivial, fun _ _ => trivial, ?_⟩⟩
  · exact (((((Document.IsRooted.empty.append (by decide) (helement _ _)).append (by decide)
      (helement _ _)).append (by decide) (htext _)).append (by decide) (helement _ _)).append
        (by decide) (htext _)).append (by decide) (helement _ _)
  · exact Document.forall_element?_of_all (Q := fun e => (e.attributes.map (·.name)).Nodup)
      (by decide) he

theorem read_outer : Stylesheet.read outerText = .ok sheet := by cbv

theorem holdsSheet_document : document.HoldsSheet 2 sheet where
  mem := by decide
  named := by decide
  read := by
    rw [show document.textContent 2 = outerText by decide]
    exact read_outer

theorem holdsNoSheet_document : document.HoldsNoSheet 4 where
  mem := by decide
  named := by decide
  unread := by
    rw [show document.textContent 4 = innerText by decide]
    cbv

theorem holdsNoPath_document : document.HoldsNoPath 6 where
  mem := by decide
  unread := ⟨_, "z", rfl, by decide, by cbv⟩

theorem hasUnread_rule : Inlining.HasUnread rule := by
  refine ⟨"!", List.mem_cons_self, ?_⟩
  rw [Inlining.isUnread, ComplexSelector.read, SelectorList.read, SelectorReader.selectors_eq,
    SelectorReader.complex, SelectorReader.compound, SelectorReader.simples_eq]
  cbv

theorem exists_mem_sheetsOf : ∃ s ∈ Inlining.sheetsOf document, s.owner = 2 := by
  have hsheet : (document.element? 2).any (Inlining.isSheet document 2) = true := by decide
  have htext : document.textContent 2 = outerText := by decide
  exact ⟨_, List.mem_filterMap.2 ⟨2, holdsSheet_document.mem,
    Inlining.sheetOf?_of_read hsheet htext (by decide) read_outer⟩, rfl⟩

theorem isOutside_document : Inlining.IsOutside .default document 2 := by
  intro _ s hs habove
  have hnamed := Inlining.isNamed_of_mem_sheetsOf hs
  rw [Document.isAbove_iff_of_parent (show document.parent 2 = some 1 by decide)] at habove
  rcases habove with heq | habove
  · rw [heq] at hnamed
    exact absurd hnamed (by decide)
  · rw [Document.isAbove_iff_of_parent (show document.parent 1 = some root by decide)] at habove
    rcases habove with heq | habove
    · rw [heq] at hnamed
      exact absurd hnamed (by decide)
    · exact Document.not_isAbove_of_parent_none (by decide) habove

theorem holdsStyles_document : document.HoldsStyles 2 where
  named := holdsSheet_document.named
  visible := by
    rw [show document.textContent 2 = outerText by decide]
    decide
  read := by
    rw [holdsSheet_document.read]
    rfl

end Nested

/-- The inner text is lost, whichever pass writes the sheet around it anew. -/
theorem unread_lost :
    (Nested.document.IsSound fun _ => True) ∧ Nested.document.HoldsNoSheet 4 ∧
      4 ∉ ((Pass.inlineStyles .default).run Nested.document).elements ∧
      4 ∉ (Pass.minifyStyles.run Nested.document).elements ∧
      Nested.document.HoldsSheet 2 Nested.sheet ∧ Inlining.HasUnread Nested.rule ∧
      2 ∈ ((Pass.inlineStyles .default).run Nested.document).elements ∧
      Nested.document.HoldsNoPath 6 ∧
      Nested.document.StaysPut ((Pass.mergePaths .default).run Nested.document) 6 := by
  obtain ⟨hsheets, hselectors, hpaths⟩ :=
    unread_stays Nested.isSound_document .default none .default
  obtain ⟨⟨-, hinlined⟩, ⟨-, hminified⟩, -⟩ := hsheets 4 Nested.holdsNoSheet_document
  obtain ⟨houter, -⟩ := hselectors 2 Nested.sheet Nested.holdsSheet_document
    ⟨([], Nested.rule), List.mem_cons_self, Nested.hasUnread_rule⟩
  have habove : Nested.document.IsAbove 2 4 := Document.isAbove_of_parent (by decide)
  refine ⟨Nested.isSound_document, Nested.holdsNoSheet_document, fun hmem => ?_, fun hmem => ?_,
    Nested.holdsSheet_document, Nested.hasUnread_rule, houter.2 Nested.isOutside_document,
    Nested.holdsNoPath_document, (hpaths 6 Nested.holdsNoPath_document).2⟩
  · obtain ⟨s, hs, howner⟩ := Nested.exists_mem_sheetsOf
    exact hinlined.1 hmem rfl s hs (howner ▸ habove)
  · exact hminified.1 hmem 2 habove Nested.holdsStyles_document

end SvgCompact
