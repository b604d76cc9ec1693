import SvgCompact.Proofs.Inlining.WrittenBack
import SvgCompact.Proofs.Markup.Replanting
import SvgCompact.Proofs.Optimizer.Validity

/-!
Style sheets survive printing.

A `style` element is read again with the same text if no text in it is blank and no
character data section in it ends early.  What the passes write into such an element is
never blank unless it is empty, so all that is left to ask of a document that they
rewrote is that sections end where they should and a root element is left:
`sheetTexts_read_print`.
-/

namespace SvgCompact

open Document (root)

/-- The texts of the `style` elements in document order. -/
def Document.sheetTexts (d : Document) : List String :=
  (d.elements.filter (d.isNamed · "style")).map d.textContent

/-- Whether a text is not lost where blank text does not count. -/
def IsSolid (s : String) : Prop :=
  s = "" ∨ (Text.trim s.toList).isEmpty = false

theorem isSolid_append {s u : String} (hs : IsSolid s) (hu : IsSolid u) : IsSolid (s ++ u) := by
  rcases hs with rfl | hs
  · rwa [String.empty_append]
  · refine .inr ?_
    rw [← Bool.not_eq_true, List.isEmpty_iff, Text.trim, Text.trimBy_eq_nil_iff] at hs ⊢
    intro hblank
    refine hs fun c hc => hblank c ?_
    rw [String.toList_append]
    exact List.mem_append_left _ hc

/-! ## Trees -/

/-- Whether some content is a `style` element. -/
def Content.isSheet (c : Content) : Bool :=
  c.element?.any (·.isNamed "style")

namespace Branches

open Markup

def sheetText? (x : Content × String) : Option String :=
  if x.1.isSheet then some x.2 else none

def sheetTexts (f : Branches) : List String :=
  f.entries.filterMap sheetText?

theorem sheetTexts_node (c : Content) (below rest : Branches) : (node c below rest).sheetTexts =
    (sheetText? (c, below.characters)).toList ++ (below.sheetTexts ++ rest.sheetTexts) := by
  rw [sheetTexts, entries_node, List.filterMap_cons, List.filterMap_append]
  cases sheetText? (c, below.characters) <;> rfl

/-- Whether no text in the row is lost where blank text does not count. -/
def IsSolidRow : Branches → Prop
  | nil => True
  | node c _ rest => (∀ s, c = .text s → IsSolid s) ∧ rest.IsSolidRow

/-- What trees ask of each node so that their sheets are read again. -/
structure IsTidy (c : Content) (below : Branches) : Prop where
  whole : c.isElement = false → below = nil
  solid : c.isSheet = true → below.IsSolidRow

theorem characters_attach (c : Content) (below rest : Branches) :
    (attach c below rest).characters = c.characters?.getD "" ++ rest.characters := by
  rcases attach_cases c below rest with ⟨s, u, inner, more, rfl, rfl, heq⟩ | ⟨-, heq⟩
  · rw [heq]
    exact String.append_assoc
  · rw [heq, characters]

theorem characters_joined (f : Branches) : f.joined.characters = f.characters := by
  induction f with
  | nil => rfl
  | node c below rest _ ihRest => rw [joined, characters_attach, ihRest, characters]

theorem isSolidRow_joined {f : Branches} (h : f.IsSolidRow) : f.joined.IsSolidRow := by
  induction f with
  | nil => trivial
  | node c below rest _ ihRest =>
    have hrest := ihRest h.2
    rw [joined]
    rcases attach_cases c below.joined rest.joined with
      ⟨s, u, inner, more, rfl, heq', heq⟩ | ⟨-, heq⟩
    · rw [heq]
      rw [heq'] at hrest
      refine ⟨fun v hv => ?_, hrest.2⟩
      cases hv
      exact isSolid_append (h.1 s rfl) (hrest.1 u rfl)
    · rw [heq]
      exact ⟨h.1, hrest⟩

theorem isTidy_joined {f : Branches} (h : f.Forall IsTidy) : f.joined.Forall IsTidy := by
  refine forall_joined (fun s u inner h => ⟨fun _ => h.whole rfl, fun hsheet => by cases hsheet⟩)
    (fun c below h => ⟨fun hc => ?_, fun hc => isSolidRow_joined (h.solid hc)⟩) h
  rw [h.whole hc]
  rfl

theorem sheetTexts_joined {f : Branches} (h : f.Forall IsTidy) :
    f.joined.sheetTexts = f.sheetTexts := by
  induction f with
  | nil => rfl
  | node c below rest ihBelow ihRest =>
    obtain ⟨hc, hbelow, hrest⟩ := h
    rw [joined, sheetTexts_node, ← ihRest hrest, ← ihBelow hbelow]
    rcases attach_cases c below.joined rest.joined with
      ⟨s, u, inner, more, rfl, heq', heq⟩ | ⟨-, heq⟩
    · obtain rfl := hc.whole rfl
      rw [heq, heq', sheetTexts_node, sheetTexts_node]
      rfl
    · rw [heq, sheetTexts_node, characters_joined]

/-- A leaf that is no text is read as a leaf of its kind. -/
theorem restored_cases (options : PrintOptions) (shown : Bool) (c : Content)
    (below rest : Branches) :
    (∃ e, c = .element e ∧ restored options shown c below rest =
      node (.element (reprinted options e)) below rest) ∨
    (∃ s, c = .text s ∧ restored options shown c below rest =
      if isKept shown s then node (.text s) nil rest else rest) ∨
    (c.isElement = false ∧ restored options shown c below rest = node (reread c) nil rest) := by
  cases c with
  | element e => exact .inl ⟨e, rfl, rfl⟩
  | text s => exact .inr (.inl ⟨s, rfl, rfl⟩)
  | _ => exact .inr (.inr ⟨rfl, rfl⟩)

/-- Where blank text does not count, a row without blank texts keeps its characters. -/
theorem characters_readBack (options : PrintOptions) {f : Branches} (h : f.IsSolidRow) :
    (f.readBack options false).characters = f.characters := by
  induction f with
  | nil => rfl
  | node c below rest _ ihRest =>
    have hrest := ihRest h.2
    rw [readBack, characters, ← hrest]
    rcases restored_cases options false c (below.readBack options (showsBlanks c))
      (rest.readBack options false) with ⟨e, rfl, heq⟩ | ⟨s, rfl, heq⟩ | ⟨hc, heq⟩
    · rw [heq]
      rfl
    · rw [heq, isKept, Bool.false_or]
      rcases h.1 s rfl with rfl | hs
      · exact String.empty_append.symm
      · have hne : s.isEmpty = false := by
          rw [← Bool.not_eq_true, String.isEmpty_iff]
          rintro rfl
          cases hs
        rw [hs, hne]
        rfl
    · rw [heq, characters, (kind_reread hc).2]

theorem not_isAnyOf_textElements {e : Element} {name : String}
    (hname : QName.read name = QName.plain name) (hother : name ∉ textElements)
    (h : e.isNamed name = true) : e.isAnyOf textElements = false := by
  refine List.any_eq_false.2 fun s hs => ?_
  have hne : e.isNamed s = false :=
    Element.isNamed_eq_false hname (fun heq => hother (heq ▸ hs)) h
  rw [hne]
  exact Bool.false_ne_true

theorem showsBlanks_of_isSheet {c : Content} (h : c.isSheet = true) : showsBlanks c = false := by
  obtain ⟨e, he, hnamed⟩ := (Option.any_eq_true _ _).1 h
  rw [showsBlanks, he]
  exact not_isAnyOf_textElements Element.read_style (by decide) hnamed

theorem isSheet_reprinted (options : PrintOptions) (e : Element) :
    (Content.element (reprinted options e)).isSheet = (Content.element e).isSheet := by
  have hname : (reprinted options e).name = e.name := Element.name_ofAttributes _ _
  show (reprinted options e).name.isNamed "style" = e.name.isNamed "style"
  rw [hname]

theorem sheetTexts_leaf {c : Content} (hc : c.element? = none) (rest : Branches) :
    (node c nil rest).sheetTexts = rest.sheetTexts := by
  rw [sheetTexts_node, sheetText?, Content.isSheet, hc]
  rfl

theorem sheetTexts_readBack (options : PrintOptions) (shown : Bool) {f : Branches}
    (h : f.Forall IsTidy) : (f.readBack options shown).sheetTexts = f.sheetTexts := by
  induction f generalizing shown with
  | nil => rfl
  | node c below rest ihBelow ihRest =>
    obtain ⟨hc, hbelow, hrest⟩ := h
    have hrest' := ihRest shown hrest
    rw [readBack]
    rcases restored_cases options shown c (below.readBack options (showsBlanks c))
      (rest.readBack options shown) with ⟨e, rfl, heq⟩ | ⟨s, rfl, heq⟩ | ⟨helement, heq⟩
    · rw [heq, sheetTexts_node, sheetTexts_node, ihBelow _ hbelow, hrest']
      refine congrArg (· ++ _) (congrArg Option.toList ?_)
      rw [sheetText?, sheetText?, isSheet_reprinted]
      split
      · next hsheet =>
        rw [showsBlanks_of_isSheet hsheet, characters_readBack options (hc.solid hsheet)]
      · rfl
    · obtain rfl := hc.whole rfl
      rw [heq, sheetTexts_leaf rfl, ← hrest']
      split
      · exact sheetTexts_leaf rfl _
      · rfl
    · obtain rfl := hc.whole helement
      rw [heq, sheetTexts_leaf (kind_reread helement).1, hrest', sheetTexts_leaf]
      exact Option.not_isSome_iff_eq_none.1 (by rw [← Content.isElement, helement]; simp)

end Branches

/-! ## Documents -/

namespace Document

variable {d d' : Document}

theorem isSheet_content (d : Document) (id : NodeId) :
    (d.content id).isSheet = d.isNamed id "style" := by
  rw [isNamed, element?, Content.isSheet]
  cases (d.content id).element? <;> rfl

theorem sheetTexts_eq (d : Document) :
    d.sheetTexts = ((d.subtree root).map d.entry).filterMap Branches.sheetText? := by
  rw [sheetTexts, elements]
  induction d.subtree root with
  | nil => rfl
  | cons id rest ih =>
    have hid : Branches.sheetText? (d.entry id) =
        if d.isNamed id "style" then some (d.textContent id) else none := by
      rw [← isSheet_content]
      rfl
    rw [List.map_cons, List.filterMap_cons, hid, ← ih]
    cases hstyle : d.isNamed id "style" with
    | true =>
      rw [List.filter_cons_of_pos (isElement_of_isNamed hstyle),
        List.filter_cons_of_pos (p := (d.isNamed · "style")) hstyle]
      rfl
    | false =>
      have hskip : ((id :: rest).filter d.isElement).filter (d.isNamed · "style") =
          (rest.filter d.isElement).filter (d.isNamed · "style") := by
        cases helement : d.isElement id <;> simp [helement, hstyle]
      rw [hskip]
      rfl

theorem sheetTexts_branches (h : d.IsRooted) :
    d.sheetTexts = (d.branches (d.children root)).sheetTexts := by
  have hroot : Branches.sheetText? (d.entry root) = none := by
    show (if (d.content root).isSheet then _ else none) = none
    rw [h.content_root]
    rfl
  rw [sheetTexts_eq, h.isForest.subtree_eq, List.map_cons, List.filterMap_cons, hroot,
    ← entries_branches h.isForest]
  rfl

/-- The trees that were planted have their sheets in the document that grew of them. -/
theorem sheetTexts_plant {f : Branches} (h : (f.plant root empty).IsNumbered) :
    (f.plant root empty).sheetTexts = f.sheetTexts := by
  have hroot : Branches.sheetText? ((f.plant root empty).entry root) = none := by
    show (if ((f.plant root empty).content root).isSheet then _ else none) = none
    rw [Branches.content_plant f root (by decide)]
    rfl
  have hsize : (f.plant root empty).size = f.count + 1 := by
    rw [Branches.size_plant, Nat.add_comm]
    rfl
  have hentries : (List.range' 1 f.count).map (f.plant root empty).entry = f.entries :=
    Branches.map_entry_plant f .empty (by decide)
  rw [sheetTexts_eq, subtree, h.subtreeWithin_root (by rw [hsize]; exact Nat.succ_pos _)
    (Nat.le_refl _), hsize, List.range_eq_range', List.range'_succ, List.map_cons]
  exact (List.filterMap_cons_none hroot).trans (congrArg _ hentries)

/-! ## Solid texts -/

/-- Whether characters stand in elements only, and blank texts only where they count. -/
structure HasSolidTexts (d : Document) : Prop where
  holder : d.HoldsInElements
  solid : ∀ j p s, d.parent j = some p → Markup.showsBlanks (d.content p) = false →
    d.content j = .text s → IsSolid s

theorem HasSolidTexts.forall_isTidy (h : d.HasSolidTexts) (hd : d.IsRooted) :
    (d.branches (d.children root)).Forall Branches.IsTidy := by
  have hrow : ∀ p, Markup.showsBlanks (d.content p) = false → ∀ ids : List NodeId,
      (∀ c ∈ ids, d.parent c = some p) → (d.branches ids).IsSolidRow := by
    intro p hp ids hids
    induction ids with
    | nil =>
      rw [branches_nil]
      trivial
    | cons id rest ih =>
      rw [branches_cons hd.isForest]
      exact ⟨fun s => h.solid id p s (hids id (by simp)) hp, ih fun c hc => hids c (by simp [hc])⟩
  refine forall_branches hd.isForest fun id hid j hj =>
    ⟨branches_children_of_leaf hd h.holder hid hj, fun hsheet => ?_⟩
  exact hrow j (Branches.showsBlanks_of_isSheet hsheet) _ fun c hc =>
    (hd.isForest.mem_children_iff j c).1 hc

theorem hasSolidTexts_of_isOrderly (h : d.IsOrderly) : d.HasSolidTexts where
  holder := h.holder
  solid j p s hp hhidden hs := by
    obtain ⟨-, hblank⟩ := h.fits j p hp s hs
    refine .inr (Bool.eq_false_iff.2 fun hempty => ?_)
    obtain ⟨e, he, hshown⟩ := hblank hempty
    rw [Content.eq_element_of_element? he] at hhidden
    exact Bool.false_ne_true (hhidden.symm.trans hshown)

/-- Whether all texts from some number on are solid. -/
def IsSolidFrom (d : Document) (n : Nat) : Prop :=
  ∀ j s, n ≤ j → d.content j = .text s → IsSolid s

section Edits

variable {P : QName → Prop} {drops : Element → Prop}

theorem showsBlanks_edit (h : Edit P drops d d') {p : NodeId} (hp : p < d.size) :
    Markup.showsBlanks (d'.content p) = Markup.showsBlanks (d.content p) := by
  rcases h.content_cases p with heq | ⟨e, e', he, he', hrevised⟩ | ⟨hnew, -⟩
  · rw [heq]
  · rw [he, he']
    show e'.isAnyOf _ = e.isAnyOf _
    unfold Element.isAnyOf Element.isNamed
    rw [hrevised.name]
  · exact absurd hp (Nat.not_lt.2 hnew)

theorem HasSolidTexts.edit (h : d.HasSolidTexts) (hd : d.IsForest) (he : Edit P drops d d')
    (hnew : d'.IsSolidFrom d.size) : d'.HasSolidTexts := by
  have htext : ∀ {j s}, j < d.size → d'.content j = .text s → d.content j = .text s := by
    intro j s hj hs
    rcases he.content_cases j with heq | ⟨e, e', -, he', -⟩ | ⟨hnew, -⟩
    · rwa [← heq]
    · rw [hs] at he'
      cases he'
    · exact absurd hj (Nat.not_lt.2 hnew)
  refine ⟨h.holder.edit hd he, fun j p s hp hhidden hs => ?_⟩
  by_cases hj : d.size ≤ j
  · exact hnew j s hj hs
  · have hs' := htext (Nat.lt_of_not_le hj) hs
    rcases he.parent_cases hd hp with hp | ⟨id, hg, -, hp⟩ | ⟨hle, -⟩
    · refine h.solid j p s hp ?_ hs'
      rwa [← showsBlanks_edit he (lt_size_of_mem_children ((hd.mem_children_iff p j).2 hp))]
    · obtain ⟨e, he, hnamed⟩ := isNamed_iff.1 hg
      refine h.solid j id s hp ?_ hs'
      rw [Content.eq_element_of_element? he]
      exact Branches.not_isAnyOf_textElements (by decide) (by decide) hnamed
    · exact absurd hle hj

/-- A text never changes while a document is edited. -/
theorem content_edits_of_text (he : Edits P drops d d') {j : NodeId} {s : String}
    (hs : d.content j = .text s) : d'.content j = .text s := by
  induction he with
  | refl => exact hs
  | tail _ hstep ih =>
    rcases hstep.content_cases j with heq | ⟨e, e', he, -, -⟩ | ⟨hnew, -⟩
    · rwa [heq]
    · rw [ih] at he
      cases he
    · rw [content_of_size_le hnew] at ih
      cases ih

theorem size_le_edits (he : Edits P drops d d') : d.size ≤ d'.size := by
  induction he with
  | refl => exact Nat.le_refl _
  | tail _ hstep ih => exact ih.trans hstep.size_le

theorem HasSolidTexts.edits (h : d.HasSolidTexts) (hd : d.IsSound P) (he : Edits P drops d d')
    (hnew : d'.IsSolidFrom d.size) : d'.HasSolidTexts := by
  induction he with
  | refl => exact h
  | @tail d₁ d₂ hfront hstep ih =>
    have hsize : d.size ≤ d₁.size := size_le_edits (P := P) hfront
    refine (ih fun j s hj hs => hnew j s hj (content_edits_of_text (.edit hstep) hs)).edit
      (Edits.isSound hfront hd).isForest hstep fun j s hj => hnew j s (Nat.le_trans hsize hj)

end Edits

/-! ## New texts -/

namespace IsSolidFrom

variable {n : Nat}

theorem of_size_le (hn : d.size ≤ n) : d.IsSolidFrom n := by
  intro j s hj hs
  rw [content_of_size_le (Nat.le_trans hn hj)] at hs
  cases hs

theorem isRestyled (h : d.IsSolidFrom n) (hrestyled : d.IsRestyled d') : d'.IsSolidFrom n := by
  intro j s hj hs
  rcases hrestyled.alike j with heq | ⟨helement, -⟩
  · exact h j s hj (heq ▸ hs)
  · rw [hs] at helement
    cases helement

theorem detach (h : d.IsSolidFrom n) (id : NodeId) : (d.detach id).IsSolidFrom n := by
  intro j s hj hs
  rw [content_detach] at hs
  exact h j s hj hs

theorem replaceText (h : d.IsSolidFrom n) (id : NodeId) (cdata : Bool) {u : String}
    (hu : IsSolid u) : (d.replaceText id cdata u).IsSolidFrom n := by
  intro j s hj hs
  rw [content_replaceText] at hs
  split at hs
  · split at hs
    · cases hs
    · cases hs
      exact hu
  · exact h j s hj hs

end IsSolidFrom

end Document

/-! ## Written sheets -/

theorem Rule.exists_visible_write (r : Rule) : ∃ c ∈ r.write, Text.isBlank c = false := by
  cases r with
  | statement name prelude => exact ⟨';', by simp [Rule.write], by decide⟩
  | _ => exact ⟨'\x7d', by simp [Rule.write], by decide⟩

theorem Stylesheet.isSolid_write (sheet : Stylesheet) : IsSolid sheet.write := by
  cases hrules : sheet.rules with
  | nil => exact .inl (by rw [write, hrules]; rfl)
  | cons r rest =>
    obtain ⟨c, hc, hvisible⟩ := r.exists_visible_write
    refine .inr (Bool.eq_false_iff.2 fun hempty => ?_)
    rw [List.isEmpty_iff, Text.trim, Text.trimBy_eq_nil_iff] at hempty
    have hblank := hempty c (by
      rw [write, hrules, String.toList_ofList, Rule.writeAll]
      exact List.mem_append_left _ hc)
    rw [hvisible] at hblank
    cases hblank

section Passes

variable {d : Document}

theorem isSolidFrom_minifyStyles {n : Nat} (h : d.IsSolidFrom n) :
    (Pass.minifyStyles.run d).IsSolidFrom n := by
  refine Visit.Keeps.topDown (Q := fun d => d.IsSolidFrom n) (Visit.Keeps.of_keep ?_ ?_) h
  · intro d id p hd _
    split
    · split
      · simp only [Pass.minifySheet]
        split
        · exact hd
        · split
          · next sheet _ => exact hd.replaceText id _ sheet.isSolid_write
          · exact hd
      · exact hd.isRestyled (.updateElement d id _)
    · exact hd
  · intro d id
    split
    · split <;> rfl
    · rfl

theorem isSolidFrom_inline {P : QName → Prop} [QName.Admits P] (hd : d.IsSound P)
    (options : Inlining.Options) {n : Nat} (h : d.IsSolidFrom n) :
    (Inlining.inline options d).IsSolidFrom n := by
  obtain ⟨d₁, hrestyled, -, hinline⟩ := Inlining.exists_isRestyled hd options
  have hd₁ := h.isRestyled hrestyled
  rw [hinline]
  split
  · refine List.foldlRecOn (motive := fun d : Document => d.IsSolidFrom n) _ _ hd₁ ?_
    intro d' hd' s _
    cases hempty : s.sheet.isEmpty with
    | false =>
      rw [Inlining.writeBack_of_full hempty]
      exact hd'.replaceText _ _ s.sheet.isSolid_write
    | true =>
      rw [Inlining.writeBack_of_empty hempty]
      rcases Inlining.removeSheet_cases d' s.owner with heq | ⟨q, -, -, -, heq⟩
      · rw [heq]
        exact hd'.detach _
      · rw [heq]
        exact (hd'.detach _).detach _
  · exact hd₁

/-- The texts of the `style` elements are read again from a document that was read and then
rewritten by a pass over its styles. -/
theorem sheetTexts_read_print {text : String} (hs : Markup.read text = .ok d)
    (hnames : d.HasWordNames) (hdoctype : d.HasNoBlankDoctype) {pass : Pass}
    (hpass : pass = .minifyStyles ∨ ∃ options, pass = .inlineStyles options)
    (hone : (pass.run d).HasOneRoot) (hcdata : (pass.run d).HasClosedCdata)
    {options : Markup.PrintOptions} (hcompact : options.pretty = false) :
    ∃ d', Markup.read (Markup.print options (pass.run d)) = .ok d' ∧
      d'.sheetTexts = (pass.run d).sheetTexts := by
  obtain ⟨hsound, hcontents⟩ := Markup.isPrintable_of_read hs hnames hdoctype
  obtain ⟨horderly, -⟩ := Markup.isOrderly_of_read hs
  have hnew : (pass.run d).IsSolidFrom d.size := by
    rcases hpass with rfl | ⟨options, rfl⟩
    · exact isSolidFrom_minifyStyles (.of_size_le (Nat.le_refl _))
    · exact isSolidFrom_inline hsound options (.of_size_le (Nat.le_refl _))
  have hedits : Document.Edits QName.IsPlain Element.IsNoSvg d (pass.run d) := by
    rcases hpass with rfl | ⟨options, rfl⟩
    · exact Pass.isStepwise_minifyStyles.isEditing d hsound
    · exact (Pass.isStepwise_inlineStyles options).isEditing d hsound
  have hrooted := (hedits.isSound hsound).toIsRooted
  have htidy := ((Document.hasSolidTexts_of_isOrderly horderly).edits hsound hedits
    hnew).forall_isTidy hrooted
  have hread := Markup.read_print_eq hrooted (Markup.isPrintable_of_edits hedits hcontents) hcdata
    hone options
  refine ⟨_, hread, ?_⟩
  have hnumbered := (Markup.isOrderly_of_read hread).1.toIsNumbered
  rw [Markup.replanted, Branches.laidOut_of_compact hcompact] at hnumbered ⊢
  rw [Document.sheetTexts_plant hnumbered,
    Branches.sheetTexts_readBack options false (Branches.isTidy_joined htidy),
    Branches.sheetTexts_joined htidy, Document.sheetTexts_branches hrooted]

end Passes

/-! ## A sheet in a character data section -/

namespace Sectioned

open Markup

def style : Element := .ofAttributes (.plain "style") []

def css : String := " a \x7b b: c \x7d "

def document : Document :=
  ((Document.empty.append root (.element style)).1.append 1 (.cdata css)).1

def sheet : Stylesheet := ⟨[.style ⟨0, ["a"], [⟨"b", "c", .normal⟩]⟩]⟩

/-- The document with its sheet written anew. -/
def after : Document := document.replaceText 1 true "a\x7bb:c\x7d"

theorem minifySheet_document : Pass.minifySheet document 1 = after := by
  have hread : Stylesheet.read css = .ok sheet := by cbv
  have htext : document.textContent 1 = css := by decide
  have hblank : css.toList.all Text.isBlank = false := by decide
  rw [Pass.minifySheet]
  simp only [htext, hblank, hread]
  decide

/-- The walk comes to the sheet and then to the section that was put in it. -/
theorem run_minifyStyles : Pass.minifyStyles.run document = after := by
  have hstyle : document.element? 1 = some style := by decide
  have hnone : after.element? 3 = none := by decide
  rw [Pass.minifyStyles, Pass.run, Walk.topDown,
    show document.children root = [1] by decide, List.foldl_cons, List.foldl_nil,
    show Walk.bound document = 4 + 2 by decide,
    Walk.parentsFirst_keep (by decide) (by rw [hstyle]; rfl)]
  simp only [hstyle, show style.isNamed "style" = true by decide, if_true, minifySheet_document]
  rw [show after.children 1 = [3] by decide, List.foldl_cons, List.foldl_nil,
    Walk.parentsFirst_keep (by decide) (by simp only [hnone])]
  simp only [hnone]
  rw [show after.children 3 = [] by decide, List.foldl_nil]

theorem isPlain_style : style.IsPlain :=
  Element.all_ofAttributes (QName.isPlain_read (s := "style") (by decide) (by decide)) (by simp)

theorem content_document (j : NodeId) : document.content j =
    if j = 1 then .element style else if j = 2 then .cdata css else .root := by
  match j with
  | 0 => rfl
  | 1 => rfl
  | 2 => rfl
  | j + 3 => rfl

theorem read_document : read "<style><![CDATA[ a \x7b b: c \x7d ]]></style>" = .ok document := by
  have hstart : Builder.empty.add (.start "style".toList false) =
      .ok ⟨(Document.empty.append root (.element style)).1, [(1, "style".toList)], true⟩ := by
    rw [Builder.add, Builder.addStart_eq_ok_iff]
    refine ⟨rfl, style, elementOf_printHead isPlain_style .default, ?_⟩
    rw [show tagName "style".toList = "style".toList by decide]
    rfl
  have hend : Reads ⟨document, [(1, "style".toList)], true⟩ "</style>".toList
      ⟨document, [], true⟩ :=
    .cons (show Piece.next '<' "/style>".toList = .ok (.finish "style".toList, []) from rfl) rfl
      (.nil _)
  have hcdata : Reads
      ⟨(Document.empty.append root (.element style)).1, [(1, "style".toList)], true⟩
      "<![CDATA[ a \x7b b: c \x7d ]]></style>".toList ⟨document, [], true⟩ :=
    .cons (show Piece.next '<' "![CDATA[ a \x7b b: c \x7d ]]></style>".toList =
      .ok (.cdata css.toList, "</style>".toList) from rfl) rfl hend
  exact read_eq_ok_iff.2 ⟨⟨document, [], true⟩,
    .cons (show Piece.next '<' "style><![CDATA[ a \x7b b: c \x7d ]]></style>".toList =
      .ok (.start "style".toList false, "<![CDATA[ a \x7b b: c \x7d ]]></style>".toList) from rfl)
      hstart hcdata, rfl, rfl, rfl⟩

theorem sheetTexts_read_print_section :
    read "<style><![CDATA[ a \x7b b: c \x7d ]]></style>" = .ok document ∧
      document.HasWordNames ∧ document.HasNoBlankDoctype ∧
      (Pass.minifyStyles.run document).HasOneRoot ∧
      (Pass.minifyStyles.run document).HasClosedCdata ∧ PrintOptions.default.pretty = false ∧
      ∃ d', read (print .default (Pass.minifyStyles.run document)) = .ok d' ∧
        d'.sheetTexts = ["a\x7bb:c\x7d"] := by
  have hnames : document.HasWordNames := by
    intro j e he
    have hc := Content.eq_element_of_element? he
    rw [content_document] at hc
    split_ifs at hc
    cases hc
    exact ⟨isPlain_style.name.toIsWord, fun a ha => (isPlain_style.names a ha).toIsWord⟩
  have hdoctype : document.HasNoBlankDoctype := by
    intro j body hbody
    rw [content_document] at hbody
    split_ifs at hbody
  have hone : (Pass.minifyStyles.run document).HasOneRoot := by
    rw [run_minifyStyles]
    exact ⟨1, by decide, by decide⟩
  have hcdata : (Pass.minifyStyles.run document).HasClosedCdata := by
    intro c s _ hs
    rw [run_minifyStyles, after, Document.content_replaceText, if_pos rfl, content_document] at hs
    split_ifs at hs
    · cases hs
      unfold Text.IsBody
      decide
    · cases hs
      unfold Text.IsBody
      decide
  obtain ⟨d', hread, htexts⟩ := sheetTexts_read_print read_document hnames hdoctype (.inl rfl)
    hone hcdata (show PrintOptions.default.pretty = false from rfl)
  refine ⟨read_document, hnames, hdoctype, hone, hcdata, rfl, d', hread, ?_⟩
  rw [htexts, run_minifyStyles]
  decide

end Sectioned

end SvgCompact
