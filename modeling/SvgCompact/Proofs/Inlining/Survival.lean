import SvgCompact.Proofs.Document.Cutting
import SvgCompact.Proofs.Element.Lookup
import SvgCompact.Proofs.Inlining.Applying
import SvgCompact.Proofs.Inlining.Staying
import SvgCompact.Proofs.Pass.Editing
import SvgCompact.Proofs.Selector.Names

/-!
What the pass leaves of the tree.

An element keeps its name and most of its attributes.  The attributes `class`, `id` and
`style` may change, but a class or an id that is in use is neither taken away nor given.

Restyling elements moves nothing, and writing sheets back only cuts nodes off.  If no
sheet is emptied, all lists of children stay as they are but those of the sheets
themselves.
-/

namespace SvgCompact

namespace Element

variable {e : Element} {name s : String}

/-! ## Resemblance -/

/-- Whether an element looks the same as another to selectors that use only certain
classes and ids and test no attribute that the pass writes. -/
structure Resembles (names : SelectorNames) (e e' : Element) : Prop where
  name : e'.name = e.name
  attr? : ∀ s ∉ ["class", "id", "style"], e'.attr? s = e.attr? s
  hasClass : ∀ c ∈ names.classes, e'.hasClass c = e.hasClass c
  hasId : ∀ i ∈ names.ids, e'.attr? "id" = some i ↔ e.attr? "id" = some i

namespace Resembles

variable {names : SelectorNames} {e' e'' : Element}

theorem refl (names : SelectorNames) (e : Element) : e.Resembles names e :=
  ⟨rfl, fun _ _ => rfl, fun _ _ => rfl, fun _ _ => Iff.rfl⟩

theorem trans (h : e.Resembles names e') (h' : e'.Resembles names e'') : e.Resembles names e'' where
  name := h'.name.trans h.name
  attr? s hs := (h'.attr? s hs).trans (h.attr? s hs)
  hasClass c hc := (h'.hasClass c hc).trans (h.hasClass c hc)
  hasId i hi := (h'.hasId i hi).trans (h.hasId i hi)

theorem mono {a b : SelectorNames} (hab : a.Within b) (h : e.Resembles b e') :
    e.Resembles a e' :=
  ⟨h.name, h.attr?, fun c hc => h.hasClass c (hab.classes hc), fun i hi => h.hasId i (hab.ids hi)⟩

theorem foldl {α : Type} {f : Element → α → Element}
    (hf : ∀ (e : Element) (a : α), e.Resembles names (f e a))
    (l : List α) (e : Element) : e.Resembles names (l.foldl f e) :=
  List.foldlRecOn (motive := e.Resembles names) l f (refl names e) fun _ he a _ => he.trans (hf _ a)

end Resembles

variable (names : SelectorNames)

theorem resembles_setStyle (e : Element) (x : Declaration) : e.Resembles names (e.setStyle x) := by
  have hattr : ∀ s, s ≠ "style" → (e.setStyle x).attr? s = e.attr? s :=
    fun s hs => attr?_writeBack read_style hs _
  have hclasses : (e.setStyle x).classes = e.classes := classes_writeBack _
  refine ⟨(isRevision_setStyle (P := QName.IsRead) e x).name, fun s hs => hattr s ?_, fun c _ => ?_,
    fun i _ => ?_⟩
  · exact fun hstyle => hs (by simp [hstyle])
  · rw [hasClass, hclasses, hasClass]
  · rw [hattr "id" (by decide)]

theorem resembles_removeClass (e : Element) {c : String} (hc : c ∉ names.classes) :
    e.Resembles names (e.removeClass c) := by
  rw [removeClass]
  split
  · have hattr : ∀ s, s ≠ "class" →
        ({ e with classes := e.classes.erase c }.writeClasses).attr? s = e.attr? s :=
      fun s hs => attr?_writeBack read_class hs _
    refine ⟨?_, fun s hs => hattr s ?_, fun c' hc' => ?_, fun i _ => ?_⟩
    · exact (isRevision_writeBack (P := QName.IsRead) { e with classes := e.classes.erase c }
        read_class (QName.isRead_read _) _).name
    · exact fun hclass => hs (by simp [hclass])
    · have hne : c' ≠ c := fun heq => hc (heq ▸ hc')
      rw [hasClass, writeClasses, classes_writeBack, hasClass, Bool.eq_iff_iff]
      simp [ClassList.contains, ClassList.erase, hne]
    · rw [hattr "id" (by decide)]
  · exact .refl names e

theorem resembles_dropId {e : Element} (hnodup : (e.attributes.map (·.name)).Nodup) {i : String}
    (hi : i ∉ names.ids) : e.Resembles names (Inlining.dropId i e) := by
  rw [Inlining.dropId]
  split
  · next hid =>
    have hid : e.attr? "id" = some i := by simpa using hid
    refine ⟨(isRevision_removeAttr (P := QName.IsRead) e "id").name, fun s hs => ?_, fun c _ => ?_,
      fun j hj => ?_⟩
    · rw [attr?, attribute?_removeAttr read_id (fun heq => hs (by simp [heq])), attr?]
    · rw [hasClass, classes_removeAttr read_id (by decide), hasClass]
    · rw [attr?_removeAttr_self read_id hnodup, hid]
      have hne : i ≠ j := fun heq => hi (heq ▸ hj)
      simp [hne]
  · exact .refl names e

end Element

/-! ## Documents -/

namespace Document

/-- Whether the elements of two documents resemble each other. -/
def Resembles (names : SelectorNames) (d d' : Document) : Prop :=
  ∀ j, Option.Rel (Element.Resembles names) (d.element? j) (d'.element? j)

namespace Resembles

variable {P : QName → Prop} {names : SelectorNames} {d d' d'' : Document}

theorem refl (names : SelectorNames) (d : Document) : d.Resembles names d := fun j => by
  cases d.element? j with
  | none => exact .none
  | some e => exact .some (.refl names e)

theorem trans (h : d.Resembles names d') (h' : d'.Resembles names d'') : d.Resembles names d'' :=
  fun j => by
    have hj := h j
    have hj' := h' j
    revert hj hj'
    generalize d.element? j = x, d'.element? j = y, d''.element? j = z
    intro hxy hyz
    cases hxy with
    | none =>
      cases hyz
      exact .none
    | some hxy =>
      cases hyz with
      | some hyz => exact .some (hxy.trans hyz)

theorem mono {a b : SelectorNames} (hab : a.Within b) (h : d.Resembles b d') :
    d.Resembles a d' := fun j => by
  have hj := h j
  revert hj
  generalize d.element? j = x, d'.element? j = y
  intro hxy
  cases hxy with
  | none => exact .none
  | some hxy => exact .some (hxy.mono hab)

theorem of_element?_eq (names : SelectorNames) (h : ∀ j, d'.element? j = d.element? j) :
    d.Resembles names d' :=
  fun j => (h j).symm ▸ refl names d j

theorem updateElement (d : Document) (id : NodeId) {f : Element → Element}
    (hf : ∀ e, d.element? id = some e → e.Resembles names (f e)) :
    d.Resembles names (d.updateElement id f) := fun j => by
  rw [element?_updateElement]
  split
  · next hj =>
    subst hj
    cases he : d.element? j with
    | none => exact .none
    | some e => exact .some (hf e he)
  · exact refl names d j

/-- Steps of which each leaves a sound document that resembles the one before. -/
theorem foldl {α : Type} {f : Document → α → Document} (hd : d.IsSound P)
    (hf : ∀ d, d.IsSound P → ∀ a, (f d a).IsSound P ∧ d.Resembles names (f d a)) (l : List α) :
    (l.foldl f d).IsSound P ∧ d.Resembles names (l.foldl f d) :=
  List.foldlRecOn (motive := fun d' => d'.IsSound P ∧ d.Resembles names d') l f
    ⟨hd, refl names d⟩ fun _ h a _ => ⟨(hf _ h.1 a).1, h.2.trans (hf _ h.1 a).2⟩

theorem foldl_updateElement (hd : d.IsSound P) {f : Element → Element}
    (hrevision : ∀ e, Element.IsRevision P e (f e))
    (hf : ∀ e : Element, e.All P → e.Resembles names (f e)) (ids : List NodeId) :
    (ids.foldl (fun d id => d.updateElement id f) d).IsSound P ∧
      d.Resembles names (ids.foldl (fun d id => d.updateElement id f) d) :=
  foldl hd (fun d hd id => ⟨(Edits.rewrite id hrevision : Edits P Element.IsNoSvg d _).isSound hd,
    updateElement d id fun e he => hf e (hd.names id e he)⟩) ids

end Resembles
end Document

/-! ## The pass -/

namespace Inlining

variable {P : QName → Prop} [QName.Admits P] (names : SelectorNames) {d : Document}

theorem resembles_offer (e : Element) (x : Declaration) :
    e.Resembles names (offer e x) := by
  rw [offer]
  split
  · split
    · exact e.resembles_setStyle names x
    · exact .refl names e
  · exact e.resembles_setStyle names x

theorem resembles_applyRecord (hd : d.IsSound P) (r : Record) :
    (applyRecord d r).IsSound P ∧ d.Resembles names (applyRecord d r) :=
  Document.Resembles.foldl_updateElement hd (fun e => .foldl (fun e x _ => isRevision_offer e x) e)
    (fun e _ => .foldl (resembles_offer names) _ e) _

theorem resembles_styled (hd : d.IsSound P) (options : Options) :
    (styled options d).IsSound P ∧ d.Resembles names (styled options d) :=
  Document.Resembles.foldl hd (fun _ hd r => resembles_applyRecord names hd r) _

/-- Only names that are not in use are dropped. -/
theorem resembles_dropName (hd : d.IsSound P) (referenced : List String) (r : Record) :
    (dropName names referenced d r).IsSound P ∧
      d.Resembles names (dropName names referenced d r) := by
  rw [dropName]
  split
  · split
    · exact ⟨hd, .refl names d⟩
    · next hunused =>
      exact Document.Resembles.foldl_updateElement hd (fun e => e.isRevision_removeClass _)
        (fun e _ => e.resembles_removeClass names (by simpa using hunused)) _
  · split
    · exact ⟨hd, .refl names d⟩
    · next hunused =>
      rw [Bool.or_eq_true, not_or] at hunused
      exact Document.Resembles.foldl_updateElement hd (isRevision_dropId _)
        (fun e he => Element.resembles_dropId names he.nodup (by simpa using hunused.2)) _
  · exact ⟨hd, .refl names d⟩

/-- The sheets as the pass leaves them. -/
def sheetsAfter (options : Options) (d : Document) : List Sheet :=
  if options.removesMatched then (sheetsOf d).map (·.reduced (inlined options d)) else sheetsOf d

/-- The texts of the selectors in sheets. -/
def textsOf (sheets : List Sheet) : List String :=
  sheets.flatMap fun s => s.sheet.styleRules.flatMap fun (_, rule) => rule.selectors

/-- The texts of `style` elements that hold none of the sheets. -/
def foreignTexts (d : Document) (sheets : List Sheet) : List String :=
  (d.elements.filter fun id => d.isNamed id "style" && !sheets.any (·.owner == id)).map
    d.textContent

theorem within_namesInUse {d : Document} {sheets : List Sheet} {text : String}
    (h : text ∈ textsOf sheets ++ foreignTexts d sheets) :
    (SelectorNames.ofText text).Within (namesInUse d sheets) :=
  SelectorNames.ofText_within_foldl_scan h .empty

/-- Classes and ids in use after all records are applied are neither taken away nor given. -/
theorem resembles_inline_of_within (hd : d.IsSound P) (options : Options)
    (hwithin : options.removesMatched = true →
      names.Within (namesInUse (styled options d) (sheetsAfter options d))) :
    d.Resembles names (inline options d) := by
  rw [inline_eq]
  split
  · exact (resembles_styled _ hd options).2
  · next hremoves =>
    have hremoves : options.removesMatched = true := by simp_all
    have hwithin := hwithin hremoves
    rw [sheetsAfter, if_pos hremoves] at hwithin
    set used := namesInUse (styled options d)
      ((sheetsOf d).map (·.reduced (inlined options d)))
    obtain ⟨hsound, hstyled⟩ := resembles_styled used hd options
    have hdropped := (Document.Resembles.foldl hsound (fun _ hd r =>
      resembles_dropName used hd (References.inDocument (styled options d)) r)
      (inlined options d)).2
    have hwritten := Document.Resembles.of_element?_eq used fun j =>
      foldl_view (fun d' : Document => d'.element? j) (fun d' s => element?_writeBack d' s j)
        ((sheetsOf d).map (·.reduced (inlined options d)))
        ((inlined options d).foldl (dropName used (References.inDocument (styled options d)))
          (styled options d))
    exact ((hstyled.trans hdropped).trans hwritten).mono hwithin

/-- The classes and ids of a selector that stays are neither taken away nor given. -/
theorem resembles_inline (hd : d.IsSound P) (options : Options) {text : String}
    (htext : text ∈ textsOf (sheetsAfter options d)) :
    d.Resembles (SelectorNames.ofText text) (inline options d) :=
  resembles_inline_of_within _ hd options fun _ =>
    within_namesInUse (List.mem_append_left _ htext)

end Inlining

/-! ## The tree -/

namespace Inlining

variable {P : QName → Prop} {d : Document}

theorem isRestyled_applyRecord (d : Document) (r : Record) : d.IsRestyled (applyRecord d r) :=
  .foldl (fun d id => .updateElement d id _) _ d

theorem isRestyled_styled (options : Options) (d : Document) : d.IsRestyled (styled options d) :=
  .foldl isRestyled_applyRecord _ d

theorem isRestyled_dropName (names : SelectorNames) (referenced : List String) (d : Document)
    (r : Record) : d.IsRestyled (dropName names referenced d r) := by
  rw [dropName]
  split
  · split
    · exact .refl d
    · exact .foldl (fun d id => .updateElement d id _) _ d
  · split
    · exact .refl d
    · exact .foldl (fun d id => .updateElement d id _) _ d
  · exact .refl d

theorem isCut_removeSheet (d : Document) (id : NodeId) : d.IsCut (removeSheet d id) := by
  have hdetach := Document.IsCut.detach d id
  unfold removeSheet
  dsimp only
  split
  · split
    · exact hdetach.trans (.detach _ _)
    · exact hdetach
  · exact hdetach

theorem isCut_writeBack (hd : d.IsForest) (s : Sheet) : d.IsCut (writeBack d s) := by
  rw [writeBack]
  split
  · exact isCut_removeSheet d s.owner
  · exact .replaceText hd _ _ _

theorem isSound_writeBack (hd : d.IsSound P) {s : Sheet}
    (hs : d.isNamed s.owner "style" = true) : (writeBack d s).IsSound P :=
  (edits_writeBack hs).isSound hd

theorem isCut_foldl_writeBack (hd : d.IsSound P) {sheets : List Sheet}
    (hs : ∀ s ∈ sheets, d.isNamed s.owner "style" = true) : d.IsCut (sheets.foldl writeBack d) := by
  induction sheets generalizing d with
  | nil => exact .of_isRestyled (.refl d)
  | cons s rest ih =>
    have hfirst : Document.Edits P Element.IsNoSvg d (writeBack d s) :=
      edits_writeBack (hs s (List.mem_cons_self ..))
    exact (isCut_writeBack hd.isForest s).trans (ih (hfirst.isSound hd)
      fun s' hs' => hfirst.isNamed (hs s' (List.mem_cons_of_mem s hs')))

/-! ## Sheets that keep rules -/

theorem write_ne_empty {sheet : Stylesheet} (h : sheet.isEmpty = false) : sheet.write ≠ "" := by
  obtain ⟨rules⟩ := sheet
  cases rules with
  | nil => cases h
  | cons r rest =>
    intro hwrite
    have hlist : Rule.writeAll (r :: rest) = [] := String.ofList_eq_empty_iff.1 hwrite
    rw [Rule.writeAll, List.append_eq_nil_iff] at hlist
    cases r <;> simp [Rule.write, Rule.writeHead] at hlist

theorem isRewritten_foldl_writeBack (hd : d.IsSound P) {sheets : List Sheet}
    (hs : ∀ s ∈ sheets, d.isNamed s.owner "style" = true)
    (hfull : ∀ s ∈ sheets, s.sheet.isEmpty = false) :
    Document.IsRewritten (sheets.map (·.owner)) d (sheets.foldl writeBack d) := by
  induction sheets generalizing d with
  | nil => exact ⟨fun _ _ => rfl, nofun⟩
  | cons s rest ih =>
    have hstyle := hs s (List.mem_cons_self ..)
    have hrest : ∀ s' ∈ rest, (writeBack d s).isNamed s'.owner "style" = true :=
      fun s' hs' => (edits_writeBack (P := P) hstyle).isNamed (hs s' (List.mem_cons_of_mem s hs'))
    have hsound := isSound_writeBack hd hstyle
    have hcut := isCut_foldl_writeBack hsound hrest
    obtain ⟨hothers, howners⟩ := ih hsound hrest fun s' hs' => hfull s' (List.mem_cons_of_mem s hs')
    have hwrite : writeBack d s = d.replaceText s.owner s.cdata s.sheet.write := by
      rw [writeBack, hfull s (List.mem_cons_self ..)]
      rfl
    have hsize : (writeBack d s).size = d.size + 1 := by
      rw [hwrite, Document.size_replaceText]
    have hchildren := hd.isForest.children_replaceText
      (Document.lt_size_of_isElement (Document.isElement_of_isNamed hstyle)) s.cdata s.sheet.write
    rw [← hwrite] at hchildren
    have hbare : (rest.foldl writeBack (writeBack d s)).isBare d.size = false := by
      rw [Document.isBare_eq_of_alike (hcut.alike d.size (by omega)), Document.isBare, hwrite,
        Document.content_replaceText, if_pos rfl]
      have hne : s.sheet.write.isEmpty = false :=
        String.isEmpty_eq_false_iff.2 (write_ne_empty (hfull s (List.mem_cons_self ..)))
      cases s.cdata <;> exact hne
    refine ⟨fun p hp => ?_, fun p hp => ?_⟩
    · rw [List.map_cons, List.mem_cons, not_or] at hp
      rw [List.foldl_cons, hothers p hp.2, hchildren, if_neg hp.1]
    · by_cases hp' : p ∈ rest.map (·.owner)
      · obtain ⟨j, hj, hchild, hfilled⟩ := howners p hp'
        exact ⟨j, by omega, hchild, hfilled⟩
      · have hown : p = s.owner := (List.mem_cons.1 hp).resolve_right hp'
        refine ⟨d.size, Nat.le_refl _, ?_, hbare⟩
        rw [List.foldl_cons, hothers p hp', hchildren, if_pos hown]

/-! ## The whole pass -/

theorem owners_sheetsAfter (options : Options) (d : Document) :
    (sheetsAfter options d).map (·.owner) = (sheetsOf d).map (·.owner) := by
  rw [sheetsAfter]
  split
  · rw [List.map_map]
    rfl
  · rfl

theorem forall_sheetsAfter_iff {options : Options} {p : NodeId → Prop} :
    (∀ t ∈ sheetsAfter options d, p t.owner) ↔ ∀ s ∈ sheetsOf d, p s.owner := by
  have howners := owners_sheetsAfter options d
  rw [← List.forall_mem_map (f := Sheet.owner) (P := p), howners, List.forall_mem_map]

theorem exists_owner_of_mem_sheetsAfter {options : Options} {t : Sheet}
    (ht : t ∈ sheetsAfter options d) : ∃ s ∈ sheetsOf d, s.owner = t.owner :=
  List.mem_map.1 (owners_sheetsAfter options d ▸ List.mem_map_of_mem ht)

theorem isNamed_of_mem_sheetsAfter {options : Options} {s : Sheet}
    (hs : s ∈ sheetsAfter options d) : d.isNamed s.owner "style" = true := by
  obtain ⟨t, ht, howner⟩ := exists_owner_of_mem_sheetsAfter hs
  exact howner ▸ isNamed_of_mem_sheetsOf ht

/-- The pass restyles elements and then, if selectors leave their sheets, writes the
sheets back. -/
theorem exists_isRestyled [QName.Admits P] (hd : d.IsSound P) (options : Options) :
    ∃ d₁, d.IsRestyled d₁ ∧ Document.Edits P Element.IsNoSvg d d₁ ∧
      inline options d =
        if options.removesMatched then (sheetsAfter options d).foldl writeBack d₁ else d₁ := by
  have hstyled : Document.Edits P Element.IsNoSvg d (styled options d) :=
    .foldl (fun _ hd r _ => edits_applyRecord hd r) hd
  have hrestyled := isRestyled_styled options d
  rw [inline_eq]
  by_cases hremoves : options.removesMatched = true
  · have hafter : sheetsAfter options d = (sheetsOf d).map (·.reduced (inlined options d)) :=
      if_pos hremoves
    simp only [hafter, hremoves, Bool.not_true, Bool.or_false, if_true]
    by_cases hnone : (sheetsOf d).isEmpty = true
    · refine ⟨_, hrestyled, hstyled, ?_⟩
      rw [if_pos hnone, List.isEmpty_iff.1 hnone]
      rfl
    · rw [if_neg hnone]
      exact ⟨_, hrestyled.trans (.foldl (isRestyled_dropName _ _) _ _),
        hstyled.trans (.foldl (fun _ hd r _ => edits_dropName _ _ hd r) (hstyled.isSound hd)), rfl⟩
  · simp only [hremoves, Bool.not_false, Bool.or_true, if_true]
    exact ⟨_, hrestyled, hstyled, rfl⟩

theorem isRemnant_inline [QName.Admits P] (hd : d.IsSound P) (options : Options) :
    d.IsRemnant (inline options d) := by
  obtain ⟨d₁, hrestyled, hedits, hinline⟩ := exists_isRestyled hd options
  have hcut : d.IsCut (inline options d) := by
    rw [hinline]
    split
    · exact (Document.IsCut.of_isRestyled hrestyled).trans
        (isCut_foldl_writeBack (hedits.isSound hd)
          fun s hs => hedits.isNamed (isNamed_of_mem_sheetsAfter hs))
    · exact .of_isRestyled hrestyled
  refine ⟨hcut, hd.isForest, ((edits_inline options hd).isSound hd).toIsRooted, fun j hj => ?_⟩
  have hnone : d.element? j = none := by
    rw [Option.eq_none_iff_forall_ne_some]
    exact fun e he => Nat.not_lt_of_le hj (Document.lt_size_of_element? he)
  exact (isSome_element?_inline options d j).trans (by rw [hnone]; rfl)

/-- If no sheet is emptied, only children of sheets are replaced. -/
theorem isRewritten_inline [QName.Admits P] (hd : d.IsSound P) {options : Options}
    (hfull : options.removesMatched = true → ∀ s ∈ sheetsAfter options d, s.sheet.isEmpty = false) :
    ∃ owners, (∀ p ∈ owners, p ∈ (sheetsOf d).map (·.owner)) ∧
      Document.IsRewritten owners d (inline options d) := by
  obtain ⟨d₁, hrestyled, hedits, hinline⟩ := exists_isRestyled hd options
  rw [hinline]
  split
  · next hremoves =>
    have hwritten := isRewritten_foldl_writeBack (hedits.isSound hd)
      (fun s hs => hedits.isNamed (isNamed_of_mem_sheetsAfter hs)) (hfull hremoves)
    refine ⟨_, fun p hp => owners_sheetsAfter options d ▸ hp, fun p hp => ?_, fun p hp => ?_⟩
    · rw [hwritten.others p hp, hrestyled.children_eq]
    · rw [← hrestyled.size_eq]
      exact hwritten.replaced p hp
  · exact ⟨[], nofun, fun p _ => hrestyled.children_eq p, nofun⟩

/-- A sheet that is read is not blank. -/
theorem all_isBare_of_mem_sheetsOf {s : Sheet} (hs : s ∈ sheetsOf d) :
    (d.children s.owner).all d.isBare = false := by
  obtain ⟨hsheet, -⟩ := sheetOf?_of_mem hs
  rw [← Bool.not_eq_true, List.all_eq_true]
  intro hbare
  have hcharacters : ∀ t ∈ (d.children s.owner).filterMap fun c => (d.content c).characters?,
      t = "" := by
    intro t ht
    obtain ⟨c, hc, hct⟩ := List.mem_filterMap.1 ht
    have hcbare := hbare c hc
    rw [Document.isBare] at hcbare
    cases hcontent : d.content c with
    | text u | cdata u =>
      rw [hcontent] at hcbare hct
      cases hct
      exact String.isEmpty_iff.1 hcbare
    | root | element | comment | instruction | doctype =>
      rw [hcontent] at hct
      cases hct
  have hblank : (d.textContent s.owner).toList = [] := by
    rw [Document.textContent, String.toList_join, List.flatMap_eq_nil_iff]
    intro t ht
    rw [hcharacters t ht]
    rfl
  rw [sheetOf?] at hsheet
  split at hsheet
  · dsimp only at hsheet
    rw [hblank, List.all_nil, if_pos rfl] at hsheet
    cases hsheet
  · cases hsheet

end Inlining
end SvgCompact
