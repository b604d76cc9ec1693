import SvgCompact.Proofs.Document.Views
import SvgCompact.Proofs.Element.Style
import SvgCompact.Proofs.Inlining.Candidate

/-!
What applying records does to the declaration of one property at one element.

All of the pass is seen through `declarationAt`.  Records change it by `contend`;
removing classes, ids and sheets afterwards does not change it at all.
-/

namespace SvgCompact

/-- The declaration of a property in the style of a node, if it is an element and
has one. -/
def Document.declarationAt (d : Document) (id : NodeId) (p : String) : Option Declaration :=
  (d.element? id).bind (·.style.find? p)

namespace Inlining

/-! ## Offering declarations -/

/-- Keeps the declaration that is held unless the offered one is more important. -/
def contend : Option Declaration → Option Declaration → Option Declaration
  | held, none => held
  | none, some x => some x
  | some held, some x => if x.priority.beats held.priority then some x else some held

theorem contend_contend (held offered : Option Declaration) :
    contend (contend held offered) offered = contend held offered := by
  cases held <;> cases offered <;> try rfl
  · next x =>
    simp only [contend]
    split <;> rfl
  · next held x =>
    by_cases hb : x.priority.beats held.priority = true
    · simp only [contend, hb, if_true]
      split <;> rfl
    · simp only [contend, hb, if_false, Bool.false_eq_true]

theorem find?_offer (e : Element) (x : Declaration) (p : String) :
    (offer e x).style.find? p =
      if x.property = p then contend (e.style.find? p) (some x) else e.style.find? p := by
  unfold offer Style.priority?
  by_cases hp : x.property = p
  · subst hp
    cases hx : e.style.find? x.property with
    | none => simp [Style.find?_set, contend]
    | some held =>
      by_cases hb : x.priority.beats held.priority = true
      · simp [Style.find?_set, contend, hb]
      · simp [contend, hb, hx]
  · cases e.style.find? x.property with
    | none => simp [Style.find?_set, hp]
    | some held =>
      by_cases hb : x.priority.beats held.priority = true
      · simp [Style.find?_set, hb, hp]
      · simp [hb, hp]

/-- Of declarations with distinct properties at most one is offered for each. -/
theorem find?_foldl_offer {l : List Declaration} (hl : (l.map (·.property)).Nodup) (e : Element)
    (p : String) : (l.foldl offer e).style.find? p =
      contend (e.style.find? p) (l.find? (·.property == p)) := by
  induction l generalizing e with
  | nil => cases h : e.style.find? p <;> simp [contend, h]
  | cons x rest ih =>
    rw [List.map_cons, List.nodup_cons] at hl
    rw [List.foldl_cons, ih hl.2, find?_offer]
    by_cases hp : x.property = p
    · have hrest : rest.find? (·.property == p) = none := by
        rw [List.find?_eq_none]
        intro y hy hyp
        exact hl.1 (List.mem_map.2 ⟨y, hy, by rw [hp]; simpa using hyp⟩)
      simp [hp, hrest, contend]
    · simp [hp]

/-! ## Rewriting several elements -/

theorem declarationAt_foldl_updateElement {f : Element → Element}
    (hf : ∀ e, (f e).style = e.style) (ids : List NodeId) (d : Document) (id : NodeId)
    (p : String) : (ids.foldl (fun d a => d.updateElement a f) d).declarationAt id p =
      d.declarationAt id p :=
  Document.bind_element?_foldl_updateElement (fun e => by rw [hf]) ids d id

/-! ## Applying records -/

/-- What a record offers for a property at a node. -/
def Record.offered (r : Record) (id : NodeId) (p : String) : Option Declaration :=
  if id ∈ r.matched then r.declarations.find? p else none

/-- A record whose declarations are resolved and that matches elements only. -/
structure Record.IsSound (d : Document) (r : Record) : Prop where
  nodup : r.declarations.properties.Nodup
  isElement : ∀ id ∈ r.matched, (d.element? id).isSome

theorem isSome_element?_applyRecord (d : Document) (r : Record) (id : NodeId) :
    ((applyRecord d r).element? id).isSome = (d.element? id).isSome := by
  rw [applyRecord, Document.element?_foldl_updateElement, Option.isSome_map]

theorem Record.IsSound.applyRecord {d : Document} {r : Record} (h : r.IsSound d) (s : Record) :
    r.IsSound (applyRecord d s) where
  nodup := h.nodup
  isElement id hid := by rw [isSome_element?_applyRecord]; exact h.isElement id hid

theorem declarationAt_applyRecord {d : Document} {r : Record} (hr : r.IsSound d) (id : NodeId)
    (p : String) : (applyRecord d r).declarationAt id p =
      contend (d.declarationAt id p) (r.offered id p) := by
  rw [applyRecord, Document.declarationAt, Document.element?_foldl_updateElement, Record.offered]
  by_cases hid : id ∈ r.matched
  · rw [if_pos hid]
    obtain ⟨e, he⟩ := Option.isSome_iff_exists.1 (hr.isElement id hid)
    obtain ⟨n, hn⟩ := Nat.exists_eq_succ_of_ne_zero (Nat.ne_of_gt (List.count_pos_iff.2 hid))
    have hiter : ∀ (n : Nat) (e : Element),
        ((fun e => r.declarations.declarations.foldl offer e)^[n + 1] e).style.find? p =
          contend (e.style.find? p) (r.declarations.find? p) := by
      intro n
      induction n with
      | zero => exact fun e => find?_foldl_offer hr.nodup e p
      | succ n ih =>
        intro e
        rw [Function.iterate_succ_apply, ih]
        simp only [find?_foldl_offer hr.nodup]
        exact contend_contend _ _
    rw [hn, he, Document.declarationAt, he]
    exact hiter n e
  · rw [if_neg hid, List.count_eq_zero_of_not_mem hid, Document.declarationAt]
    cases hd : (d.element? id).bind (·.style.find? p) <;>
      simpa [contend] using hd

theorem declarationAt_foldl_applyRecord {d : Document} {records : List Record}
    (h : ∀ r ∈ records, r.IsSound d) (id : NodeId) (p : String) :
    (records.foldl applyRecord d).declarationAt id p =
      (records.map (·.offered id p)).foldl contend (d.declarationAt id p) := by
  induction records generalizing d with
  | nil => rfl
  | cons r rest ih =>
    rw [List.foldl_cons, List.map_cons, List.foldl_cons,
      ih fun s hs => (h s (List.mem_cons_of_mem r hs)).applyRecord r,
      declarationAt_applyRecord (h r (List.mem_cons_self ..))]

/-! ## Removing what is used up -/

theorem style_dropId (name : String) (e : Element) : (dropId name e).style = e.style := by
  rw [dropId]
  split
  · refine Element.style_removeAttr_of_ne e "id" fun a ha hname => ?_
    have hid : a.name.isNamed "id" = true := by simpa using List.find?_some ha
    rw [hname] at hid
    simp [QName.isNamed, QName.plain] at hid
  · rfl

theorem declarationAt_dropName (names : SelectorNames) (referenced : List String) (d : Document)
    (r : Record) (id : NodeId) (p : String) :
    (dropName names referenced d r).declarationAt id p = d.declarationAt id p := by
  rw [dropName]
  split
  · split
    · rfl
    · exact declarationAt_foldl_updateElement (Element.style_removeClass · _) ..
  · split
    · rfl
    · exact declarationAt_foldl_updateElement (style_dropId _) ..
  · rfl

theorem isSome_element?_dropName (names : SelectorNames) (referenced : List String) (d : Document)
    (r : Record) (id : NodeId) :
    ((dropName names referenced d r).element? id).isSome = (d.element? id).isSome := by
  rw [dropName]
  split <;> (try split) <;> simp [Document.element?_foldl_updateElement]

end Inlining

namespace Document

@[simp] theorem element?_replaceText (d : Document) (id j : NodeId) (cdata : Bool) (s : String) :
    (d.replaceText id cdata s).element? j = d.element? j := by
  rw [replaceText]
  rw [element?_splice]
  exact element?_create d j (by split <;> rfl)

end Document

namespace Inlining

@[simp] theorem element?_removeSheet (d : Document) (id j : NodeId) :
    (removeSheet d id).element? j = d.element? j := by
  unfold removeSheet
  dsimp only
  split
  · split <;> simp
  · simp

@[simp] theorem element?_writeBack (d : Document) (s : Sheet) (j : NodeId) :
    (writeBack d s).element? j = d.element? j := by
  rw [writeBack]
  split <;> simp

/-- The records that are applied, stronger ones first. -/
def inlined (options : Options) (d : Document) : List Record :=
  (byStrength (recordsOf options d (sheetsOf d))).filter options.isEligible

/-- The document in which the records are applied and nothing is removed yet. -/
def styled (options : Options) (d : Document) : Document :=
  (inlined options d).foldl applyRecord d

/-- The pass in its steps. -/
theorem inline_eq (options : Options) (d : Document) :
    inline options d =
      if (sheetsOf d).isEmpty || !options.removesMatched then styled options d
      else
        let reduced := (sheetsOf d).map (·.reduced (inlined options d))
        reduced.foldl writeBack ((inlined options d).foldl
          (dropName (namesInUse (styled options d) reduced)
            (References.inDocument (styled options d))) (styled options d)) := rfl

theorem foldl_view {α β γ : Type} (view : β → γ) {step : β → α → β}
    (h : ∀ b a, view (step b a) = view b) (l : List α) (b : β) :
    view (l.foldl step b) = view b := by
  induction l generalizing b with
  | nil => rfl
  | cons a rest ih => exact (ih (step b a)).trans (h b a)

theorem declarationAt_inline (options : Options) (d : Document) (id : NodeId) (p : String) :
    (inline options d).declarationAt id p = (styled options d).declarationAt id p := by
  rw [inline_eq]
  split
  · rfl
  · refine (foldl_view (fun d : Document => d.declarationAt id p) (fun d s => ?_) _ _).trans
      (foldl_view (fun d : Document => d.declarationAt id p)
        (fun d r => declarationAt_dropName _ _ d r id p) _ _)
    rw [Document.declarationAt, element?_writeBack, Document.declarationAt]

/-- The pass makes no element and turns none into something else. -/
theorem isSome_element?_inline (options : Options) (d : Document) (id : NodeId) :
    ((inline options d).element? id).isSome = (d.element? id).isSome := by
  have hstyled : ((styled options d).element? id).isSome = (d.element? id).isSome :=
    foldl_view (fun d : Document => (d.element? id).isSome)
      (fun d r => isSome_element?_applyRecord d r id) _ _
  rw [inline_eq]
  split
  · exact hstyled
  · refine (foldl_view (fun d : Document => (d.element? id).isSome) (fun d s => ?_) _ _).trans
      ((foldl_view (fun d : Document => (d.element? id).isSome)
        (fun d r => isSome_element?_dropName _ _ d r id) _ _).trans hstyled)
    rw [element?_writeBack]

end Inlining
end SvgCompact
