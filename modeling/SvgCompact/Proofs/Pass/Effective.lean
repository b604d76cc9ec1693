import SvgCompact.Proofs.Document.Cutting
import SvgCompact.Proofs.Element.Lookup
import SvgCompact.Proofs.Markup.Building
import SvgCompact.Proofs.Pass.Editing

/-!
Values that take effect, and initial values that are not spelled out.

A node takes the value of a property from itself or, if the property is inherited, from the
nearest node above that has one.  An initial value says no more than no value at all, so it
can go where nothing above would take its place.  What is seen of the change is seen where the
value went (`agree_effective_iff`).
-/

namespace SvgCompact

namespace Document

/-- The nodes whose values of a property can take effect at a node, nearest first. -/
def sources (d : Document) (p : String) (id : NodeId) : List NodeId :=
  if Inheritance.isInherited p then id :: d.ancestors id else [id]

/-- The value of a property that takes effect at a node. -/
def effective? (d : Document) (p : String) (id : NodeId) : Option String :=
  (d.sources p id).findSome? (d.property? p)

/-- The node whose value of a property takes effect at a node. -/
def source? (d : Document) (p : String) (id : NodeId) : Option NodeId :=
  (d.sources p id).find? fun a => (d.property? p a).isSome

/-- The value of a property in the style of a node. -/
def declared? (d : Document) (p : String) (id : NodeId) : Option String :=
  (d.element? id).bind (·.style.get? p)

/-- The value of the attribute of a node that is named like a property. -/
def attributed? (d : Document) (p : String) (id : NodeId) : Option String :=
  (d.element? id).bind (·.attr? p)

theorem property?_eq_or (d : Document) (p : String) (id : NodeId) :
    d.property? p id = (d.declared? p id).or (d.attributed? p id) := by
  rw [property?, declared?, attributed?]
  cases d.element? id with
  | none => rfl
  | some e =>
    rw [Option.bind_some, Option.bind_some, Option.bind_some]
    exact Element.property?_eq_or e p

variable {d : Document} {p : String} {id : NodeId}

theorem effective?_of_some {v : String} (h : d.property? p id = some v) :
    d.effective? p id = some v := by
  rw [effective?, sources]
  split <;> rw [List.findSome?_cons, h]

theorem source?_of_some {v : String} (h : d.property? p id = some v) :
    d.source? p id = some id := by
  rw [source?, sources]
  split <;> rw [List.find?_cons, h] <;> rfl

/-- The nodes above a node have a say in inherited properties only. -/
theorem effective?_of_none (hd : d.IsForest) (h : d.property? p id = none) :
    d.effective? p id =
      if Inheritance.isInherited p then (d.parent id).bind (d.effective? p) else none := by
  rw [effective?, sources]
  split
  · next hp =>
    rw [List.findSome?_cons, h]
    cases hparent : d.parent id with
    | none => rw [ancestors_of_parent_none hparent]; rfl
    | some q =>
      rw [hd.ancestors_of_parent hparent, Option.bind_some, effective?, sources, if_pos hp]
  · rw [List.findSome?_cons, h]
    rfl

theorem source?_of_none (hd : d.IsForest) (h : d.property? p id = none) :
    d.source? p id =
      if Inheritance.isInherited p then (d.parent id).bind (d.source? p) else none := by
  rw [source?, sources]
  split
  · next hp =>
    rw [List.find?_cons, h]
    cases hparent : d.parent id with
    | none => rw [ancestors_of_parent_none hparent]; rfl
    | some q =>
      rw [hd.ancestors_of_parent hparent, Option.bind_some, source?, sources, if_pos hp]
      rfl
  · rw [List.find?_cons, h]
    rfl

theorem IsForest.eq_or_isAbove_of_source? (hd : d.IsForest) {a : NodeId}
    (h : d.source? p id = some a) : a = id ∨ d.IsAbove a id := by
  have hmem := List.mem_of_find?_eq_some h
  rw [sources] at hmem
  split at hmem
  · exact (List.mem_cons.1 hmem).imp_right hd.mem_ancestors_iff.1
  · exact .inl (List.mem_singleton.1 hmem)

/-- The value at a node is its own, or else, if the property is inherited, that at its
parent. -/
theorem IsForest.effective?_eq (hd : d.IsForest) (p : String) (id : NodeId) :
    d.effective? p id = (d.property? p id).or
      (if Inheritance.isInherited p then (d.parent id).bind (d.effective? p) else none) := by
  cases h : d.property? p id with
  | some v => rw [effective?_of_some h, Option.some_or]
  | none => rw [effective?_of_none hd h, Option.none_or]

/-- Where nothing above sets an inherited property, a node has its own value or none. -/
theorem IsForest.effective?_of_clear (hd : d.IsForest)
    (h : Inheritance.isInherited p = true → ∀ a, d.IsAbove a id → d.property? p a = none) :
    d.effective? p id = d.property? p id := by
  induction id using hd.downward with
  | step id ih =>
    rw [hd.effective?_eq]
    split
    · next hp =>
      cases hparent : d.parent id with
      | none => rw [Option.bind_none, Option.or_none]
      | some q =>
        have hclear := h hp
        rw [Option.bind_some, ih q hparent fun _ a ha => hclear a (ha.tail hparent),
          hclear q (isAbove_of_parent hparent), Option.or_none]
    · rw [Option.or_none]

/-! ## One element -/

variable {a b : NodeId} (f : Element → Element)

theorem isAbove_updateElement_iff : (d.updateElement id f).IsAbove a b ↔ d.IsAbove a b :=
  ⟨.mono fun _ _ h => (parent_updateElement ..).symm.trans h,
    .mono fun _ _ h => (parent_updateElement ..).trans h⟩

theorem property?_updateElement :
    (d.updateElement id f).property? p a =
      if a = id then (d.element? id).bind fun e => (f e).property? p else d.property? p a := by
  rw [property?, element?_updateElement]
  split
  · next heq => rw [heq, Option.bind_map]; rfl
  · rfl

end Document

namespace Defaults

variable {element other p v : String} {u w x : Option String}

/-! ## Initial values -/

/-- Whether a value is none or an initial one. -/
def IsInitial (element p : String) (v : Option String) : Prop :=
  ∀ s ∈ v, isDefault element p s = true

/-- Whether two values come to the same, because they are the same or neither says more than
no value at all. -/
def Agree (element p : String) (v w : Option String) : Prop :=
  w = v ∨ IsInitial element p v ∧ IsInitial element p w

theorem isInitial_none (element p : String) : IsInitial element p none := nofun

theorem isInitial_some : IsInitial element p (some v) ↔ isDefault element p v = true :=
  ⟨fun h => h v rfl, fun h _ hs => Option.some.inj hs ▸ h⟩

theorem Agree.refl (element p : String) (v : Option String) : Agree element p v v := .inl rfl

theorem Agree.trans (h : Agree element p u w) (h' : Agree element p w x) :
    Agree element p u x := by
  rcases h with rfl | ⟨hu, hw⟩
  · exact h'
  · rcases h' with rfl | ⟨-, hx⟩
    · exact .inr ⟨hu, hw⟩
    · exact .inr ⟨hu, hx⟩

theorem exists_entry (h : isDefault element p v = true) :
    ∃ entry ∈ entries, p ∈ entry.names ∧
      ∀ other, entry.elements = [] → isDefault other p v = true := by
  obtain ⟨entry, hentry, hcond⟩ := List.any_eq_true.1 h
  simp only [Bool.and_eq_true, List.contains_iff_mem] at hcond
  refine ⟨entry, hentry, hcond.1.2, fun other hall => List.any_eq_true.2 ⟨entry, hentry, ?_⟩⟩
  simp only [hall, List.isEmpty_nil, Bool.true_or, Bool.true_and, Bool.and_eq_true,
    List.contains_iff_mem]
  exact ⟨hcond.1.2, hcond.2⟩

/-- Properties with initial values have names without labels. -/
theorem plain_of_isDefault (h : isDefault element p v = true) :
    QName.read p = QName.plain p ∧ p ≠ "style" ∧ p ≠ "class" := by
  obtain ⟨entry, hentry, hp, -⟩ := exists_entry h
  have hall : ∀ entry ∈ entries, ∀ p ∈ entry.names,
      QName.read p = QName.plain p ∧ p ≠ "style" ∧ p ≠ "class" := by
    decide
  exact hall entry hentry p hp

/-- The initial value of an inherited property is that of all elements. -/
theorem isDefault_of_isInherited (hp : Inheritance.isInherited p = true)
    (h : isDefault element p v = true) (other : String) : isDefault other p v = true := by
  obtain ⟨entry, hentry, hmem, hother⟩ := exists_entry h
  have hall : ∀ entry ∈ entries, ∀ p ∈ entry.names, Inheritance.isInherited p = true →
      entry.elements = [] := by
    decide
  exact hother other (hall entry hentry p hmem hp)

theorem Agree.of_isInherited (hp : Inheritance.isInherited p = true)
    (h : Agree element p u w) (other : String) : Agree other p u w :=
  h.imp_right fun ⟨hu, hw⟩ =>
    ⟨fun s hs => isDefault_of_isInherited hp (hu s hs) other,
      fun s hs => isDefault_of_isInherited hp (hw s hs) other⟩

/-! ## Values that go -/

variable {d d' : Document} {id a : NodeId}

/-- The local name of the element at a node. -/
def stemAt (d : Document) (id : NodeId) : String :=
  (d.element? id).elim "" (·.name.stem)

/-- Whether a value is what it was, or was an initial one in whose place nothing above
comes. -/
def KeepsOrSheds (d d' : Document) (p : String) (a : NodeId) : Prop :=
  d'.property? p a = d.property? p a ∨
    ∃ v, d.property? p a = some v ∧ isDefault (stemAt d a) p v = true ∧
      (Inheritance.isInherited p = true → ∀ b, d'.IsAbove b a → d'.property? p b = none)

/-- Whether the value that takes effect at a node comes to the same is decided where the
node takes it from. -/
theorem agree_effective_iff (hd : d.IsForest) (hd' : d'.IsForest) {P : NodeId → Prop}
    (hparent : ∀ a, P a → d'.parent a = d.parent a)
    (hup : ∀ a q, P a → d.parent a = some q → P q)
    (hsheds : ∀ a, P a → KeepsOrSheds d d' p a) (hid : P id) :
    Agree (stemAt d id) p (d.effective? p id) (d'.effective? p id) ↔
      ∀ a, d.source? p id = some a →
        Agree (stemAt d a) p (d.property? p a) (d'.property? p a) := by
  induction id using hd.downward with
  | step id ih =>
    cases hown : d.property? p id with
    | some v =>
      -- a value that goes leaves none above it to take its place
      have heffective : d'.effective? p id = d'.property? p id := by
        rcases hsheds id hid with hsame | ⟨-, -, -, hclear⟩
        · rw [hsame, hown, Document.effective?_of_some (hsame.trans hown)]
        · exact hd'.effective?_of_clear hclear
      rw [Document.effective?_of_some hown, heffective, Document.source?_of_some hown]
      simp only [Option.some.injEq, forall_eq', hown]
    | none =>
      have hown' : d'.property? p id = none := by
        rcases hsheds id hid with hsame | ⟨v, hv, -⟩
        · rw [hsame, hown]
        · rw [hown] at hv
          cases hv
      rw [Document.effective?_of_none hd hown, Document.effective?_of_none hd' hown',
        Document.source?_of_none hd hown]
      split
      · next hp =>
        rw [hparent id hid]
        cases hq : d.parent id with
        | none => exact iff_of_true (.refl _ _ _) nofun
        | some q =>
          -- the parent is another element, but initial values of inherited properties are the same
          rw [Option.bind_some, Option.bind_some, Option.bind_some, ← ih q hq (hup id q hid hq)]
          exact ⟨fun h => h.of_isInherited hp _, fun h => h.of_isInherited hp _⟩
      · exact iff_of_true (.refl _ _ _) nofun

/-! ## Changes of one element -/

theorem stemAt_of_element? {e : Element} (he : d.element? id = some e) :
    stemAt d id = e.name.stem := by
  rw [stemAt, he]
  rfl

theorem isSetAbove_eq_false_iff (hd : d.IsForest) :
    isSetAbove d id p = false ↔ ∀ a, d.IsAbove a id → d.property? p a = none := by
  rw [isSetAbove, List.any_eq_false]
  refine forall_congr' fun a => imp_congr hd.mem_ancestors_iff ?_
  rw [Document.property?]
  cases d.element? a with
  | none => simp
  | some e => simp

/-- An element that keeps its value, or gives up a removable one, is as good as before. -/
theorem keepsOrSheds_updateElement (hd : d.IsForest) {f : Element → Element} {e : Element}
    (he : d.element? id = some e)
    (hf : (f e).property? p = e.property? p ∨
      ∃ v, e.property? p = some v ∧ isRemovable d id e.name.stem p v = true) (a : NodeId) :
    KeepsOrSheds d (d.updateElement id f) p a := by
  by_cases ha : a = id
  · subst ha
    have hown : d.property? p a = e.property? p := by rw [Document.property?, he, Option.bind_some]
    rcases hf with hsame | ⟨v, hv, hremovable⟩
    · refine .inl ?_
      rw [Document.property?_updateElement, if_pos rfl, he, Option.bind_some, hsame, hown]
    · rw [isRemovable, Bool.and_eq_true, Bool.not_eq_true', Bool.and_eq_false_imp] at hremovable
      refine .inr ⟨v, hown.trans hv, stemAt_of_element? he ▸ hremovable.1, fun hp b hb => ?_⟩
      have habove := (Document.isAbove_updateElement_iff f).1 hb
      have hne : b ≠ a := fun heq => hd.not_above_self a (heq ▸ habove)
      rw [Document.property?_updateElement, if_neg hne]
      exact (isSetAbove_eq_false_iff hd).1 (hremovable.2 hp) b habove
  · exact .inl (by rw [Document.property?_updateElement, if_neg ha])

end Defaults

/-! ## Attributes that restate initial values -/

namespace Element

variable {e : Element} {names : List String} {p : String}

theorem style_foldl_removeAttr
    (h : ∀ s ∈ names, QName.read s = QName.plain s ∧ s ≠ "style" ∧ s ≠ "class") (e : Element) :
    (names.foldl removeAttr e).style = e.style := by
  refine List.foldlRecOn (motive := fun e' : Element => e'.style = e.style) names _ rfl
    fun e' he' s hs => ?_
  obtain ⟨hplain, hstyle, -⟩ := h s hs
  refine (style_removeAttr_of_ne _ _ fun a ha hname => hstyle ?_).trans he'
  have hnamed : a.name.isNamed s = true := by simpa using List.find?_some ha
  rw [(isNamed_iff_eq_plain hplain).1 hnamed] at hname
  exact congrArg QName.stem hname

theorem attr?_foldl_removeAttr (h : ∀ s ∈ names, QName.read s = QName.plain s)
    (hnodup : (e.attributes.map (·.name)).Nodup) (p : String) :
    (names.foldl removeAttr e).attr? p = if p ∈ names then none else e.attr? p := by
  induction names generalizing e with
  | nil => rw [List.foldl_nil, if_neg List.not_mem_nil]
  | cons s names ih =>
    obtain ⟨hs, hnames⟩ := List.forall_mem_cons.1 h
    have hnodup' : ((e.removeAttr s).attributes.map (·.name)).Nodup :=
      (isRevision_removeAttr e s).nodup hnodup
    rw [List.foldl_cons, ih hnames hnodup']
    by_cases hp : p = s
    · rw [hp, attr?_removeAttr_self hs hnodup, ite_self, if_pos List.mem_cons_self]
    · have hattr : (e.removeAttr s).attr? p = e.attr? p := by
        rw [attr?, attribute?_removeAttr hs hp, attr?]
      simp only [hattr, List.mem_cons, hp, false_or]

end Element

namespace Defaults

variable {d : Document} {id : NodeId} {e : Element} {p : String}

theorem mem_removableNames (hnodup : (e.attributes.map (·.name)).Nodup)
    (h : p ∈ removableNames d id e) :
    ∃ v, e.attr? p = some v ∧ isRemovable d id e.name.stem p v = true := by
  obtain ⟨⟨⟨space, stem⟩, v⟩, ha, rfl⟩ := List.mem_map.1 h
  obtain ⟨hmem, hcond⟩ := List.mem_filter.1 ha
  simp only [Bool.and_eq_true, Option.isNone_iff_eq_none] at hcond
  obtain ⟨rfl, hremovable⟩ := hcond
  have hplain := (plain_of_isDefault (Bool.and_eq_true .. ▸ hremovable).1).1
  exact ⟨v, (Element.attr?_eq_some_iff hplain hnodup).2 hmem, hremovable⟩

/-- An element without its removable attributes has its values, but for removable ones. -/
theorem property?_foldl_removeAttr (d : Document) (id : NodeId) (p : String)
    (hnodup : (e.attributes.map (·.name)).Nodup) :
    let e' := (removableNames d id e).foldl Element.removeAttr e
    e'.property? p = e.property? p ∨ e'.property? p = none ∧
      ∃ v, e.property? p = some v ∧ isRemovable d id e.name.stem p v = true := by
  have hplain : ∀ s ∈ removableNames d id e,
      QName.read s = QName.plain s ∧ s ≠ "style" ∧ s ≠ "class" := by
    intro s hs
    obtain ⟨v, -, hremovable⟩ := mem_removableNames hnodup hs
    exact plain_of_isDefault (Bool.and_eq_true .. ▸ hremovable).1
  simp only [Element.property?_eq_or, Element.style_foldl_removeAttr hplain,
    Element.attr?_foldl_removeAttr (fun s hs => (hplain s hs).1) hnodup]
  split
  · next hp =>
    cases e.style.get? p with
    | some w => exact .inl rfl
    | none => exact .inr ⟨rfl, mem_removableNames hnodup hp⟩
  · exact .inl rfl

/-- What `removeDefaults` keeps of a document with every visit. -/
structure KeepsValues (d d' : Document) : Prop where
  sound : d'.IsSound fun _ => True
  stem_eq : ∀ id, stemAt d' id = stemAt d id
  agree : ∀ p id, Agree (stemAt d id) p (d.effective? p id) (d'.effective? p id)

theorem keepsValues_updateElement (hd : d.IsSound fun _ => True) (he : d.element? id = some e) :
    KeepsValues d (d.updateElement id fun e' =>
      (removableNames d id e).foldl Element.removeAttr e') := by
  have hrevision : ∀ e' : Element, Element.IsRevision (fun _ => True) e'
      ((removableNames d id e).foldl Element.removeAttr e') :=
    fun e' => .foldl (fun e name _ => Element.isRevision_removeAttr e name) e'
  have hedits : Document.Edits (fun _ => True) (fun _ => True) d _ := .rewrite id hrevision
  have hsound := hedits.isSound hd
  refine ⟨hsound, fun j => ?_, fun p j => ?_⟩
  · rw [stemAt, Document.element?_updateElement, stemAt]
    split
    · next hj =>
      rw [hj, he]
      exact congrArg QName.stem (hrevision e).name
    · rfl
  · have hcases := property?_foldl_removeAttr d id p (hd.names id e he).nodup
    refine (agree_effective_iff hd.isForest hsound.isForest (P := fun _ => True)
      (fun a _ => Document.parent_updateElement ..) (fun _ _ _ _ => trivial)
      (fun a _ => keepsOrSheds_updateElement hd.isForest he (hcases.imp_right (·.2)) a)
      trivial).2 fun a _ => ?_
    rw [Document.property?_updateElement]
    split
    · next ha =>
      have hown : d.property? p id = e.property? p := by
        rw [Document.property?, he, Option.bind_some]
      rw [ha, he, Option.bind_some, hown, stemAt_of_element? he]
      rcases hcases with hsame | ⟨hnone, v, hv, hremovable⟩
      · exact .inl hsame
      · rw [hnone, hv]
        exact .inr ⟨isInitial_some.2 (Bool.and_eq_true .. ▸ hremovable).1, isInitial_none _ _⟩
    · exact .refl _ _ _

theorem keepsValues_removeDefaults (hd : d.IsSound fun _ => True) :
    KeepsValues d (Pass.removeDefaults.run d) := by
  refine Visit.Keeps.topDown (Visit.Keeps.of_keep (fun d' j _ h _ => ?_) fun d' j => ?_)
    ⟨hd, fun _ => rfl, fun _ _ => .refl _ _ _⟩
  · split
    · next e he =>
      have hstep := keepsValues_updateElement h.sound he
      refine ⟨hstep.sound, fun i => (hstep.stem_eq i).trans (h.stem_eq i), fun p i => ?_⟩
      have hagree := hstep.agree p i
      rw [h.stem_eq] at hagree
      exact (h.agree p i).trans hagree
    · exact h
  · split <;> rfl

/-- At every element the value of a property that takes effect comes to the same when
attributes that restate initial values are removed. -/
theorem agree_effective_removeDefaults (hd : d.IsSound fun _ => True) (he : d.element? id = some e)
    (p : String) :
    Agree e.name.stem p (d.effective? p id) ((Pass.removeDefaults.run d).effective? p id) :=
  stemAt_of_element? he ▸ (keepsValues_removeDefaults hd).agree p id

/-! ## An initial value inside another -/

namespace Opaque

def element (name : String) (attributes : List Attribute) : Element :=
  .ofAttributes (.plain name) attributes

def document : Document :=
  (((Document.empty.append Document.root (.element (element "svg" []))).1.append 1
    (.element (element "g" [⟨.plain "fill-opacity", "1"⟩]))).1.append 2
      (.element (element "rect" [⟨.plain "fill-opacity", " 1 "⟩]))).1

theorem isSound_document : document.IsSound fun _ => True := by
  have helement : ∀ e, Content.element e ≠ .root := fun e h => by cases h
  refine ⟨?_, fun j e he => ⟨trivial, fun _ _ => trivial, ?_⟩⟩
  · exact ((Document.IsRooted.empty.append (by decide) (helement _)).append (by decide)
      (helement _)).append (by decide) (helement _)
  · exact Document.forall_element?_of_all (Q := fun e => (e.attributes.map (·.name)).Nodup)
      (by decide) he

end Opaque

/-- The value of the rectangle goes because that of the group went before. -/
theorem agree_effective_removeDefaults_nested :
    (Opaque.document.IsSound fun _ => True) ∧
      (Opaque.document.element? 3).map (·.attr? "fill-opacity") = some (some " 1 ") ∧
      ((Pass.removeDefaults.run Opaque.document).element? 3).map (·.attr? "fill-opacity") =
        some none ∧
      Agree "rect" "fill-opacity" (Opaque.document.effective? "fill-opacity" 3)
        ((Pass.removeDefaults.run Opaque.document).effective? "fill-opacity" 3) := by
  refine ⟨Opaque.isSound_document, by decide, by decide, ?_⟩
  have helement : Opaque.document.element? 3 =
      some (Opaque.element "rect" [⟨.plain "fill-opacity", " 1 "⟩]) := by decide
  exact agree_effective_removeDefaults Opaque.isSound_document helement "fill-opacity"

end Defaults
end SvgCompact
