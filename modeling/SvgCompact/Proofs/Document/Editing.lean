import SvgCompact.Document.Wording
import SvgCompact.Proofs.Document.Forest
import SvgCompact.Proofs.Element.Forms

/-!
The edits that passes are made of.

`Edit` lists what a pass may do to a document in one step.  What an edit does to the
content of a node and to its parent is said once, by `Edit.content_cases` and
`Edit.relinked`; every invariant of passes follows from these two.
-/

namespace SvgCompact

/-- What may stand beside the root element. -/
def Content.isMisc : Content → Bool
  | comment _ => true
  | instruction _ _ => true
  | doctype _ => true
  | _ => false

theorem Content.isMisc_of_not {c : Content} (hroot : c ≠ .root) (helement : c.isElement = false)
    (hcharacters : c.characters? = none) : c.isMisc = true := by
  cases c with
  | root => exact absurd rfl hroot
  | element e => cases helement
  | text s => cases hcharacters
  | cdata s => cases hcharacters
  | comment s => rfl
  | instruction target body => rfl
  | doctype body => rfl

theorem Content.characters?_of_isMisc {c : Content} (h : c.isMisc = true) :
    c.characters? = none := by
  cases c <;> first | rfl | cases h

theorem Content.isElement_of_isMisc {c : Content} (h : c.isMisc = true) : c.isElement = false := by
  cases c <;> first | rfl | cases h

namespace Document

/-! ## Parents after larger moves -/

namespace IsForest

variable {d : Document}

theorem parent_splice (h : d.IsForest) {p : NodeId} {added : List NodeId}
    (hadded : ∀ c ∈ added, c < d.size) (start stop : Nat) (j : NodeId) :
    (d.splice p start stop added).1.parent j =
      if j ∈ added then some p
      else if j ∈ (((d.detachAll added).children p).take stop).drop start then none
      else d.parent j := by
  rw [splice_eq]
  simp only [Document.exchange, parent_setParents, size_setParents, parent_setChildren,
    size_setChildren, size_detachAll, parent_detachAll]
  by_cases hja : j ∈ added
  · simp [hja, hadded j hja]
  · by_cases hjr : j ∈ (((d.detachAll added).children p).take stop).drop start
    · have hj := ((h.detachAll added).mem_children_iff p j).1
        (List.mem_of_mem_take (List.mem_of_mem_drop hjr))
      have hlt := lt_size_of_parent hj
      rw [size_detachAll] at hlt
      simp [hja, hjr, hlt]
    · simp [hja, hjr]

/-- A new node is nobody's child yet. -/
theorem children_detachAll_create (h : d.IsForest) (c : Content) (q : NodeId) :
    ((d.create c).1.detachAll [d.size]).children q = d.children q := by
  rw [(h.create c).children_detachAll, children_create, List.filter_eq_self.2]
  intro x hx
  have hlt := lt_size_of_parent ((h.mem_children_iff q x).1 hx)
  simpa using Nat.ne_of_lt hlt

theorem parent_replaceText (h : d.IsForest) {id : NodeId} (cdata : Bool) (s : String)
    (j : NodeId) : (d.replaceText id cdata s).parent j =
      if j = d.size then some id else if d.parent j = some id then none else d.parent j := by
  rw [replaceText]
  simp only [create_snd]
  rw [(h.create _).parent_splice (by simp)]
  simp only [h.children_detachAll_create, List.mem_singleton, parent_create, children_create,
    List.take_length, List.drop_zero, h.mem_children_iff]

theorem children_replaceText (h : d.IsForest) {id : NodeId} (hid : id < d.size) (cdata : Bool)
    (s : String) (j : NodeId) : (d.replaceText id cdata s).children j =
      if j = id then [d.size] else d.children j := by
  rw [replaceText]
  simp only [create_snd]
  rw [splice_eq]
  simp only [Document.exchange, children_setParents, children_setChildren,
    h.children_detachAll_create, size_detachAll, size_create, children_create]
  have hlt : id < d.size + 1 := Nat.lt_succ_of_lt hid
  simp [hlt]

/-- The children of the parent are still listed when those of the node are unlinked. -/
theorem children_detachAll_of_parent (h : d.IsForest) {id p : NodeId} (hid : d.parent id = some p) :
    (d.detachAll (d.children id)).children p = d.children p := by
  rw [h.children_detachAll, List.filter_eq_self.2]
  intro c hc
  rw [decide_eq_true_eq, h.mem_children_iff, (h.mem_children_iff p c).1 hc]
  intro hpid
  obtain rfl := Option.some.inj hpid
  exact h.not_above_self _ (isAbove_of_parent hid)

theorem parent_unwrap (h : d.IsForest) {id p : NodeId} (hid : d.parent id = some p)
    (j : NodeId) : (d.unwrap id).parent j =
      if d.parent j = some id then some p else if j = id then none else d.parent j := by
  obtain ⟨front, back, hs, hu⟩ := h.unwrap_of_parent hid
  rw [hu, h.parent_splice fun c hc => lt_size_of_parent ((h.mem_children_iff id c).1 hc),
    h.children_detachAll_of_parent hid, hs]
  simp [h.mem_children_iff, List.take_append]

/-- The children of a node take its place among those of the parent. -/
theorem children_unwrap (h : d.IsForest) {id p : NodeId} (hid : d.parent id = some p) :
    ∃ front back, d.children p = front ++ id :: back ∧ ∀ j, (d.unwrap id).children j =
      if j = p then front ++ d.children id ++ back else if j = id then [] else d.children j := by
  obtain ⟨front, back, hs, hu⟩ := h.unwrap_of_parent hid
  refine ⟨front, back, hs, fun j => ?_⟩
  have hp : p < d.size := lt_size_of_mem_children ((h.mem_children_iff p id).2 hid)
  rw [hu, splice_eq]
  simp only [Document.exchange, children_setParents, children_setChildren, size_detachAll,
    h.children_detachAll_of_parent hid, hs]
  by_cases hj : j = p
  · rw [if_pos ⟨hj, hp⟩, if_pos hj, List.take_append_of_le_length (Nat.le_refl _), List.take_length,
      Nat.max_eq_right (Nat.le_succ _)]
    simp
  · rw [if_neg fun hjp => hj hjp.1, if_neg hj, h.children_detachAll]
    split
    · next hjid =>
      rw [hjid]
      exact List.filter_eq_nil_iff.2 fun c hc => by simpa using hc
    · next hjid =>
      refine List.filter_eq_self.2 fun c hc => ?_
      rw [decide_eq_true_eq, h.mem_children_iff, (h.mem_children_iff j c).1 hc]
      exact fun heq => hjid (Option.some.inj heq)

end IsForest

theorem unwrap_of_parent_none {d : Document} {id : NodeId} (h : d.parent id = none) :
    d.unwrap id = d := by
  rw [unwrap, h]

@[simp] theorem content_unwrap (d : Document) (id j : NodeId) :
    (d.unwrap id).content j = d.content j := by
  rw [unwrap]
  split
  · simp
  · rfl

@[simp] theorem element?_unwrap (d : Document) (id j : NodeId) :
    (d.unwrap id).element? j = d.element? j := by
  rw [element?, content_unwrap, element?]

@[simp] theorem size_splice (d : Document) (p start stop : Nat) (added : List NodeId) :
    (d.splice p start stop added).1.size = d.size := by
  rw [splice_eq]
  simp [exchange]

@[simp] theorem size_unwrap (d : Document) (id : NodeId) : (d.unwrap id).size = d.size := by
  rw [unwrap]
  split
  · simp
  · rfl

@[simp] theorem size_replaceText (d : Document) (id : NodeId) (cdata : Bool) (s : String) :
    (d.replaceText id cdata s).size = d.size + 1 := by
  rw [replaceText]
  simp only [size_splice, size_create]

theorem content_replaceText (d : Document) (id : NodeId) (cdata : Bool) (s : String)
    (j : NodeId) : (d.replaceText id cdata s).content j =
      if j = d.size then (if cdata then .cdata s else .text s) else d.content j := by
  rw [replaceText]
  simp only [content_splice, content_create]

/-! ## Edits -/

/-- A step of a pass.  Elements go only if `drops` allows it; other nodes may always
go. -/
inductive Edit (P : QName → Prop) (drops : Element → Prop) : Document → Document → Prop
  | rewrite {d : Document} (id : NodeId) (f : Element → Element)
      (h : ∀ e, d.element? id = some e → e.IsRevision P (f e)) :
      Edit P drops d (d.updateElement id f)
  | detach {d : Document} (id : NodeId) (h : ∀ e, d.element? id = some e → drops e) :
      Edit P drops d (d.detach id)
  | reorder {d : Document} (id : NodeId) {order : List NodeId} (h : order.Perm (d.children id)) :
      Edit P drops d (d.setChildren id order)
  | replaceText {d : Document} (id : NodeId) (cdata : Bool) (s : String)
      (h : d.isElement id = true) : Edit P drops d (d.replaceText id cdata s)
  | unwrap {d : Document} (id : NodeId) (h : d.isNamed id "g" = true) :
      Edit P drops d (d.unwrap id)

/-- What an edit of `d` leaves of the parent of `c`. -/
inductive Relinked (drops : Element → Prop) (d d' : Document) (c : NodeId) : Prop
  | same (h : d'.parent c = d.parent c)
  | dropped (h : d'.parent c = none) (hc : ∀ e, d.element? c = some e → drops e)
  /-- A child of an element whose text is replaced. -/
  | replaced (h : d'.parent c = none) (p : NodeId) (hp : d.parent c = some p)
      (helement : d.isElement p = true)
  | unwrapped (h : d'.parent c = none) (hc : d.isNamed c "g" = true)
  /-- A child of a group that is unwrapped. -/
  | lifted (id p : NodeId) (hid : d.isNamed id "g" = true) (hp : d.parent id = some p)
      (hc : d.parent c = some id) (h : d'.parent c = some p) (hgone : d'.parent id = none)
  | added (hnew : d.size ≤ c) (id : NodeId) (h : d'.parent c = some id)
      (hid : d.isElement id = true) (htext : (d'.content c).characters?.isSome = true)

theorem lt_size_of_isElement {d : Document} {id : NodeId} (h : d.isElement id = true) :
    id < d.size := by
  obtain ⟨e, he⟩ := Option.isSome_iff_exists.1 h
  exact lt_size_of_element? he

theorem isNamed_iff {d : Document} {id : NodeId} {name : String} :
    d.isNamed id name = true ↔ ∃ e, d.element? id = some e ∧ e.isNamed name = true := by
  rw [isNamed]
  cases d.element? id <;> simp

theorem isElement_of_isNamed {d : Document} {id : NodeId} {name : String}
    (h : d.isNamed id name = true) : d.isElement id = true := by
  obtain ⟨e, he, -⟩ := isNamed_iff.1 h
  exact Option.isSome_iff_exists.2 ⟨e, he⟩

theorem isNamed_updateElement {d : Document} {id : NodeId} {f : Element → Element}
    (hf : ∀ e, (f e).name = e.name) (j : NodeId) (s : String) :
    (d.updateElement id f).isNamed j s = d.isNamed j s := by
  rw [isNamed, isNamed, element?_updateElement]
  by_cases hj : j = id
  · rw [if_pos hj]
    cases d.element? j with
    | none => rfl
    | some e => exact congrArg (QName.isNamed · s) (hf e)
  · rw [if_neg hj]

namespace Edit

variable {P : QName → Prop} {drops : Element → Prop} {d d' : Document}

theorem mono {drops' : Element → Prop} (hdrops : ∀ e, drops e → drops' e) (h : Edit P drops d d') :
    Edit P drops' d d' := by
  cases h with
  | rewrite id f h => exact .rewrite id f h
  | detach id h => exact .detach id fun e he => hdrops e (h e he)
  | reorder id h => exact .reorder id h
  | replaceText id cdata s h => exact .replaceText id cdata s h
  | unwrap id h => exact .unwrap id h

/-- Contents stay but for elements, which are revised, and new texts. -/
theorem content_cases (h : Edit P drops d d') (j : NodeId) :
    d'.content j = d.content j
      ∨ (∃ e e', d.content j = .element e ∧ d'.content j = .element e' ∧ e.IsRevision P e')
      ∨ (d.size ≤ j ∧ ∃ s, d'.content j = .text s ∨ d'.content j = .cdata s) := by
  cases h with
  | rewrite id f hf =>
    rw [content_updateElement]
    split
    · next hj =>
      subst hj
      cases he : d.element? j with
      | none => exact .inl (Content.mapElement_of_element?_none f he)
      | some e =>
        have hc := Content.eq_element_of_element? he
        exact .inr (.inl ⟨e, f e, hc, by rw [hc]; rfl, hf e he⟩)
    · exact .inl rfl
  | detach id _ => exact .inl (content_detach d id j)
  | reorder id _ => exact .inl (content_setChildren d id j _)
  | replaceText id cdata s _ =>
    rw [content_replaceText]
    split
    · next hj =>
      refine .inr (.inr ⟨Nat.le_of_eq hj.symm, s, ?_⟩)
      cases cdata
      · exact .inl rfl
      · exact .inr rfl
    · exact .inl rfl
  | unwrap id _ => exact .inl (content_unwrap d id j)

theorem relinked (h : Edit P drops d d') (hd : d.IsForest) (c : NodeId) :
    Relinked drops d d' c := by
  cases h with
  | rewrite id f _ => exact .same (parent_updateElement d id c f)
  | detach id hdrop =>
    have hp := parent_detach d id c
    split at hp
    · next hc => exact .dropped hp (hc ▸ hdrop)
    · exact .same hp
  | reorder id _ => exact .same (parent_setChildren d id c _)
  | replaceText id cdata s hid =>
    have hp := @IsForest.parent_replaceText d hd id cdata s c
    split at hp
    · next hc =>
      refine .added (Nat.le_of_eq hc.symm) id hp hid ?_
      rw [content_replaceText, if_pos hc]
      cases cdata <;> rfl
    · split at hp
      · next hc => exact .replaced hp id hc hid
      · exact .same hp
  | unwrap id hid =>
    cases hq : d.parent id with
    | none => exact .same (by rw [unwrap_of_parent_none hq])
    | some p =>
      have hp := hd.parent_unwrap hq c
      split at hp
      · next hc =>
        refine .lifted id p hid hq hc hp ?_
        rw [hd.parent_unwrap hq id, if_neg, if_pos rfl]
        intro hself
        exact hd.not_above_self id (isAbove_of_parent hself)
      · split at hp
        · next hc => exact .unwrapped hp (hc ▸ hid)
        · exact .same hp

theorem size_le (h : Edit P drops d d') : d.size ≤ d'.size := by
  cases h with
  | rewrite id f _ => exact Nat.le_of_eq (size_updateElement d id f).symm
  | detach id _ => exact Nat.le_of_eq (size_detach d id).symm
  | reorder id _ => exact Nat.le_of_eq (size_setChildren d id _).symm
  | replaceText id cdata s _ =>
    rw [size_replaceText]
    exact Nat.le_succ _
  | unwrap id _ => exact Nat.le_of_eq (size_unwrap d id).symm

theorem isForest (h : Edit P drops d d') (hd : d.IsForest) : d'.IsForest := by
  cases h with
  | rewrite id f _ =>
    exact hd.of_links (parent_updateElement d id · f) (children_updateElement d id · f)
  | detach id _ => exact hd.detach id
  | reorder id ho => exact hd.setChildren_of_perm ho
  | replaceText id cdata s hid =>
    have hlt := lt_size_of_isElement hid
    refine (hd.create _).splice ?_ (by simp) (fun c hc => ?_) 0 _
    · rw [size_create]
      exact Nat.lt_succ_of_lt hlt
    · obtain rfl : c = d.size := List.mem_singleton.1 hc
      exact hd.canHold_create _ hlt
  | unwrap id _ => exact hd.unwrap id

theorem forall_content {Q : Content → Prop}
    (hrevise : ∀ e e', Element.IsRevision P e e' → Q (.element e) → Q (.element e'))
    (htext : ∀ s, Q (.text s)) (hcdata : ∀ s, Q (.cdata s)) (h : Edit P drops d d')
    (hd : ∀ j, Q (d.content j)) (j : NodeId) : Q (d'.content j) := by
  rcases h.content_cases j with hj | ⟨e, e', he, he', hr⟩ | ⟨-, s, hs | hs⟩
  · rw [hj]
    exact hd j
  · rw [he']
    exact hrevise e e' hr (he ▸ hd j)
  · rw [hs]
    exact htext s
  · rw [hs]
    exact hcdata s

theorem isMisc (h : Edit P drops d d') {j : NodeId} (hj : (d.content j).isMisc = true) :
    (d'.content j).isMisc = true := by
  rcases h.content_cases j with hc | ⟨e, e', hc, -, -⟩ | ⟨hnew, -⟩
  · rwa [hc]
  · rw [hc] at hj
    cases hj
  · rw [content_eq, Array.getElem?_eq_none hnew] at hj
    cases hj

theorem element?_of_some (h : Edit P drops d d') {j : NodeId} {e : Element}
    (he : d.element? j = some e) : ∃ e', d'.element? j = some e' ∧ e.IsRevision P e' := by
  have hc := Content.eq_element_of_element? he
  rcases h.content_cases j with hj | ⟨e₁, e', he₁, he', hr⟩ | ⟨hj, -⟩
  · exact ⟨e, by rw [element?, hj]; exact he, .refl e⟩
  · obtain rfl : e = e₁ := by
      rw [hc] at he₁
      cases he₁
      rfl
    exact ⟨e', by rw [element?, he']; rfl, hr⟩
  · exact absurd (lt_size_of_element? he) (Nat.not_lt.2 hj)

theorem isElement (h : Edit P drops d d') {j : NodeId} (hj : d.isElement j = true) :
    d'.isElement j = true := by
  obtain ⟨e, he⟩ := Option.isSome_iff_exists.1 hj
  obtain ⟨e', he', -⟩ := h.element?_of_some he
  exact Option.isSome_iff_exists.2 ⟨e', he'⟩

/-- Where a link comes from: it was there, or a group between the two is gone, or the child
is new. -/
theorem parent_cases (h : Edit P drops d d') (hd : d.IsForest) {c p : NodeId}
    (hp : d'.parent c = some p) : d.parent c = some p ∨
      (∃ id, d.isNamed id "g" = true ∧ d.parent id = some p ∧ d.parent c = some id) ∨
      (d.size ≤ c ∧ d.isElement p = true) := by
  cases h.relinked hd c with
  | same heq => exact .inl (heq ▸ hp)
  | dropped hnone _ =>
    rw [hnone] at hp
    cases hp
  | replaced hnone _ _ _ =>
    rw [hnone] at hp
    cases hp
  | unwrapped hnone _ =>
    rw [hnone] at hp
    cases hp
  | lifted id q hg hq hc heq _ =>
    obtain rfl : q = p := Option.some.inj (heq.symm.trans hp)
    exact .inr (.inl ⟨id, hg, hq, hc⟩)
  | added hnew id heq hid _ =>
    obtain rfl : id = p := Option.some.inj (heq.symm.trans hp)
    exact .inr (.inr ⟨hnew, hid⟩)

end Edit

/-! ## What every edit keeps -/

/-- Whether nothing but elements and the root has children. -/
def HoldsInElements (d : Document) : Prop :=
  ∀ j p, d.parent j = some p → p = root ∨ d.isElement p = true

theorem HoldsInElements.edit {P : QName → Prop} {drops : Element → Prop} {d d' : Document}
    (h : d.HoldsInElements) (hd : d.IsForest) (he : Edit P drops d d') : d'.HoldsInElements := by
  intro j p hp
  rcases he.parent_cases hd hp with hp | ⟨id, -, hp, -⟩ | ⟨-, hp⟩
  · exact (h j p hp).imp_right he.isElement
  · exact (h id p hp).imp_right he.isElement
  · exact .inr (he.isElement hp)

/-- A forest below one root. -/
structure IsRooted (d : Document) : Prop where
  isForest : d.IsForest
  size_pos : root < d.size
  parent_root : d.parent root = none
  content_root : d.content root = .root
  only_root : ∀ c p, d.parent c = some p → d.content c ≠ .root

structure IsSound (P : QName → Prop) (d : Document) : Prop extends IsRooted d where
  names : ∀ j e, d.element? j = some e → e.All P

/-- What holds of every document that is read, beside its links: the names of attributes
do not repeat, and class lists and styles are those of the attributes. -/
structure IsCoherent (d : Document) : Prop extends IsSound (fun _ => True) d where
  fresh : ∀ j e, d.element? j = some e → e.IsFresh

/-- Where the element that was read as the root element of its name is. -/
structure HasRoot (r : NodeId) (name : QName) (d : Document) : Prop where
  element : ∃ e, d.element? r = some e ∧ e.name = name
  parent : d.parent r = some root ∨ d.parent r = none
  /-- Nothing but comments and the like is beside it, unless it was a group and its
  children have taken its place. -/
  top : d.parent r = some root ∨ name.isNamed "g" = false →
    ∀ c, d.parent c = some root → c = r ∨ (d.content c).isMisc = true

namespace IsRooted

variable {P : QName → Prop} {drops : Element → Prop} {d d' : Document}

theorem not_isElement_root (h : d.IsRooted) : d.isElement root = false := by
  rw [isElement, h.content_root]
  rfl

theorem parent_root_edit (h : d.IsRooted) (he : Edit P drops d d') : d'.parent root = none := by
  cases he.relinked h.isForest root with
  | same hp => rw [hp, h.parent_root]
  | dropped hp _ => exact hp
  | replaced hp _ _ _ => exact hp
  | unwrapped hp _ => exact hp
  | lifted id p _ _ hc _ _ =>
    rw [h.parent_root] at hc
    cases hc
  | added hnew _ _ _ _ => exact absurd h.size_pos (Nat.not_lt.2 hnew)

theorem content_root_edit (h : d.IsRooted) (he : Edit P drops d d') :
    d'.content root = .root := by
  rcases he.content_cases root with hc | ⟨e, e', hc, -, -⟩ | ⟨hnew, -⟩
  · rw [hc, h.content_root]
  · rw [h.content_root] at hc
    cases hc
  · exact absurd h.size_pos (Nat.not_lt.2 hnew)

theorem only_root_edit (h : d.IsRooted) (he : Edit P drops d d') {c p : NodeId}
    (hcp : d'.parent c = some p) : d'.content c ≠ .root := by
  have hold : ∀ q, d.parent c = some q → d'.content c ≠ .root := by
    intro q hq
    rcases he.content_cases c with hc | ⟨e, e', -, hc, -⟩ | ⟨-, s, hc | hc⟩
    · rw [hc]
      exact h.only_root c q hq
    all_goals simp [hc]
  cases he.relinked h.isForest c with
  | same hp => exact hold p (hp ▸ hcp)
  | dropped hp _ => simp [hp] at hcp
  | replaced hp _ _ _ => simp [hp] at hcp
  | unwrapped hp _ => simp [hp] at hcp
  | lifted id q _ _ hc _ _ => exact hold id hc
  | added _ _ _ _ htext =>
    intro hc
    rw [hc] at htext
    cases htext

theorem edit (h : d.IsRooted) (he : Edit P drops d d') : d'.IsRooted where
  isForest := he.isForest h.isForest
  size_pos := Nat.lt_of_lt_of_le h.size_pos he.size_le
  parent_root := h.parent_root_edit he
  content_root := h.content_root_edit he
  only_root _ _ hcp := h.only_root_edit he hcp

end IsRooted

theorem IsSound.edit {P : QName → Prop} {drops : Element → Prop} {d d' : Document}
    (h : d.IsSound P) (he : Edit P drops d d') : d'.IsSound P := by
  refine ⟨h.toIsRooted.edit he, fun j e' he' => ?_⟩
  have hnames := he.forall_content (Q := fun c => ∀ e, c.element? = some e → e.All P)
    (fun e e' hr hall e'' he'' => ?_) (fun s e hs => nomatch hs) (fun s e hs => nomatch hs)
    h.names j
  · exact hnames e' he'
  · obtain rfl : e' = e'' := Option.some.inj he''
    exact hr.all (hall e rfl)

namespace HasRoot

variable {P : QName → Prop} {drops : Element → Prop} {d d' : Document} {r : NodeId} {name : QName}

theorem isElement (h : HasRoot r name d) : d.isElement r = true := by
  obtain ⟨e, he, -⟩ := h.element
  exact Option.isSome_iff_exists.2 ⟨e, he⟩

theorem isNamed (h : HasRoot r name d) (s : String) : d.isNamed r s = name.isNamed s := by
  obtain ⟨e, he, rfl⟩ := h.element
  rw [Document.isNamed, he]
  rfl

theorem not_isElement_of_parent (h : HasRoot r name d) (hd : d.IsSound P) {p : NodeId}
    (hp : d.parent r = some p) : d.isElement p = false := by
  rcases h.parent with hr | hr
  · obtain rfl : root = p := Option.some.inj (hr.symm.trans hp)
    exact hd.not_isElement_root
  · rw [hr] at hp
    cases hp

theorem parent_edit (h : HasRoot r name d) (hd : d.IsSound P) (he : Edit P drops d d') :
    d'.parent r = d.parent r ∨ d'.parent r = none := by
  cases he.relinked hd.isForest r with
  | same hp => exact .inl hp
  | dropped hp _ => exact .inr hp
  | replaced hp _ _ _ => exact .inr hp
  | unwrapped hp _ => exact .inr hp
  | lifted id p hid _ hc _ _ =>
    have helement := isElement_of_isNamed hid
    rw [h.not_isElement_of_parent hd hc] at helement
    cases helement
  | added hnew _ _ _ _ =>
    exact absurd (lt_size_of_isElement h.isElement) (Nat.not_lt.2 hnew)

theorem edit (h : HasRoot r name d) (hd : d.IsSound P) (he : Edit P drops d d') :
    HasRoot r name d' := by
  have hr := h.parent_edit hd he
  refine ⟨?_, ?_, fun hcond c hc => ?_⟩
  · obtain ⟨e, hx, rfl⟩ := h.element
    obtain ⟨e', hx', hrev⟩ := he.element?_of_some hx
    exact ⟨e', hx', hrev.name⟩
  · rcases hr with hr | hr
    · rw [hr]
      exact h.parent
    · exact .inr hr
  · have hold : d.parent r = some root ∨ name.isNamed "g" = false := by
      refine hcond.imp_left fun hr' => ?_
      rcases hr with hr | hr
      · rw [← hr, hr']
      · rw [hr] at hr'
        cases hr'
    cases he.relinked hd.isForest c with
    | same hp => exact (h.top hold c (hp ▸ hc)).imp_right he.isMisc
    | dropped hp _ => simp [hp] at hc
    | replaced hp _ _ _ => simp [hp] at hc
    | unwrapped hp _ => simp [hp] at hc
    | lifted id p hid hp _ hcp hgone =>
      -- Only the root element itself can be a group at the top, and then it is gone.
      obtain rfl : root = p := Option.some.inj (hc.symm.trans hcp)
      have helement := isElement_of_isNamed hid
      rcases h.top hold id hp with rfl | hmisc
      · rw [h.isNamed] at hid
        rw [hgone, hid] at hcond
        simp at hcond
      · rw [Document.isElement, Content.isElement_of_isMisc hmisc] at helement
        cases helement
    | added _ id hp hid _ =>
      obtain rfl : root = id := Option.some.inj (hc.symm.trans hp)
      rw [hd.not_isElement_root] at hid
      cases hid

theorem parent_edit_eq (h : HasRoot r name d) (hd : d.IsSound P) (he : Edit P drops d d')
    (hg : name.isNamed "g" = false) (hdrop : ∀ e, e.name = name → ¬ drops e) :
    d'.parent r = d.parent r := by
  cases he.relinked hd.isForest r with
  | same hp => exact hp
  | dropped hp hr =>
    obtain ⟨e, hx, hname⟩ := h.element
    exact absurd (hr e hx) (hdrop e hname)
  | replaced _ p hp helement =>
    rw [h.not_isElement_of_parent hd hp] at helement
    cases helement
  | unwrapped _ hr =>
    rw [h.isNamed, hg] at hr
    cases hr
  | lifted id p hid _ hc _ _ =>
    have helement := isElement_of_isNamed hid
    rw [h.not_isElement_of_parent hd hc] at helement
    cases helement
  | added hnew _ _ _ _ =>
    exact absurd (lt_size_of_isElement h.isElement) (Nat.not_lt.2 hnew)

end HasRoot

/-! ## Sequences of edits -/

/-- Any number of edits. -/
def Edits (P : QName → Prop) (drops : Element → Prop) : Document → Document → Prop :=
  Relation.ReflTransGen (Edit P drops)

namespace Edits

variable {P : QName → Prop} {drops : Element → Prop} {d d' : Document}

theorem refl (d : Document) : Edits P drops d d := Relation.ReflTransGen.refl

theorem edit (h : Edit P drops d d') : Edits P drops d d' := Relation.ReflTransGen.single h

theorem trans {d'' : Document} (h : Edits P drops d d') (h' : Edits P drops d' d'') :
    Edits P drops d d'' :=
  Relation.ReflTransGen.trans h h'

theorem mono {drops' : Element → Prop} (hdrops : ∀ e, drops e → drops' e) (h : Edits P drops d d') :
    Edits P drops' d d' :=
  Relation.ReflTransGen.mono (fun _ _ => Edit.mono hdrops) d d' h

theorem keeps {Q : Document → Prop}
    (hstep : ∀ d d', d.IsSound P → Edit P drops d d' → Q d → Q d') (h : Edits P drops d d')
    (hd : d.IsSound P) (hq : Q d) : d'.IsSound P ∧ Q d' := by
  induction h with
  | refl => exact ⟨hd, hq⟩
  | tail _ he ih => exact ⟨ih.1.edit he, hstep _ _ ih.1 he ih.2⟩

theorem isSound (h : Edits P drops d d') (hd : d.IsSound P) : d'.IsSound P :=
  (h.keeps (Q := fun _ => True) (fun _ _ _ _ _ => trivial) hd trivial).1

theorem holdsInElements (h : Edits P drops d d') (hd : d.IsSound P) (hholds : d.HoldsInElements) :
    d'.HoldsInElements :=
  (h.keeps (fun _ _ hd he hholds => hholds.edit hd.isForest he) hd hholds).2

theorem name_of_element? (h : Edits P drops d d') {id : NodeId} {e : Element}
    (he : d.element? id = some e) : ∃ e', d'.element? id = some e' ∧ e'.name = e.name := by
  induction h with
  | refl => exact ⟨e, he, rfl⟩
  | tail _ hedit ih =>
    obtain ⟨e', he', hname⟩ := ih
    obtain ⟨e'', he'', hrev⟩ := hedit.element?_of_some he'
    exact ⟨e'', he'', hrev.name.trans hname⟩

theorem isNamed (h : Edits P drops d d') {id : NodeId} {name : String}
    (hid : d.isNamed id name = true) : d'.isNamed id name = true := by
  obtain ⟨e, he, hnamed⟩ := isNamed_iff.1 hid
  obtain ⟨e', he', hname⟩ := h.name_of_element? he
  refine isNamed_iff.2 ⟨e', he', ?_⟩
  rwa [Element.isNamed, hname]

theorem forall_content {Q : Content → Prop}
    (hrevise : ∀ e e', Element.IsRevision P e e' → Q (.element e) → Q (.element e'))
    (htext : ∀ s, Q (.text s)) (hcdata : ∀ s, Q (.cdata s)) (h : Edits P drops d d')
    (hd : ∀ j, Q (d.content j)) : ∀ j, Q (d'.content j) := by
  induction h with
  | refl => exact hd
  | tail _ he ih => exact he.forall_content hrevise htext hcdata ih

theorem rewrite (id : NodeId) {f : Element → Element}
    (hf : ∀ e, Element.IsRevision P e (f e)) : Edits P drops d (d.updateElement id f) :=
  .edit (.rewrite id f fun e _ => hf e)

theorem hasRoot {r : NodeId} {name : QName} (h : Edits P drops d d') (hd : d.IsSound P)
    (hr : HasRoot r name d) : HasRoot r name d' :=
  (h.keeps (fun _ _ hs he hr => hr.edit hs he) hd hr).2

/-- A root element that is gone does not come back. -/
theorem parent_eq_none {r : NodeId} {name : QName} (h : Edits P drops d d') (hd : d.IsSound P)
    (hr : HasRoot r name d) (hp : d.parent r = none) : d'.parent r = none := by
  refine (h.keeps (Q := fun d => HasRoot r name d ∧ d.parent r = none) ?_ hd ⟨hr, hp⟩).2.2
  rintro d d' hs he ⟨hr, hp⟩
  refine ⟨hr.edit hs he, ?_⟩
  rcases hr.parent_edit hs he with hp' | hp'
  · rw [hp', hp]
  · exact hp'

theorem parent_eq {r : NodeId} {name : QName} (h : Edits P drops d d') (hd : d.IsSound P)
    (hr : HasRoot r name d) (hg : name.isNamed "g" = false)
    (hdrop : ∀ e, e.name = name → ¬ drops e) : d'.parent r = d.parent r := by
  refine (h.keeps (Q := fun d' => HasRoot r name d' ∧ d'.parent r = d.parent r) ?_ hd
    ⟨hr, rfl⟩).2.2
  rintro d₁ d₂ hs he ⟨hr, hp⟩
  exact ⟨hr.edit hs he, (hr.parent_edit_eq hs he hg hdrop).trans hp⟩

/-- The edits of each step make the edits of a fold, also where the document is only
a part of what is carried along. -/
theorem foldl_view {α β : Type} (view : β → Document) {f : β → α → β} {l : List α}
    (hf : ∀ s, (view s).IsSound P → ∀ a ∈ l, Edits P drops (view s) (view (f s a))) {s : β}
    (hs : (view s).IsSound P) : Edits P drops (view s) (view (l.foldl f s)) := by
  induction l generalizing s with
  | nil => exact refl _
  | cons a rest ih =>
    have ha := hf s hs a (by simp)
    exact ha.trans (ih (fun s hs b hb => hf s hs b (by simp [hb])) (ha.isSound hs))

theorem foldl {α : Type} {f : Document → α → Document} {l : List α}
    (hf : ∀ d, d.IsSound P → ∀ a ∈ l, Edits P drops d (f d a)) (hd : d.IsSound P) :
    Edits P drops d (l.foldl f d) :=
  foldl_view id hf hd

end Edits

end Document
end SvgCompact
