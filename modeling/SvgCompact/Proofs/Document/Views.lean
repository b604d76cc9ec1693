import Mathlib.Data.List.Nodup
import Mathlib.Logic.Function.Iterate
import SvgCompact.Document.Moves

/-!
What the moves do to the views of a document.

A document is seen through four views: its size and, for each node, the parent,
the children and the content.  Each move has one equation for each view.  The
equations hold in every table; what needs links that agree in both directions is
in `SvgCompact.Proofs.Document.Forest`.
-/

namespace SvgCompact

deriving instance DecidableEq for Node, Document

/-! ## Content -/

namespace Content

/-- Rewrites an element; other content stays. -/
def mapElement (f : Element → Element) : Content → Content
  | element e => element (f e)
  | other => other

theorem eq_element_of_element? {c : Content} {e : Element} (h : c.element? = some e) :
    c = element e := by
  cases c <;> cases h
  rfl

theorem mapElement_of_element?_none {c : Content} (f : Element → Element)
    (h : c.element? = none) : c.mapElement f = c := by
  cases c <;> cases h <;> rfl

theorem element?_mapElement (f : Element → Element) (c : Content) :
    (c.mapElement f).element? = c.element?.map f := by
  cases c <;> rfl

end Content

namespace Document

variable (d : Document) (id j : NodeId)

/-! ## The views as lookups -/

theorem parent_eq : d.parent j = d.nodes[j]?.bind (·.parent) := by
  rw [parent]
  cases d.nodes[j]? <;> rfl

theorem children_eq : d.children j = (d.nodes[j]?.map (·.children)).getD [] := by
  rw [children]
  cases d.nodes[j]? <;> rfl

theorem content_eq : d.content j = (d.nodes[j]?.map (·.content)).getD .root := by
  rw [content]
  cases d.nodes[j]? <;> rfl

theorem parent_of_size_le {d : Document} {j : NodeId} (hj : d.size ≤ j) : d.parent j = none := by
  rw [parent_eq, Array.getElem?_eq_none hj]
  rfl

theorem children_of_size_le {d : Document} {j : NodeId} (hj : d.size ≤ j) : d.children j = [] := by
  rw [children_eq, Array.getElem?_eq_none hj]
  rfl

theorem content_of_size_le {d : Document} {j : NodeId} (hj : d.size ≤ j) :
    d.content j = .root := by
  rw [content_eq, Array.getElem?_eq_none hj]
  rfl

theorem lt_size_of_parent {d : Document} {j p : NodeId} (h : d.parent j = some p) :
    j < d.size := by
  refine Nat.lt_of_not_le fun hj => ?_
  rw [parent_eq, Array.getElem?_eq_none hj] at h
  cases h

theorem lt_size_of_mem_children {d : Document} {c p : NodeId} (h : c ∈ d.children p) :
    p < d.size := by
  refine Nat.lt_of_not_le fun hp => ?_
  rw [children_eq, Array.getElem?_eq_none hp] at h
  cases h

theorem lt_size_of_element? {d : Document} {j : NodeId} {e : Element} (h : d.element? j = some e) :
    j < d.size := by
  refine Nat.lt_of_not_le fun hj => ?_
  rw [element?, content_eq, Array.getElem?_eq_none hj] at h
  cases h

/-- What is decided for all nodes of a table holds of all elements. -/
theorem forall_element?_of_all {d : Document} {Q : Element → Prop} [DecidablePred Q]
    (h : ∀ j < d.size, (d.element? j).all (fun e => decide (Q e)) = true) {j : NodeId}
    {e : Element} (he : d.element? j = some e) : Q e := by
  have hj := h j (lt_size_of_element? he)
  rw [he] at hj
  exact of_decide_eq_true hj

/-- The views determine a document. -/
theorem ext_views {d e : Document} (hsize : d.size = e.size)
    (hparent : ∀ j, d.parent j = e.parent j) (hchildren : ∀ j, d.children j = e.children j)
    (hcontent : ∀ j, d.content j = e.content j) : d = e := by
  obtain ⟨xs⟩ := d
  obtain ⟨ys⟩ := e
  congr 1
  refine Array.ext hsize fun j hx hy => ?_
  have hp := hparent j
  have hch := hchildren j
  have hco := hcontent j
  simp only [parent, children, content, Array.getElem?_eq_getElem hx,
    Array.getElem?_eq_getElem hy] at hp hch hco
  generalize xs[j] = x at hp hch hco
  generalize ys[j] = y at hp hch hco
  cases x
  cases y
  simp_all only

/-! ## Writing to one node -/

section Writing

variable (p : Option NodeId) (cs : List NodeId) (c : Content)

theorem getElem?_modify (f : Node → Node) :
    (d.modify id f).nodes[j]? = if id = j then d.nodes[j]?.map f else d.nodes[j]? :=
  Array.getElem?_modify

@[simp] theorem size_modify (f : Node → Node) : (d.modify id f).size = d.size :=
  Array.size_modify

@[simp] theorem size_setParent : (d.setParent id p).size = d.size := size_modify ..

@[simp] theorem size_setChildren : (d.setChildren id cs).size = d.size := size_modify ..

@[simp] theorem size_setContent : (d.setContent id c).size = d.size := size_modify ..

@[simp] theorem children_setParent : (d.setParent id p).children j = d.children j := by
  rw [children_eq, setParent, getElem?_modify, children_eq]
  split <;> cases d.nodes[j]? <;> rfl

@[simp] theorem content_setParent : (d.setParent id p).content j = d.content j := by
  rw [content_eq, setParent, getElem?_modify, content_eq]
  split <;> cases d.nodes[j]? <;> rfl

@[simp] theorem parent_setChildren : (d.setChildren id cs).parent j = d.parent j := by
  rw [parent_eq, setChildren, getElem?_modify, parent_eq]
  split <;> cases d.nodes[j]? <;> rfl

@[simp] theorem content_setChildren : (d.setChildren id cs).content j = d.content j := by
  rw [content_eq, setChildren, getElem?_modify, content_eq]
  split <;> cases d.nodes[j]? <;> rfl

@[simp] theorem parent_setContent : (d.setContent id c).parent j = d.parent j := by
  rw [parent_eq, setContent, getElem?_modify, parent_eq]
  split <;> cases d.nodes[j]? <;> rfl

@[simp] theorem children_setContent : (d.setContent id c).children j = d.children j := by
  rw [children_eq, setContent, getElem?_modify, children_eq]
  split <;> cases d.nodes[j]? <;> rfl

theorem getElem?_modify_self (f : Node → Node) :
    (d.modify id f).nodes[id]? = if h : id < d.nodes.size then some (f d.nodes[id]) else none := by
  rw [getElem?_modify, if_pos rfl]
  by_cases h : id < d.nodes.size
  · rw [Array.getElem?_eq_getElem h, dif_pos h]
    rfl
  · rw [Array.getElem?_eq_none (Nat.le_of_not_lt h), dif_neg h]
    rfl

theorem parent_setParent :
    (d.setParent id p).parent j = if j = id ∧ id < d.size then p else d.parent j := by
  rw [parent_eq, setParent]
  by_cases hj : id = j
  · subst hj
    rw [getElem?_modify_self]
    by_cases hs : id < d.nodes.size
    · simp [size, hs]
    · simp [size, hs, parent_eq]
  · rw [getElem?_modify, if_neg hj, if_neg fun h => hj h.1.symm, parent_eq]

theorem children_setChildren :
    (d.setChildren id cs).children j = if j = id ∧ id < d.size then cs else d.children j := by
  rw [children_eq, setChildren]
  by_cases hj : id = j
  · subst hj
    rw [getElem?_modify_self]
    by_cases hs : id < d.nodes.size
    · simp [size, hs]
    · simp [size, hs, children_eq]
  · rw [getElem?_modify, if_neg hj, if_neg fun h => hj h.1.symm, children_eq]

theorem content_setContent :
    (d.setContent id c).content j = if j = id ∧ id < d.size then c else d.content j := by
  rw [content_eq, setContent]
  by_cases hj : id = j
  · subst hj
    rw [getElem?_modify_self]
    by_cases hs : id < d.nodes.size
    · simp [size, hs]
    · simp [size, hs, content_eq]
  · rw [getElem?_modify, if_neg hj, if_neg fun h => hj h.1.symm, content_eq]

end Writing

/-! ## Creating -/

section Creating

variable (c : Content)

@[simp] theorem create_snd : (d.create c).2 = d.size := rfl

@[simp] theorem size_create : (d.create c).1.size = d.size + 1 := Array.size_push _

theorem getElem?_create :
    (d.create c).1.nodes[j]? = if j = d.size then some ⟨c, none, []⟩ else d.nodes[j]? :=
  Array.getElem?_push

/-- A new node has no parent, and neither has a node outside the table. -/
@[simp] theorem parent_create : (d.create c).1.parent j = d.parent j := by
  rw [parent_eq, getElem?_create, parent_eq]
  by_cases hj : j = d.size
  · rw [if_pos hj, Array.getElem?_eq_none (Nat.le_of_eq hj.symm)]
    rfl
  · rw [if_neg hj]

@[simp] theorem children_create : (d.create c).1.children j = d.children j := by
  rw [children_eq, getElem?_create, children_eq]
  by_cases hj : j = d.size
  · rw [if_pos hj, Array.getElem?_eq_none (Nat.le_of_eq hj.symm)]
    rfl
  · rw [if_neg hj]

theorem content_create :
    (d.create c).1.content j = if j = d.size then c else d.content j := by
  rw [content_eq, getElem?_create, content_eq]
  split <;> rfl

end Creating

/-! ## Unlinking -/

section Unlinking

theorem modify_congr {d : Document} {id : NodeId} {f g : Node → Node}
    (h : ∀ n, d.nodes[id]? = some n → f n = g n) : d.modify id f = d.modify id g := by
  rw [modify]
  congr 1
  refine Array.ext_getElem? fun j => ?_
  rw [Array.getElem?_modify, Array.getElem?_modify]
  split
  · next hj =>
    subst hj
    cases hn : d.nodes[id]? with
    | none => rfl
    | some n => simp [h n hn]
  · rfl

theorem detach_of_parent {d : Document} {id p : NodeId} (h : d.parent id = some p) :
    d.detach id = (d.setParent id none).setChildren p ((d.children p).filter (· != id)) := by
  rw [detach, h]
  refine modify_congr fun n hn => ?_
  have hc : (d.setParent id none).children p = n.children := by rw [children_eq, hn]; rfl
  rw [children_setParent] at hc
  rw [hc]

theorem detach_of_parent_none {d : Document} {id : NodeId} (h : d.parent id = none) :
    d.detach id = d := by
  rw [detach, h]

@[simp] theorem size_detach : (d.detach id).size = d.size := by
  cases h : d.parent id with
  | none => rw [detach_of_parent_none h]
  | some p => rw [detach_of_parent h]; simp

@[simp] theorem content_detach : (d.detach id).content j = d.content j := by
  cases h : d.parent id with
  | none => rw [detach_of_parent_none h]
  | some p => rw [detach_of_parent h]; simp

theorem parent_detach : (d.detach id).parent j = if j = id then none else d.parent j := by
  cases h : d.parent id with
  | none =>
    rw [detach_of_parent_none h]
    split
    · next hj => rw [hj, h]
    · rfl
  | some p =>
    rw [detach_of_parent h, parent_setChildren, parent_setParent]
    simp [lt_size_of_parent h]

theorem children_detach :
    (d.detach id).children j =
      if d.parent id = some j then (d.children j).filter (· != id) else d.children j := by
  cases h : d.parent id with
  | none => rw [detach_of_parent_none h, if_neg (by simp)]
  | some p =>
    rw [detach_of_parent h, children_setChildren, children_setParent, size_setParent]
    by_cases hj : j = p
    · subst hj
      by_cases hs : j < d.size
      · simp [hs]
      · simp [hs, children_eq, Array.getElem?_eq_none (Nat.le_of_not_lt hs)]
    · rw [if_neg fun hp => hj hp.1, if_neg fun hp => hj (Option.some.inj hp).symm]

@[simp] theorem size_detachAll (ids : List NodeId) : (d.detachAll ids).size = d.size := by
  induction ids generalizing d with
  | nil => rfl
  | cons id rest ih => exact (ih (d.detach id)).trans (size_detach d id)

@[simp] theorem content_detachAll (ids : List NodeId) :
    (d.detachAll ids).content j = d.content j := by
  induction ids generalizing d with
  | nil => rfl
  | cons id rest ih => exact (ih (d.detach id)).trans (content_detach d id j)

theorem parent_detachAll (ids : List NodeId) :
    (d.detachAll ids).parent j = if j ∈ ids then none else d.parent j := by
  induction ids generalizing d with
  | nil => rfl
  | cons id rest ih =>
    refine (ih (d.detach id)).trans ?_
    rw [parent_detach]
    by_cases hr : j ∈ rest
    · simp [hr]
    · simp [hr]

end Unlinking

/-! ## Linking to several nodes -/

section Linking

variable (p : Option NodeId) (ids : List NodeId)

/-- Sets the parent of each of several nodes. -/
def setParents : Document :=
  ids.foldl (fun d id => d.setParent id p) d

@[simp] theorem size_setParents : (d.setParents p ids).size = d.size := by
  induction ids generalizing d with
  | nil => rfl
  | cons id rest ih => exact (ih (d.setParent id p)).trans (size_setParent d id p)

@[simp] theorem children_setParents : (d.setParents p ids).children j = d.children j := by
  induction ids generalizing d with
  | nil => rfl
  | cons id rest ih => exact (ih (d.setParent id p)).trans (children_setParent d id j p)

@[simp] theorem content_setParents : (d.setParents p ids).content j = d.content j := by
  induction ids generalizing d with
  | nil => rfl
  | cons id rest ih => exact (ih (d.setParent id p)).trans (content_setParent d id j p)

theorem parent_setParents :
    (d.setParents p ids).parent j = if j ∈ ids ∧ j < d.size then p else d.parent j := by
  induction ids generalizing d with
  | nil => simp [setParents]
  | cons id rest ih =>
    refine (ih (d.setParent id p)).trans ?_
    rw [parent_setParent, size_setParent]
    by_cases hr : j ∈ rest <;> by_cases hj : j = id <;> simp_all

end Linking

/-! ## Elements -/

section Elements

variable (f : Element → Element)

@[simp] theorem size_updateElement : (d.updateElement id f).size = d.size := by
  rw [updateElement]
  split
  · exact size_setContent ..
  · rfl

@[simp] theorem parent_updateElement : (d.updateElement id f).parent j = d.parent j := by
  rw [updateElement]
  split
  · exact parent_setContent ..
  · rfl

@[simp] theorem children_updateElement : (d.updateElement id f).children j = d.children j := by
  rw [updateElement]
  split
  · exact children_setContent ..
  · rfl

theorem content_updateElement :
    (d.updateElement id f).content j =
      if j = id then (d.content j).mapElement f else d.content j := by
  rw [updateElement]
  split
  · next e he =>
    rw [content_setContent]
    have hlt := lt_size_of_element? he
    by_cases hj : j = id
    · subst hj
      rw [if_pos ⟨rfl, hlt⟩, if_pos rfl, Content.eq_element_of_element? he]
      rfl
    · rw [if_neg fun h => hj h.1, if_neg hj]
  · next he =>
    split
    · next hj =>
      subst hj
      rw [Content.mapElement_of_element?_none f he]
    · rfl

theorem element?_updateElement :
    (d.updateElement id f).element? j =
      if j = id then (d.element? j).map f else d.element? j := by
  rw [element?, content_updateElement, element?]
  split
  · exact Content.element?_mapElement f _
  · rfl

theorem element?_foldl_updateElement (ids : List NodeId) :
    (ids.foldl (fun d a => d.updateElement a f) d).element? id =
      (d.element? id).map f^[ids.count id] := by
  induction ids generalizing d with
  | nil => simp
  | cons a rest ih =>
    rw [List.foldl_cons, ih, element?_updateElement]
    by_cases ha : id = a
    · subst ha
      rw [if_pos rfl, List.count_cons_self, Option.map_map, ← Function.iterate_succ]
    · rw [if_neg ha, List.count_cons_of_ne (Ne.symm ha)]

/-- What a rewriting keeps of every element, rewriting several elements keeps. -/
theorem bind_element?_foldl_updateElement {γ : Type} {view : Element → Option γ}
    {f : Element → Element} (hf : ∀ e, view (f e) = view e) (ids : List NodeId) (d : Document)
    (id : NodeId) : ((ids.foldl (fun d a => d.updateElement a f) d).element? id).bind view =
      (d.element? id).bind view := by
  have hiter : ∀ (n : Nat) (e : Element), view (f^[n] e) = view e := by
    intro n
    induction n with
    | zero => exact fun _ => rfl
    | succ n ih => exact fun e => (ih (f e)).trans (hf e)
  rw [element?_foldl_updateElement, Option.bind_map]
  congr 1
  funext e
  exact hiter _ e

theorem element?_foldl_updateElement_of_nodup {ids : List NodeId} (hids : ids.Nodup) :
    (ids.foldl (fun d a => d.updateElement a f) d).element? id =
      if id ∈ ids then (d.element? id).map f else d.element? id := by
  rw [element?_foldl_updateElement]
  split
  · next hid => rw [List.count_eq_one_of_mem hids hid, Function.iterate_one]
  · next hid => rw [List.count_eq_zero_of_not_mem hid, Function.iterate_zero, Option.map_id_fun, id_eq]

@[simp] theorem element?_detach : (d.detach id).element? j = d.element? j := by
  simp [element?]

@[simp] theorem element?_detachAll (ids : List NodeId) :
    (d.detachAll ids).element? j = d.element? j := by
  simp [element?]

/-- A new node that is no element shows up in no view of elements. -/
theorem element?_create {c : Content} (hc : c.element? = none) :
    (d.create c).1.element? j = d.element? j := by
  rw [element?, content_create, element?]
  split
  · next hj =>
    rw [hc, content_eq, Array.getElem?_eq_none (Nat.le_of_eq hj.symm)]
    rfl
  · rfl

@[simp] theorem content_splice (start stop : Nat) (ids : List NodeId) :
    (d.splice id start stop ids).1.content j = d.content j := by
  refine (content_setParents _ j _ _).trans ((content_setParents _ j _ _).trans ?_)
  simp

@[simp] theorem element?_splice (start stop : Nat) (ids : List NodeId) :
    (d.splice id start stop ids).1.element? j = d.element? j := by
  simp [element?]

end Elements

end Document
end SvgCompact
