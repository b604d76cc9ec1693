import SvgCompact.Proofs.Pass.Lasting

/-!
What the attributes shared by children come to.

The walk visits children before their group, so a group takes what its children share with
what they have taken themselves.  Read over the document before the pass this is a
recursion over the nodes below (`taken`), and each element ends with what it took less what
the group around it took (`element?_moveSharedToGroup`).
-/

namespace SvgCompact
namespace Element

variable {e : Element}

/-- A filter that all attributes pass changes nothing. -/
theorem IsFresh.filterAttrs_eq_self (h : e.IsFresh) {q : Attribute → Bool}
    (hq : ∀ a ∈ e.attributes, q a = true) : e.filterAttrs q = e :=
  IsFresh.ext (isFresh_filterAttrs q e) h rfl (List.filter_eq_self.2 hq)

end Element

namespace Pass

open Document (root IsCoherent)

variable {d s : Document} {id c p j : NodeId} {moved : List Attribute}

/-- What moves from elements to a group around them. -/
def hoistedAmong (group : Option Element) (children : List (Option Element)) : List Attribute :=
  match group, children.mapM
      (Option.filter fun e => !e.attributes.isEmpty && !e.hasAttr "class") with
  | some group, some children =>
    if group.isNamed "g" && 2 ≤ children.length then hoistable group children else []
  | _, _ => []

/-- An element with attributes that moved to it. -/
def withTaken (moved : List Attribute) (e : Element) : Element :=
  moved.foldl (putJoined fun own outer => outer ++ " " ++ own) e

/-- An element without attributes that moved away. -/
def withoutTaken (moved : List Attribute) (e : Element) : Element :=
  e.filterAttrs fun a => !(moved.map (·.name)).contains a.name

theorem withoutTaken_nil {e : Element} (h : e.IsFresh) : withoutTaken [] e = e :=
  h.filterAttrs_eq_self fun _ _ => rfl

/-- An element with what it takes, where so many levels below it are taken into account. -/
def risenWithin (d : Document) : Nat → NodeId → Option Element
  | 0, id => d.element? id
  | n + 1, id =>
    (d.element? id).map <|
      withTaken (hoistedAmong (d.element? id) ((d.children id).map (risenWithin d n)))

/-- An element with what it takes from its children. -/
def risen (d : Document) (id : NodeId) : Option Element :=
  risenWithin d d.size id

/-- What a group takes from its children once they have taken what they take. -/
def taken (d : Document) (id : NodeId) : List Attribute :=
  hoistedAmong (d.element? id) ((d.children id).map (risen d))

/-! ## The recursion -/

theorem hoistedFrom_eq (d : Document) (id : NodeId) :
    hoistedFrom d id = hoistedAmong (d.element? id) ((d.children id).map d.element?) := by
  unfold hoistedFrom hoistedAmong plainElements?
  rw [List.mapM_map]
  rfl

/-- Levels beyond the depth of the document do not count. -/
theorem risenWithin_eq (hd : d.IsForest) {n m k : Nat} (hid : id < d.size)
    (hk : d.climb k id = some root) (hn : d.size ≤ n + k) (hm : d.size ≤ m + k) :
    risenWithin d n id = risenWithin d m id := by
  have hlt := hd.lt_size_of_climb hid hk
  induction n generalizing m k id with
  | zero => omega
  | succ n ih =>
    cases m with
    | zero => omega
    | succ m =>
      rw [risenWithin, risenWithin]
      congr 3
      refine List.map_congr_left fun c hc => ?_
      have hp := (hd.mem_children_iff id c).1 hc
      have hk' := (Document.climb_of_parent hp k).trans hk
      have hc' := Document.lt_size_of_parent hp
      exact ih hc' hk' (by omega) (by omega) (hd.lt_size_of_climb hc' hk')

theorem risen_eq (hd : d.IsRooted) {k : Nat} (hk : d.climb k id = some root) :
    risen d id = (d.element? id).map (withTaken (taken d id)) := by
  obtain ⟨n, hn⟩ : ∃ n, d.size = n + 1 :=
    Nat.exists_eq_add_one_of_ne_zero (Nat.ne_of_gt hd.size_pos)
  have hbelow : ∀ c ∈ d.children id, risenWithin d n c = risen d c := by
    intro c hc
    have hp := (hd.isForest.mem_children_iff id c).1 hc
    exact risenWithin_eq hd.isForest (Document.lt_size_of_parent hp)
      ((Document.climb_of_parent hp k).trans hk) (by omega) (by omega)
  rw [risen, hn, risenWithin, List.map_congr_left hbelow]
  rfl

/-! ## One visit -/

theorem sharedVisit_keep (s : Document) (id : NodeId) : (sharedVisit s id).2 = .keep := by
  unfold sharedVisit
  split <;> rfl

/-- A visit keeps all links, and it moves what the children share as they are then. -/
theorem element?_sharedVisit (hs : s.IsCoherent) (id j : NodeId) :
    s.IsRestyled (sharedVisit s id).1 ∧ (sharedVisit s id).1.IsCoherent ∧
      (sharedVisit s id).1.element? j =
        if j = id then (s.element? id).map (withTaken (hoistedFrom s id))
        else if s.parent j = some id then (s.element? j).map (withoutTaken (hoistedFrom s id))
        else s.element? j := by
  unfold sharedVisit
  split
  · next hnil =>
    refine ⟨.refl s, hs, ?_⟩
    rw [hnil]
    split
    · next hj =>
      rw [hj]
      exact (Option.map_id' (x := _)).symm
    · split
      · cases he : s.element? j with
        | none => rfl
        | some e =>
          rw [Option.map_some, withoutTaken_nil (hs.fresh j e he)]
      · rfl
  · next hmoved =>
    obtain ⟨group, h⟩ := isHoistable_hoistedFrom hs.toIsSound id hmoved
    refine ⟨isRestyled_hoist s id _, h.isCoherent_hoist hs, ?_⟩
    rw [h.element?_hoist hs.isForest, h.element]
    rfl

/-! ## The walk -/

/-- What an element ends with: what it takes less what the group around it takes. -/
def settled (d : Document) (p j : NodeId) : Option Element :=
  (risen d j).map (withoutTaken (taken d p))

/-- Whether the branch at a node is done with, up to what the group around may take. -/
structure IsRisen (d : Document) (c : NodeId) (s : Document) : Prop where
  top : s.element? c = risen d c
  below : ∀ j p, d.IsAbove c j → d.parent j = some p → s.element? j = settled d p j

/-- What a part of the walk leaves behind that visited the branches at some nodes. -/
structure HasRisen (d : Document) (branches : List NodeId) (s s' : Document) : Prop where
  isRestyled : d.IsRestyled s'
  isCoherent : s'.IsCoherent
  done : ∀ c ∈ branches, IsRisen d c s'
  others : ∀ j, (∀ c ∈ branches, j ∉ d.subtree c) → s'.element? j = s.element? j

/-- Branches at siblings are done with one after the other. -/
theorem hasRisen_foldl {σ : Type} (hd : d.IsForest) (step : σ × Document → NodeId → σ × Document)
    {children : List NodeId} (hchildren : ∀ c ∈ children, d.parent c = some p)
    (hnodup : children.Nodup)
    (hstep : ∀ s : σ × Document, ∀ c ∈ children, d.IsRestyled s.2 → s.2.IsCoherent →
      (∀ j ∈ d.subtree c, s.2.element? j = d.element? j) → HasRisen d [c] s.2 (step s c).2)
    (s : σ × Document) (hs : d.IsRestyled s.2) (hcoherent : s.2.IsCoherent)
    (hfresh : ∀ c ∈ children, ∀ j ∈ d.subtree c, s.2.element? j = d.element? j) :
    HasRisen d children s.2 (children.foldl step s).2 := by
  induction children generalizing s with
  | nil => exact ⟨hs, hcoherent, fun c hc => absurd hc List.not_mem_nil, fun _ _ => rfl⟩
  | cons c rest ih =>
    rw [List.nodup_cons] at hnodup
    have hhead := hstep s c List.mem_cons_self hs hcoherent (hfresh c List.mem_cons_self)
    have hapart : ∀ x ∈ rest, ∀ j ∈ d.subtree x, ∀ y ∈ [c], j ∉ d.subtree y := by
      intro x hx j hj y hy hjy
      obtain rfl := List.mem_singleton.1 hy
      have heq := hd.eq_of_mem_subtree (hchildren x (List.mem_cons_of_mem _ hx))
        (hchildren y List.mem_cons_self) hj hjy
      exact hnodup.1 (heq ▸ hx)
    have hrest := ih (fun x hx => hchildren x (List.mem_cons_of_mem _ hx)) hnodup.2
      (fun s x hx => hstep s x (List.mem_cons_of_mem _ hx)) (step s c) hhead.isRestyled
      hhead.isCoherent fun x hx j hj => (hhead.others j (hapart x hx j hj)).trans
        (hfresh x (List.mem_cons_of_mem _ hx) j hj)
    refine ⟨hrest.isRestyled, hrest.isCoherent, fun x hx => ?_, fun j hj => ?_⟩
    · rcases List.mem_cons.1 hx with rfl | hx
      · have hkept : ∀ j ∈ d.subtree x,
            (List.foldl step (step s x) rest).2.element? j = (step s x).2.element? j :=
          fun j hj => hrest.others j fun y hy hjy =>
            hapart y hy j hjy x (List.mem_singleton_self x) hj
        have hdone := hhead.done x (List.mem_singleton_self x)
        refine ⟨(hkept x (hd.mem_subtree_iff.2 (.inl rfl))).trans hdone.top, fun j p hj hp => ?_⟩
        exact (hkept j (hd.mem_subtree_iff.2 (.inr hj))).trans (hdone.below j p hj hp)
      · exact hrest.done x hx
    · refine (hrest.others j fun x hx => hj x (List.mem_cons_of_mem _ hx)).trans
        (hhead.others j fun x hx => ?_)
      exact hj x (List.mem_singleton.1 hx ▸ List.mem_cons_self)

/-- Visiting a node when its branches are done with is all there is to do. -/
theorem HasRisen.sharedVisit {t : Document} (h : HasRisen d (d.children id) s t) (hd : d.IsRooted)
    {k : Nat} (hk : d.climb k id = some root)
    (hfresh : ∀ j ∈ d.subtree id, s.element? j = d.element? j) :
    HasRisen d [id] s (sharedVisit t id).1 := by
  have hforest := hd.isForest
  have hlow : ∀ c ∈ d.children id, id ∉ d.subtree c := fun c hc hmem => by
    have hp := (hforest.mem_children_iff id c).1 hc
    rcases hforest.mem_subtree_iff.1 hmem with rfl | habove
    · exact hforest.parent_ne_self id hp
    · exact hforest.not_above_self id ((Document.isAbove_of_parent hp).trans habove)
  have helement : t.element? id = d.element? id :=
    (h.others id hlow).trans (hfresh id (hforest.mem_subtree_iff.2 (.inl rfl)))
  have htaken : hoistedFrom t id = taken d id := by
    rw [hoistedFrom_eq, helement, h.isRestyled.children_eq, taken]
    exact congrArg _ (List.map_congr_left fun c hc => (h.done c hc).top)
  have hvisit := element?_sharedVisit h.isCoherent id
  simp only [htaken, helement, h.isRestyled.parent_eq] at hvisit
  refine ⟨h.isRestyled.trans (hvisit id).1, (hvisit id).2.1, fun c hc => ?_, fun j hj => ?_⟩
  · obtain rfl := List.mem_singleton.1 hc
    refine ⟨?_, fun j p hj hp => ?_⟩
    · rw [(hvisit c).2.2, if_pos rfl, risen_eq hd hk]
    · have hne : j ≠ c := by
        rintro rfl
        exact hforest.not_above_self j hj
      rw [(hvisit j).2.2, if_neg hne, hp]
      obtain ⟨x, hx, hjx⟩ :=
        (hforest.mem_subtree_iff_child.1 (hforest.mem_subtree_iff.2 (.inr hj))).resolve_left hne
      rcases hforest.mem_subtree_iff.1 hjx with rfl | habove
      · obtain rfl := Option.some.inj (hp.symm.trans ((hforest.mem_children_iff c j).1 hx))
        rw [if_pos rfl, (h.done j hx).top, settled]
      · have hpc : p ≠ c := by
          rintro rfl
          exact hforest.not_isAbove_of_siblings ((hforest.mem_children_iff p x).1 hx) hp habove
        rw [if_neg fun heq => hpc (Option.some.inj heq), (h.done x hx).below j p habove hp]
  · have hout := hj id (List.mem_singleton_self id)
    rw [hforest.mem_subtree_iff_child, not_or] at hout
    rw [(hvisit j).2.2, if_neg hout.1, if_neg fun hp => hout.2 ⟨j,
      (hforest.mem_children_iff id j).2 hp, hforest.mem_subtree_iff.2 (.inl rfl)⟩]
    exact h.others j fun c hc hjc => hout.2 ⟨c, hc, hjc⟩

/-- The induction is on the bound, of which there is enough at every depth `k`. -/
theorem hasRisen_childrenFirst {σ : Type} (hd : d.IsRooted) {n k : Nat} (s : σ × Document)
    (hid : d.parent id = some p) (hk : d.climb k id = some root) (hn : d.size ≤ n + k)
    (hs : d.IsRestyled s.2) (hcoherent : s.2.IsCoherent)
    (hfresh : ∀ j ∈ d.subtree id, s.2.element? j = d.element? j) :
    HasRisen d [id] s.2 (Walk.childrenFirst sharedVisit.visitor n p s id).2 := by
  have hforest := hd.isForest
  induction n generalizing k p id s with
  | zero =>
    obtain ⟨l, hl⟩ := hforest.exists_succ_of_climb hid hk hn
    cases hl
  | succ n ih =>
    have hparents : ∀ c ∈ d.children id, d.parent c = some id := fun c hc =>
      (hforest.mem_children_iff id c).1 hc
    have hbelow := hasRisen_foldl hforest (Walk.childrenFirst sharedVisit.visitor n id) hparents
      (hforest.nodup_children id)
      (fun s c hc hs hcoherent hfresh => ih s (hparents c hc)
        ((Document.climb_of_parent (hparents c hc) k).trans hk) (by omega) hs hcoherent hfresh)
      s hs hcoherent fun c hc j hj => hfresh j (hforest.mem_subtree_iff_child.2 (.inr ⟨c, hc, hj⟩))
    generalize ht : (d.children id).foldl (Walk.childrenFirst sharedVisit.visitor n id) s = t
      at hbelow
    rw [← hs.children_eq] at ht
    rw [Visit.childrenFirst_of_keep sharedVisit_keep ht
      ((hbelow.isRestyled.parent_eq id).trans hid)]
    exact hbelow.sharedVisit hd hk hfresh

/-- Every element of the document ends with what it takes from the elements below it, less
what the group around it takes. -/
theorem element?_moveSharedToGroup (hd : d.IsCoherent) (hp : d.parent id = some p)
    (hid : id ∈ d.subtree root) : (moveSharedToGroup.run d).element? id = settled d p id := by
  have hforest := hd.isForest
  have hparents : ∀ c ∈ d.children root, d.parent c = some root := fun c hc =>
    (hforest.mem_children_iff root c).1 hc
  have hall : HasRisen d (d.children root) d (moveSharedToGroup.run d) :=
    hasRisen_foldl hforest _ hparents (hforest.nodup_children root)
      (fun s c hc hs hcoherent hfresh => hasRisen_childrenFirst hd.toIsRooted s (hparents c hc)
        ((Document.climb_one c).trans (hparents c hc))
        (show d.size ≤ 2 * d.size + 1 by omega) hs hcoherent hfresh)
      ((), d) (.refl d) hd fun _ _ _ _ => rfl
  have hne : id ≠ root := by
    rintro rfl
    rw [hd.parent_root] at hp
    cases hp
  obtain ⟨c, hc, hidc⟩ := (hforest.mem_subtree_iff_child.1 hid).resolve_left hne
  rcases hforest.mem_subtree_iff.1 hidc with rfl | habove
  · obtain rfl := Option.some.inj (hp.symm.trans (hparents id hc))
    have hnone : d.element? root = none := by
      rw [Document.element?, hd.content_root]
      rfl
    have htaken : taken d root = [] := by
      rw [taken, hnone]
      rfl
    have htop := (hall.done id hc).top
    rw [settled, htaken, htop]
    cases he : risen d id with
    | none => rfl
    | some e => rw [Option.map_some, withoutTaken_nil (hall.isCoherent.fresh id e (htop.trans he))]
  · exact (hall.done c hc).below id p habove hp

/-! ## What is taken -/

theorem eq_map_some_of_filter {α : Type} {q : α → Bool} {l : List (Option α)} {l' : List α}
    (h : l.map (Option.filter q) = l'.map some) : l = l'.map some := by
  induction l generalizing l' with
  | nil => exact h
  | cons x rest ih =>
    cases l' with
    | nil => cases h
    | cons y rest' =>
      rw [List.map_cons, List.map_cons, List.cons.injEq] at h
      rw [List.map_cons, ih h.2, (Option.filter_eq_some_iff.1 h.1).1]

theorem hoistedAmong_ne_nil {group : Option Element} {children : List (Option Element)}
    (h : hoistedAmong group children ≠ []) :
    ∃ e es, group = some e ∧ e.isNamed "g" = true ∧ children = es.map some ∧ 2 ≤ es.length ∧
      hoistedAmong group children = hoistable e es := by
  unfold hoistedAmong at h ⊢
  split at h
  · next e es hes =>
    split at h
    · next hcond =>
      rw [if_pos hcond]
      simp only [Bool.and_eq_true, decide_eq_true_eq] at hcond
      refine ⟨e, es, rfl, hcond.1, ?_, hcond.2, rfl⟩
      exact eq_map_some_of_filter (mapM_eq_some_iff.1 hes)
    · exact absurd rfl h
  · exact absurd rfl h

/-- What a group takes is on each of its children. -/
theorem mem_taken {a : Attribute} (hd : d.IsForest) (ha : a ∈ taken d p)
    (hp : d.parent id = some p) : ∃ e, risen d id = some e ∧ a ∈ e.attributes := by
  obtain ⟨group, es, -, -, hes, hlen, htaken⟩ := hoistedAmong_ne_nil (List.ne_nil_of_mem ha)
  have hmem := List.mem_map_of_mem (f := risen d) ((hd.mem_children_iff p id).2 hp)
  rw [hes] at hmem
  obtain ⟨e, he, hrisen⟩ := List.mem_map.1 hmem
  refine ⟨e, hrisen.symm, ?_⟩
  rw [taken, htaken] at ha
  cases es with
  | nil => cases he
  | cons first rest => exact (mem_hoistable ha).1 e he

/-- Where a node takes nothing, its attributes are kept if and only if the group around it
takes nothing. -/
theorem attributes_moveSharedToGroup_iff (hd : d.IsCoherent) (hp : d.parent id = some p)
    (hid : id ∈ d.subtree root) {e : Element} (he : d.element? id = some e)
    (hnone : taken d id = []) :
    ((moveSharedToGroup.run d).element? id).map (·.attributes) = some e.attributes ↔
      taken d p = [] := by
  obtain ⟨k, hk⟩ := hd.isForest.mem_subtree_iff_climb.1 hid
  have hrisen : risen d id = some e := by
    rw [risen_eq hd.toIsRooted hk, hnone, he]
    rfl
  rw [element?_moveSharedToGroup hd hp hid, settled, hrisen, Option.map_some, Option.map_some,
    Option.some.injEq]
  refine ⟨fun hkept => List.eq_nil_iff_forall_not_mem.2 fun a ha => ?_, fun htaken => ?_⟩
  · obtain ⟨e', he', hae⟩ := mem_taken hd.isForest ha hp
    obtain rfl := Option.some.inj (hrisen.symm.trans he')
    have hleft := (List.filter_eq_self.1 hkept) a hae
    simp [List.mem_map_of_mem ha] at hleft
  · rw [htaken, withoutTaken_nil (hd.fresh id e he)]

end Pass
end SvgCompact
