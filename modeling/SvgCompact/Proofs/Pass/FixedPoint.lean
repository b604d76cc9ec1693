import Mathlib
import SvgCompact.Proofs.Markup.Growth
import SvgCompact.Proofs.Pass.Dangling
import SvgCompact.Proofs.Pass.Receiving
import SvgCompact.Proofs.Pass.Rising
import SvgCompact.Proofs.Pass.Tracing

/-!
Walks from the bottom up that leave nothing to do.

A node is visited after all nodes below it and before the one above it.  If a visit leaves its
own node at rest and stirs no other but the parent, whose turn is still to come, then the walk
leaves every node at rest (`Settles.bottomUp`), and a second one changes nothing
(`Settles.run_run`).  Nodes may go on the way, and the children of a visited node may move to
its parent.
-/

namespace SvgCompact

open Document (root)

namespace Visit

/-- The document after a visit, where a node that is dropped is unlinked. -/
def after (visit : Visit) (d : Document) (id : NodeId) : Document :=
  (visit.visitor.settle ((), d) id).2

theorem after_of_keep {visit : Visit} {d : Document} {id : NodeId}
    (h : (visit d id).2 = .keep) : visit.after d id = (visit d id).1 := by
  rw [after, Visitor.settle_of_keep h]
  rfl

theorem after_of_drop {visit : Visit} {d : Document} {id : NodeId}
    (h : (visit d id).2 = .drop) : visit.after d id = (visit d id).1.detach id := by
  rw [after, Visitor.settle_of_drop h]
  rfl

/-- Whether a document results from another by what leaves a node at rest and stirs no other
node but its parent. -/
structure IsSettled (inv : Document → Prop) (P : Document → NodeId → Prop) (d : Document)
    (id p : NodeId) (d' : Document) : Prop where
  inv : inv d'
  size_eq : d'.size = d.size
  own : P d' id
  others : ∀ j, j ≠ id → j ≠ p → P d j → P d' j
  /-- Nodes hang where they hung, or where the node did if it was their parent. -/
  parent_of_some : ∀ j q, d'.parent j = some q →
    d.parent j = some q ∨ q = p ∧ d.parent j = some id
  parent_eq : ∀ j, j ≠ id → d.parent j ≠ some id → d'.parent j = d.parent j

theorem IsSettled.refl {inv : Document → Prop} {P : Document → NodeId → Prop} {d : Document}
    {id : NodeId} (hd : inv d) (h : P d id) (p : NodeId) : IsSettled inv P d id p d :=
  ⟨hd, rfl, h, fun _ _ _ hj => hj, fun _ _ hq => .inl hq, fun _ _ _ => rfl⟩

/-- Whether each visit settles its node, and does nothing at a node at rest. -/
structure Settles (visit : Visit) (inv : Document → Prop) (P : Document → NodeId → Prop) :
    Prop where
  isForest : ∀ d, inv d → d.IsForest
  rest : ∀ d id p, inv d → d.parent id = some p → P d id → visit d id = (d, .keep)
  settled : ∀ d id p, inv d → d.parent id = some p → IsSettled inv P d id p (visit.after d id)

/-- How far a walk has come: what was visited is at rest, with all that was below it, and
what was not hangs where it hung. -/
structure IsUnderway (inv : Document → Prop) (P : Document → NodeId → Prop) (start : Document)
    (V : NodeId → Prop) (d : Document) : Prop where
  inv : inv d
  size_eq : d.size = start.size
  parent_eq : ∀ j, ¬ V j → d.parent j = start.parent j
  parent_of_some : ∀ j q, d.parent j = some q → start.IsAbove q j
  rest : ∀ v, V v → P d v
  closed : ∀ v c, V v → start.parent c = some v → V c

namespace IsUnderway

variable {visit : Visit} {inv : Document → Prop} {P : Document → NodeId → Prop}
  {start d : Document} {V V' : NodeId → Prop} {p id : NodeId}

theorem congr (h : IsUnderway inv P start V d) (hV : ∀ v, V v ↔ V' v) :
    IsUnderway inv P start V' d := by
  obtain rfl : V = V' := funext fun v => propext (hV v)
  exact h

theorem isAbove (h : IsUnderway inv P start V d) {a j : NodeId} (ha : d.IsAbove a j) :
    start.IsAbove a j := by
  induction ha with
  | single hp => exact h.parent_of_some _ _ hp
  | tail _ hp ih => exact ih.trans (h.parent_of_some _ _ hp)

/-- A visit of the next node, where all below it has been visited. -/
theorem settle (h : visit.Settles inv P) (hd : IsUnderway inv P start V d) (hid : ¬ V id)
    (hbelow : ∀ v, start.IsAbove id v → V v) (hp : start.parent id = some p) :
    IsUnderway inv P start (fun v => V v ∨ v = id) (visit.after d id) := by
  have hparent : d.parent id = some p := (hd.parent_eq id hid).trans hp
  -- had the parent been visited, this node would have been before it
  have hpV : ¬ V p := fun hpV => hid (hd.closed p id hpV hp)
  have hsettled := h.settled d id p hd.inv hparent
  refine ⟨hsettled.inv, hsettled.size_eq.trans hd.size_eq, fun j hj => ?_, fun j q hq => ?_,
    fun v hv => ?_, fun v c hv hc => ?_⟩
  · rw [not_or] at hj
    have hjid : d.parent j ≠ some id := by
      rw [hd.parent_eq j hj.1]
      exact fun hjid => hj.1 (hbelow j (Document.isAbove_of_parent hjid))
    rw [hsettled.parent_eq j hj.2 hjid, hd.parent_eq j hj.1]
  · rcases hsettled.parent_of_some j q hq with hold | ⟨rfl, hjid⟩
    · exact hd.parent_of_some j q hold
    · exact (hd.parent_of_some id q hparent).trans (hd.parent_of_some j id hjid)
  · by_cases hvid : v = id
    · rw [hvid]
      exact hsettled.own
    · have hvV : V v := hv.resolve_right hvid
      exact hsettled.others v hvid (fun hvp => hpV (hvp ▸ hvV)) (hd.rest v hvV)
  · rcases hv with hv | rfl
    · exact .inl (hd.closed v c hv hc)
    · exact .inl (hbelow c (Document.isAbove_of_parent hc))

/-- Over children of one node, nothing within which has been visited. -/
theorem foldl {σ : Type} (hstart : start.IsForest) {step : σ × Document → NodeId → σ × Document}
    {ids : List NodeId} (hids : ∀ c ∈ ids, start.parent c = some p) (hnodup : ids.Nodup)
    (hstep : ∀ V s, ∀ c ∈ ids, IsUnderway inv P start V s.2 → (∀ v, IsWithin start c v → ¬ V v) →
      IsUnderway inv P start (fun v => V v ∨ IsWithin start c v) (step s c).2)
    {s : σ × Document} (hs : IsUnderway inv P start V s.2)
    (hfresh : ∀ c ∈ ids, ∀ v, IsWithin start c v → ¬ V v) :
    IsUnderway inv P start (fun v => V v ∨ ∃ c ∈ ids, IsWithin start c v) (ids.foldl step s).2 := by
  induction ids generalizing V s with
  | nil => exact hs.congr fun v => by simp
  | cons c ids ih =>
    obtain ⟨hnotin, hnodup⟩ := List.nodup_cons.1 hnodup
    obtain ⟨hc, hids⟩ := List.forall_mem_cons.1 hids
    obtain ⟨hcfresh, hfresh⟩ := List.forall_mem_cons.1 hfresh
    have hfirst := hstep V s c List.mem_cons_self hs hcfresh
    refine (ih hids hnodup (fun V s b hb => hstep V s b (List.mem_cons_of_mem c hb)) hfirst
      fun b hb v hbv hv => ?_).congr fun v => ?_
    · rcases hv with hv | hcv
      · exact hfresh b hb v hbv hv
      · exact hnotin (hbv.eq_of_siblings hstart (hids b hb) hc hcv ▸ hb)
    · rw [List.exists_mem_cons_iff, or_assoc]

end IsUnderway

namespace Settles

variable {visit : Visit} {inv : Document → Prop} {P : Document → NodeId → Prop}
  (h : visit.Settles inv P) {start d : Document}
include h

/-- The induction is on the bound, which never runs out: nodes that are still to be visited
hang where they hung. -/
theorem childrenFirst (hstart : start.IsForest) {n k : Nat} {p id : NodeId}
    {V : NodeId → Prop} (s : Unit × Document) (hs : IsUnderway inv P start V s.2)
    (hid : start.parent id = some p) (hk : start.climb k id = some root)
    (hn : start.size ≤ n + k) (hfresh : ∀ v, IsWithin start id v → ¬ V v) :
    IsUnderway inv P start (fun v => V v ∨ IsWithin start id v)
      (Walk.childrenFirst visit.visitor n p s id).2 := by
  induction n generalizing k p id V s with
  | zero =>
    obtain ⟨n, hn⟩ := hstart.exists_succ_of_climb hid hk hn
    cases hn
  | succ n ih =>
    -- nothing within the node has been visited yet, so its children are those it had
    have hchildren : ∀ c, c ∈ s.2.children id ↔ start.parent c = some id := by
      intro c
      rw [(h.isForest _ hs.inv).mem_children_iff]
      constructor
      · intro hc
        have hnew := hfresh c (.inr (hs.parent_of_some c id hc))
        exact (hs.parent_eq c hnew).symm.trans hc
      · intro hc
        exact (hs.parent_eq c (hfresh c (.inr (Document.isAbove_of_parent hc)))).trans hc
    have hbelow : IsUnderway inv P start (fun v => V v ∨ start.IsAbove id v)
        ((s.2.children id).foldl (Walk.childrenFirst visit.visitor n id) s).2 := by
      refine (IsUnderway.foldl hstart (fun c hc => (hchildren c).1 hc)
        ((h.isForest _ hs.inv).nodup_children id) (fun V s c hc hs hfresh => ?_) hs
        fun c hc v hcv => hfresh v (.inr (hcv.of_child ((hchildren c).1 hc)))).congr fun v => ?_
      · have hc := (hchildren c).1 hc
        exact ih s hs hc ((Document.climb_of_parent hc k).trans hk) (by omega) hfresh
      · rw [isAbove_iff_exists_child]
        simp only [hchildren]
    generalize ht : (s.2.children id).foldl (Walk.childrenFirst visit.visitor n id) s = t at hbelow
    have hnew : ¬ (V id ∨ start.IsAbove id id) :=
      not_or.2 ⟨hfresh id (.inl rfl), hstart.not_above_self id⟩
    rw [Walk.childrenFirst_of_parent ht ((hbelow.parent_eq id hnew).trans hid)]
    refine (hbelow.settle h hnew (fun v hv => .inr hv) hid).congr fun v => ?_
    rw [or_assoc, IsWithin, or_comm (a := start.IsAbove id v)]

/-- After the walk all nodes below the root are at rest. -/
theorem bottomUp (hd : inv d) :
    IsUnderway inv P d (d.IsAbove root) ((Pass.bottomUp visit).run d) := by
  have hforest := h.isForest d hd
  have hempty : IsUnderway inv P d (fun _ => False) d :=
    ⟨hd, rfl, fun _ _ => rfl, fun _ _ => Document.isAbove_of_parent, nofun, nofun⟩
  have hchildren := hforest.mem_children_iff root
  refine (IsUnderway.foldl hforest (s := ((), d)) (fun c hc => (hchildren c).1 hc)
    (hforest.nodup_children root) (fun V s c hc hs hfresh => ?_) hempty
    fun _ _ _ _ => id).congr fun v => ?_
  · have hc := (hchildren c).1 hc
    refine h.childrenFirst hforest (k := 1) s hs hc ((Document.climb_one c).trans hc) ?_ hfresh
    show d.size ≤ 2 * d.size + 1
    omega
  · rw [false_or, isAbove_iff_exists_child]
    simp only [hchildren]

omit h in
theorem foldl_of_rest {step : Unit × Document → NodeId → Unit × Document} {ids : List NodeId}
    (hstep : ∀ c ∈ ids, step ((), d) c = ((), d)) : ids.foldl step ((), d) = ((), d) :=
  List.foldlRecOn (motive := fun s => s = ((), d)) _ _ rfl fun s hs c hc => by rw [hs, hstep c hc]

section AtRest

variable (hd : d.IsForest) (hrest : ∀ id, d.IsAbove root id → visit d id = (d, .keep))
include hd hrest

omit h in
/-- A walk over nodes at rest changes nothing. -/
theorem bottomUp_of_rest : (Pass.bottomUp visit).run d = d := by
  have hwalk : ∀ n p id, d.IsAbove root id →
      Walk.childrenFirst visit.visitor n p ((), d) id = ((), d) := by
    intro n
    induction n with
    | zero => exact fun _ _ _ => rfl
    | succ n ih =>
      intro p id hid
      have hbelow : (d.children id).foldl (Walk.childrenFirst visit.visitor n id) ((), d) =
          ((), d) :=
        foldl_of_rest fun c hc => ih id c (hid.tail ((hd.mem_children_iff id c).1 hc))
      by_cases hp : d.parent id = some p
      · rw [Walk.childrenFirst_keep hbelow hp (by rw [hrest id hid]), hrest id hid]
      · rw [Walk.childrenFirst_away hbelow hp]
  exact congrArg Prod.snd (foldl_of_rest fun c hc => hwalk _ root c
    (Document.isAbove_of_parent ((hd.mem_children_iff root c).1 hc)))

omit h in
theorem topDown_of_rest : (Pass.topDown visit).run d = d := by
  have hwalk : ∀ n p id, d.IsAbove root id →
      Walk.parentsFirst visit.visitor n p ((), d) id = ((), d) := by
    intro n
    induction n with
    | zero => exact fun _ _ _ => rfl
    | succ n ih =>
      intro p id hid
      by_cases hp : d.parent id = some p
      · rw [Walk.parentsFirst_keep hp (by rw [hrest id hid]), hrest id hid]
        exact foldl_of_rest fun c hc => ih id c (hid.tail ((hd.mem_children_iff id c).1 hc))
      · exact Walk.parentsFirst_away hp
  exact congrArg Prod.snd (foldl_of_rest fun c hc => hwalk _ root c
    (Document.isAbove_of_parent ((hd.mem_children_iff root c).1 hc)))

end AtRest

/-- What is left after the walk is at rest. -/
theorem run_run (hd : inv d) :
    (Pass.bottomUp visit).run ((Pass.bottomUp visit).run d) = (Pass.bottomUp visit).run d := by
  have hleft := h.bottomUp hd
  refine bottomUp_of_rest (h.isForest _ hleft.inv) fun id hid => ?_
  obtain ⟨p, -, hp⟩ := Relation.TransGen.tail'_iff.1 hid
  exact h.rest _ id p hleft.inv hp (hleft.rest id (hleft.isAbove hid))

end Settles

end Visit

namespace Pass

open Visit (Settles)

variable {d : Document} {id j p : NodeId}

/-! ## Empty containers -/

/-- Whether a node is a container that may go because it is empty. -/
def dropsEmpty (d : Document) (id : NodeId) : Bool :=
  (d.element? id).any fun e =>
    !e.isNamed "svg" && e.isContainer && d.isEmpty id && !mattersEmpty e

theorem emptyVisit_eq (d : Document) (id : NodeId) :
    emptyVisit d id = (d, if dropsEmpty d id then .drop else .keep) := by
  rw [emptyVisit, dropsEmpty]
  cases d.element? id with
  | none => rfl
  | some e =>
    dsimp only [Option.any_some]
    split <;> rfl

theorem after_emptyVisit (d : Document) (id : NodeId) :
    emptyVisit.after d id = if dropsEmpty d id then d.detach id else d := by
  have hvisit := emptyVisit_eq d id
  cases hdrop : dropsEmpty d id with
  | true => rw [Visit.after_of_drop (by rw [hvisit, hdrop]; rfl), hvisit]; rfl
  | false => rw [Visit.after_of_keep (by rw [hvisit, hdrop]; rfl), hvisit]; rfl

theorem settles_emptyVisit : emptyVisit.Settles Document.IsForest
    fun d id => d.parent id = none ∨ dropsEmpty d id = false where
  isForest _ hd := hd
  rest d id p _ hp h := by
    rw [emptyVisit_eq, h.resolve_left (by rw [hp]; exact Option.some_ne_none p)]
    rfl
  settled d id p hd hp := by
    rw [after_emptyVisit]
    split
    · refine ⟨hd.detach id, Document.size_detach d id,
        .inl (by rw [Document.parent_detach, if_pos rfl]), fun j hj hjp hrest => ?_,
        fun j q hq => ?_, fun j hj _ => by rw [Document.parent_detach, if_neg hj]⟩
      · refine hrest.imp (fun hnone => ?_) fun hkeep => ?_
        · rw [Document.parent_detach, if_neg hj, hnone]
        · have hempty : (d.detach id).isEmpty j = d.isEmpty j := by
            rw [Document.isEmpty, Document.children_detach, if_neg, Document.isEmpty]
            exact fun hid => hjp (Option.some.inj (hid.symm.trans hp))
          rwa [dropsEmpty, Document.element?_detach, hempty]
      · rw [Document.parent_detach] at hq
        split at hq
        · cases hq
        · exact .inl hq
    · next hkeep => exact .refl hd (.inr (Bool.eq_false_iff.2 hkeep)) p

/-! ## Shared attributes -/

/-- What a group takes from its children depends on its lasting attributes and its style. -/
theorem hoistable_eq_of_lasting {group group' : Element} (hlasting : group'.lasting = group.lasting)
    (hstyle : group'.style = group.style) (children : List Element) :
    hoistable group' children = hoistable group children := by
  have hhas : ∀ s, Inheritance.isInherited s = false → group'.hasAttr s = group.hasAttr s := by
    intro s hs
    rw [Element.hasAttr, Element.attribute?_eq_lasting group' hs, hlasting, Element.hasAttr,
      Element.attribute?_eq_lasting group hs]
  rw [hoistable, hoistable, hhas "clip-path" (by decide), hhas "mask" (by decide), hstyle]

theorem hoistedAmong_eq_of_lasting {group group' : Element} (hname : group'.name = group.name)
    (hlasting : group'.lasting = group.lasting) (hstyle : group'.style = group.style)
    (children : List (Option Element)) :
    hoistedAmong (some group') children = hoistedAmong (some group) children := by
  unfold hoistedAmong
  cases children.mapM (Option.filter fun e => !e.attributes.isEmpty && !e.hasAttr "class") with
  | none => rfl
  | some elements =>
    simp only [Element.isNamed, hname, hoistable_eq_of_lasting hlasting hstyle]
    rfl

theorem mem_shared_cons {first : Element} {rest : List Element} {a : Attribute} :
    a ∈ Inheritance.shared (first :: rest) ↔
      a.name.IsInherited ∧ ∀ e ∈ first :: rest, a ∈ e.attributes := by
  rw [Inheritance.shared, List.mem_filter, List.forall_mem_cons]
  simp only [Bool.and_eq_true, Option.isNone_iff_eq_none, List.all_eq_true,
    List.contains_iff_mem, QName.IsInherited]
  tauto

/-- What elements still have in common without attributes that they shared could move before. -/
theorem mem_hoistable_of_withoutTaken {moved : List Attribute} {group : Element}
    {children : List Element} {a : Attribute}
    (ha : a ∈ hoistable group (children.map (withoutTaken moved))) :
    a ∈ hoistable group children ∧ a.name ∉ moved.map (·.name) := by
  cases children with
  | nil => cases ha
  | cons first rest =>
    obtain ⟨hshared, hallowed⟩ := List.mem_filter.1 ha
    rw [List.map_cons, mem_shared_cons, ← List.map_cons] at hshared
    obtain ⟨hinherited, hall⟩ := hshared
    have hkept : ∀ e ∈ first :: rest, a ∈ e.attributes ∧ a.name ∉ moved.map (·.name) := by
      intro e he
      have hmem := hall _ (List.mem_map_of_mem he)
      rw [withoutTaken, Element.attributes_filterAttrs, List.mem_filter] at hmem
      exact ⟨hmem.1, by simpa using hmem.2⟩
    have hpaths : ((first :: rest).map (withoutTaken moved)).all Element.hasPathData =
        (first :: rest).all Element.hasPathData := by
      rw [List.all_map]
      rfl
    rw [hpaths] at hallowed
    exact ⟨List.mem_filter.2 ⟨mem_shared_cons.2 ⟨hinherited, fun e he => (hkept e he).1⟩, hallowed⟩,
      (hkept first List.mem_cons_self).2⟩

theorem sharedVisit_of_nil (h : hoistedFrom d id = []) : sharedVisit d id = (d, .keep) := by
  rw [sharedVisit, h]

theorem isInherited_of_mem_hoistedFrom (hd : d.IsCoherent) {a : Attribute}
    (ha : a ∈ hoistedFrom d id) : a.name.IsInherited := by
  obtain ⟨group, h⟩ := isHoistable_hoistedFrom hd.toIsSound id (List.ne_nil_of_mem ha)
  exact h.inherited a ha

/-- A visit does not change what other groups take, but for the one around. -/
theorem hoistedFrom_sharedVisit (hd : d.IsCoherent) (hp : d.parent id = some p) (hj : j ≠ id)
    (hjp : j ≠ p) : hoistedFrom (sharedVisit d id).1 j = hoistedFrom d j := by
  have hvisit := element?_sharedVisit hd id
  have hchildren : (d.children j).map (sharedVisit d id).1.element? =
      (d.children j).map d.element? := by
    refine List.map_congr_left fun c hc => ?_
    have hc := (hd.isForest.mem_children_iff j c).1 hc
    have hne : c ≠ id := fun heq => hjp (Option.some.inj (hc.symm.trans (heq ▸ hp)))
    rw [(hvisit c).2.2, if_neg hne, hc, if_neg fun heq => hj (Option.some.inj heq)]
  rw [hoistedFrom_eq, hoistedFrom_eq, (hvisit j).1.children_eq, hchildren, (hvisit j).2.2,
    if_neg hj]
  split
  · cases he : d.element? j with
    | none => rfl
    | some e =>
      have hlasting : (withoutTaken (hoistedFrom d id) e).lasting = e.lasting := by
        refine Element.lasting_filterAttrs fun a _ ha => ?_
        obtain ⟨b, hb, hname⟩ := List.mem_map.1 (by simpa using ha)
        exact hname ▸ isInherited_of_mem_hoistedFrom hd hb
      have hstyle : (withoutTaken (hoistedFrom d id) e).style = e.style :=
        (Element.isFresh_filterAttrs _ e).style_eq_of_lasting (hd.fresh j e he) hlasting
      have hname : (withoutTaken (hoistedFrom d id) e).name = e.name := rfl
      rw [Option.map_some]
      exact hoistedAmong_eq_of_lasting hname hlasting hstyle _
  · rfl

/-- A group has nothing left to take after its visit. -/
theorem hoistedFrom_sharedVisit_self (hd : d.IsCoherent) (id : NodeId) :
    hoistedFrom (sharedVisit d id).1 id = [] := by
  by_cases hnil : hoistedFrom d id = []
  · rw [sharedVisit_of_nil hnil, hnil]
  by_contra hne
  have hvisit := element?_sharedVisit hd id
  rw [hoistedFrom_eq] at hnil hne
  obtain ⟨group, es, hgroup, -, hes, -, hmoved⟩ := hoistedAmong_ne_nil hnil
  obtain ⟨group', es', hgroup', -, hes', -, hmoved'⟩ := hoistedAmong_ne_nil hne
  rw [← hoistedFrom_eq] at hmoved
  rw [(hvisit id).2.2, if_pos rfl, hgroup, Option.map_some, Option.some.injEq] at hgroup'
  have hchildren : es' = es.map (withoutTaken (hoistedFrom d id)) := by
    refine (List.map_injective_iff.2 (Option.some_injective _)) ?_
    rw [← hes', (hvisit id).1.children_eq, List.map_map, Function.comp_def]
    have hmap := congrArg (List.map (Option.map (withoutTaken (hoistedFrom d id)))) hes
    rw [List.map_map, List.map_map] at hmap
    refine Eq.trans (List.map_congr_left fun c hc => ?_) hmap
    have hc := (hd.isForest.mem_children_iff id c).1 hc
    have hne : c ≠ id := fun heq => hd.isForest.parent_ne_self id (heq ▸ hc)
    rw [(hvisit c).2.2, if_neg hne, if_pos hc, Function.comp_apply]
  have hlasting : group'.lasting = group.lasting := by
    rw [← hgroup', withTaken]
    exact Element.lasting_foldl_putJoined fun a ha => isInherited_of_mem_hoistedFrom hd ha
  have hstyle : group'.style = group.style := by
    rw [← hgroup', withTaken]
    exact style_foldl_putJoined fun a ha => (isInherited_of_mem_hoistedFrom hd ha).ne_style
  -- what they still share could have moved, so it did, and they do not have it any more
  rw [hmoved', hchildren, hoistable_eq_of_lasting hlasting hstyle] at hne
  obtain ⟨a, ha⟩ := List.exists_mem_of_ne_nil _ hne
  obtain ⟨hold, hnew⟩ := mem_hoistable_of_withoutTaken ha
  exact hnew (List.mem_map_of_mem (hmoved ▸ hold))

theorem settles_sharedVisit :
    sharedVisit.Settles Document.IsCoherent fun d id => hoistedFrom d id = [] where
  isForest _ hd := hd.isForest
  rest d id p _ _ h := sharedVisit_of_nil h
  settled d id p hd hp := by
    obtain ⟨hshape, hcoherent, -⟩ := element?_sharedVisit hd id id
    rw [Visit.after_of_keep (sharedVisit_keep d id)]
    exact ⟨hcoherent, hshape.size_eq, hoistedFrom_sharedVisit_self hd id,
      fun j hj hjp h => (hoistedFrom_sharedVisit hd hp hj hjp).trans h,
      fun j q hq => .inl ((hshape.parent_eq j).symm.trans hq), fun j _ _ => hshape.parent_eq j⟩

/-! ## Groups that give way -/

/-- Whether a group can neither give way to its children nor leave its attributes to the only
one. -/
def IsStuck (d : Document) (id : NodeId) : Prop :=
  IsCollapsible d id → ¬ (d.element? id).any (·.attributes.isEmpty) = true ∧
    ∀ c group child, ¬ IsLowerableTo d id c group child

theorem collapseVisit_of_isStuck (h : IsStuck d id) : collapseVisit d id = (d, .keep) := by
  by_cases hid : IsCollapsible d id
  · obtain ⟨hbare, hnone⟩ := h hid
    have hlower : lower d id = d :=
      (lower_cases hid.named).resolve_right fun ⟨c, group, child, h, _⟩ => hnone c group child h
    rw [collapseVisit_of hid, hlower, if_neg hbare]
  · exact collapseVisit_of_not hid

/-- What a node can do does not grow with the attributes of its only child, nor with its own. -/
theorem IsStuck.lowered {c : NodeId} {group child : Element} (hd : d.IsCoherent)
    (h : IsLowerableTo d id c group child) (hj : j ≠ id) (hjp : d.parent id ≠ some j)
    (hstuck : IsStuck d j) : IsStuck (lowered d id c group.attributes) j := by
  intro hcollapsible
  obtain ⟨hbare, hnone⟩ := hstuck ((h.isCollapsible_lowered hd j).1 hcollapsible)
  have hforest := hd.isForest
  have helement := h.element?_lowered hforest
  have hshape := isRestyled_lowered d id c group.attributes
  have hnames : ∀ a ∈ child.attributes, ∃ b ∈ (group.attributes.foldl
      (putJoined fun outer own => outer ++ " " ++ own) child).attributes, b.name = a.name :=
    fun a ha => List.mem_map.1 (mem_names_foldl_putJoined.2 (.inl (List.mem_map_of_mem ha)))
  refine ⟨fun hbare' => hbare ?_, fun c' outer inner h' => ?_⟩
  · rw [helement, if_neg hj] at hbare'
    split at hbare'
    · next hjc =>
      rw [hjc, h.inner, Option.any_some, List.isEmpty_iff]
      rw [Option.any_some, List.isEmpty_iff] at hbare'
      refine List.eq_nil_iff_forall_not_mem.2 fun a ha => ?_
      obtain ⟨b, hb, -⟩ := hnames a ha
      rw [hbare'] at hb
      cases hb
    · exact hbare'
  · have honly : d.children j = [c'] := (hshape.children_eq j).symm.trans h'.only
    have hc' : d.parent c' = some j :=
      (hforest.mem_children_iff j c').1 (honly ▸ List.mem_singleton_self c')
    have hc'id : c' ≠ id := fun heq => hjp (heq ▸ hc')
    have hc'c : c' ≠ c := fun heq =>
      hj (Option.some.inj (hc'.symm.trans ((h.parent_iff hforest c').2 heq)))
    have hinner : d.element? c' = some inner := by
      rw [← h'.inner, helement, if_neg hc'id, if_neg hc'c]
    have houter := h'.outer
    rw [helement, if_neg hj] at houter
    split at houter
    · next hjc =>
      obtain ⟨e, he, hnamed⟩ := Document.isNamed_iff.1
        ((h.isCollapsible_lowered hd j).1 hcollapsible).named
      obtain rfl := Option.some.inj ((hjc ▸ h.inner).symm.trans he)
      obtain rfl := Option.some.inj houter
      -- it has all names that it had, so what it can leave to its child now it could before
      refine hnone c' child inner ⟨honly, he, hinner, hnamed, fun a ha => ?_⟩
      obtain ⟨b, hb, hname⟩ := hnames a ha
      exact isLowerable_of_name hname (h'.lowerable b hb)
    · exact hnone c' outer inner ⟨honly, houter, hinner, h'.named, h'.lowerable⟩

/-- Other nodes than the parent of a bare group see nothing of it once it is gone. -/
theorem IsStuck.unwrap (hd : d.IsForest) (hid : IsCollapsible d id) (hp : d.parent id = some p)
    (hj : j ≠ id) (hjp : j ≠ p) (hstuck : IsStuck d j) : IsStuck (d.unwrap id) j := by
  intro hcollapsible
  have helement := Document.element?_unwrap d id
  have hchildren : (d.unwrap id).children j = d.children j := by
    obtain ⟨front, back, -, hchildren⟩ := hd.children_unwrap hp
    rw [hchildren, if_neg hjp, if_neg hj]
  have hnamed : d.isNamed j "g" = true := by
    simpa only [Document.isNamed, helement] using hcollapsible.named
  obtain ⟨hbare, hnone⟩ := hstuck ⟨hnamed, hchildren ▸ hcollapsible.filled,
    isAlternative_of_unwrap hd hid hcollapsible.single⟩
  refine ⟨by rwa [helement], fun c group child h => hnone c group child ?_⟩
  exact ⟨hchildren ▸ h.only, helement j ▸ h.outer, helement c ▸ h.inner, h.named, h.lowerable⟩

/-- Whether a group is bare and may go in a document that differs in attributes only, where
other nodes than the parent are stuck if they were. -/
structure IsReadied (id : NodeId) (d d' : Document) : Prop where
  isCoherent : d'.IsCoherent
  isRestyled : d.IsRestyled d'
  isCollapsible : IsCollapsible d' id
  bare : (d'.element? id).any (·.attributes.isEmpty) = true
  stuck : ∀ j, j ≠ id → d.parent id ≠ some j → IsStuck d j → IsStuck d' j

/-- A node that is not stuck gives way to its children, after it left them its attributes. -/
theorem exists_isReadied (hd : d.IsCoherent) (h : ¬ IsStuck d id) :
    ∃ d', IsReadied id d d' ∧ (collapseVisit d id).1 = d'.unwrap id := by
  rw [IsStuck, Classical.not_imp] at h
  obtain ⟨hid, h⟩ := h
  by_cases hbare : (d.element? id).any (·.attributes.isEmpty) = true
  · exact ⟨d, ⟨hd, .refl d, hid, hbare, fun _ _ _ hj => hj⟩, collapseVisit_of_bare hd hid hbare⟩
  · have hlowerable : ∃ c group child, IsLowerableTo d id c group child := by
      by_contra hnone
      exact h ⟨hbare, fun c group child hc => hnone ⟨c, group, child, hc⟩⟩
    obtain ⟨c, group, child, hc⟩ := hlowerable
    exact ⟨lowered d id c group.attributes, ⟨(hc.isCoherent_lowered hd).1,
      isRestyled_lowered d id c group.attributes, (hc.isCollapsible_lowered hd id).2 hid,
      hc.isBare_lowered hd.isForest, fun j hj hjp => IsStuck.lowered hd hc hj hjp⟩,
      collapseVisit_of_lowerable hd hid hc⟩

/-- A group that is ready goes, and its children move to its parent. -/
theorem IsReadied.isSettled {d' : Document} (h : IsReadied id d d') (hp : d.parent id = some p) :
    Visit.IsSettled Document.IsCoherent (fun d id => d.parent id = none ∨ IsStuck d id) d id p
      (d'.unwrap id) := by
  have hforest := h.isCoherent.isForest
  have hparent' := h.isRestyled.parent_eq
  have hp' := (hparent' id).trans hp
  have hparent := hforest.parent_unwrap hp'
  refine ⟨(isRegrouped_unwrap h.isCoherent h.isCollapsible.named h.bare).1,
    (Document.size_unwrap d' id).trans h.isRestyled.size_eq, .inl ?_, fun j hj hjp hrest => ?_,
    fun j q hq => ?_, fun j hj hjid => ?_⟩
  · rw [hparent, if_neg (hforest.parent_ne_self id), if_pos rfl]
  · refine hrest.imp (fun hnone => ?_) fun hstuck => ?_
    · rw [hparent, hparent', hnone, if_neg nofun, ite_self]
    · have hne : d.parent id ≠ some j := fun heq => hjp (Option.some.inj (heq.symm.trans hp))
      exact (h.stuck j hj hne hstuck).unwrap hforest h.isCollapsible hp' hj hjp
  · rw [hparent, hparent'] at hq
    split at hq
    · next hjid => exact .inr ⟨(Option.some.inj hq).symm, hjid⟩
    · split at hq
      · cases hq
      · exact .inl hq
  · rw [hparent, hparent', if_neg hjid, if_neg hj]

theorem settles_collapseVisit : collapseVisit.Settles Document.IsCoherent
    fun d id => d.parent id = none ∨ IsStuck d id where
  isForest _ hd := hd.isForest
  rest d id p _ hp h :=
    collapseVisit_of_isStuck (h.resolve_left (by rw [hp]; exact Option.some_ne_none p))
  settled d id p hd hp := by
    rw [Visit.after_of_keep (collapseVisit_keep d id)]
    by_cases hstuck : IsStuck d id
    · rw [collapseVisit_of_isStuck hstuck]
      exact .refl hd (.inr hstuck) p
    · obtain ⟨d', hready, hvisit⟩ := exists_isReadied hd hstuck
      rw [hvisit]
      exact hready.isSettled hp

/-! ## Second runs -/

/-- Each of the passes that remove or regroup from the bottom up leaves nothing to do for a
second run. -/
theorem run_run_of_read {s : String} {pass : Pass} (hread : Markup.read s = .ok d)
    (hpass : pass ∈ [removeEmptyContainers, collapseGroups, moveSharedToGroup]) :
    pass.run (pass.run d) = pass.run d := by
  have hd := Markup.isCoherent_of_read hread
  simp only [List.mem_cons, List.not_mem_nil, or_false] at hpass
  rcases hpass with rfl | rfl | rfl
  · rw [removeEmptyContainers_eq]
    exact settles_emptyVisit.run_run hd.isForest
  · rw [collapseGroups_eq]
    exact settles_collapseVisit.run_run hd
  · rw [moveSharedToGroup_eq]
    exact settles_sharedVisit.run_run hd

namespace Leftover

def markup : String :=
  "<svg><defs/><g><a fill='red'/><a fill='red'/></g><g fill='red'><g><b/></g></g></svg>"

def red : Attribute := ⟨.plain "fill", "red"⟩

def document : Document :=
  [(root, "svg", []), (1, "defs", []), (1, "g", []), (3, "a", [red]), (3, "a", [red]),
    (1, "g", [red]), (6, "g", []), (7, "b", [])].foldl
    (fun d (p, name, attributes) =>
      (d.append p (.element (.ofAttributes (.plain name) attributes))).1) .empty

theorem read_markup : Markup.read markup = .ok document := by cbv

end Leftover

/-- The first pass drops the definitions, the second all groups, and with the third a group
takes a color from two elements. -/
theorem run_run_leftover :
    Markup.read Leftover.markup = .ok Leftover.document ∧
      ∀ pass ∈ [removeEmptyContainers, collapseGroups, moveSharedToGroup],
        pass.run Leftover.document ≠ Leftover.document ∧
          pass.run (pass.run Leftover.document) = pass.run Leftover.document := by
  refine ⟨Leftover.read_markup, fun pass hpass =>
    ⟨?_, run_run_of_read Leftover.read_markup hpass⟩⟩
  revert pass
  simp only [List.forall_mem_cons, List.not_mem_nil]
  refine ⟨fun h => ?_, fun h => ?_, fun h => ?_, nofun⟩
  · exact absurd (congrArg (·.children 1) h) (by decide)
  · exact absurd (congrArg (·.children 1) h) (by decide)
  · exact absurd (congrArg (·.element? 3) h) (by decide)

end Pass
end SvgCompact
