import SvgCompact.Pass.Basic
import SvgCompact.Proofs.Document.Lineage

/-!
What a walk keeps.

A walk visits nodes that have a parent and unlinks those that are dropped.  What holds of
a document and is kept by both steps holds when the walk is over.
-/

namespace SvgCompact

/-! ## What a walk does at a node -/

namespace Walk

variable {σ : Type} {visit : Visit} {n : Nat} {parent id : NodeId} {s t : σ × Document}

/-- A node that has another parent by now is left alone. -/
theorem parentsFirst_away (h : s.2.parent id ≠ some parent) :
    parentsFirst visit.visitor (n + 1) parent s id = s := by
  rw [parentsFirst, if_pos h]

theorem parentsFirst_drop (h : s.2.parent id = some parent) (hv : (visit s.2 id).2 = .drop) :
    parentsFirst visit.visitor (n + 1) parent s id = (s.1, (visit s.2 id).1.detach id) := by
  rw [parentsFirst, if_neg fun hne => hne h]
  simp only [Visit.visitor, hv]

theorem parentsFirst_keep (h : s.2.parent id = some parent) (hv : (visit s.2 id).2 = .keep) :
    parentsFirst visit.visitor (n + 1) parent s id =
      ((visit s.2 id).1.children id).foldl (parentsFirst visit.visitor n id)
        (s.1, (visit s.2 id).1) := by
  rw [parentsFirst, if_neg fun hne => hne h]
  simp only [Visit.visitor, hv]

section ChildrenFirst

variable (ht : (s.2.children id).foldl (childrenFirst visit.visitor n id) s = t)
include ht

theorem childrenFirst_away (h : t.2.parent id ≠ some parent) :
    childrenFirst visit.visitor (n + 1) parent s id = t := by
  rw [childrenFirst, ht, if_pos h]

theorem childrenFirst_drop (h : t.2.parent id = some parent) (hv : (visit t.2 id).2 = .drop) :
    childrenFirst visit.visitor (n + 1) parent s id = (t.1, (visit t.2 id).1.detach id) := by
  rw [childrenFirst, ht, if_neg fun hne => hne h]
  simp only [Visit.visitor, hv]

theorem childrenFirst_keep (h : t.2.parent id = some parent) (hv : (visit t.2 id).2 = .keep) :
    childrenFirst visit.visitor (n + 1) parent s id = (t.1, (visit t.2 id).1) := by
  rw [childrenFirst, ht, if_neg fun hne => hne h]
  simp only [Visit.visitor, hv]

end ChildrenFirst

end Walk

namespace Visit

/-! ## What it keeps -/

/-- Whether visits of nodes with a parent keep a property of documents, and so does
unlinking what they drop. -/
structure Keeps (visit : Visit) (Q : Document → Prop) : Prop where
  kept : ∀ d id p, Q d → d.parent id = some p → Q (visit d id).1
  dropped : ∀ d id p, Q d → d.parent id = some p → (visit d id).2 = .drop →
    Q ((visit d id).1.detach id)

variable {visit : Visit} {Q : Document → Prop} {σ : Type}

namespace Keeps

variable (h : visit.Keeps Q)
include h

theorem parentsFirst (n : Nat) (parent : NodeId) (s : σ × Document) (hs : Q s.2) (id : NodeId) :
    Q (Walk.parentsFirst visit.visitor n parent s id).2 := by
  induction n generalizing parent s id with
  | zero => exact hs
  | succ n ih =>
    by_cases hid : s.2.parent id = some parent
    · cases hv : (visit s.2 id).2 with
      | drop =>
        rw [Walk.parentsFirst_drop hid hv]
        exact h.dropped s.2 id parent hs hid hv
      | keep =>
        rw [Walk.parentsFirst_keep hid hv]
        exact List.foldlRecOn (motive := fun s : σ × Document => Q s.2) _ _
          (h.kept s.2 id parent hs hid) fun s hs c _ => ih id s hs c
    · rwa [Walk.parentsFirst_away hid]

theorem childrenFirst (n : Nat) (parent : NodeId) (s : σ × Document) (hs : Q s.2) (id : NodeId) :
    Q (Walk.childrenFirst visit.visitor n parent s id).2 := by
  induction n generalizing parent s id with
  | zero => exact hs
  | succ n ih =>
    have hbelow : Q ((s.2.children id).foldl (Walk.childrenFirst visit.visitor n id) s).2 :=
      List.foldlRecOn (motive := fun s : σ × Document => Q s.2) _ _ hs fun s hs c _ => ih id s hs c
    generalize ht : (s.2.children id).foldl (Walk.childrenFirst visit.visitor n id) s = t at hbelow
    by_cases hid : t.2.parent id = some parent
    · cases hv : (visit t.2 id).2 with
      | drop =>
        rw [Walk.childrenFirst_drop ht hid hv]
        exact h.dropped t.2 id parent hbelow hid hv
      | keep =>
        rw [Walk.childrenFirst_keep ht hid hv]
        exact h.kept t.2 id parent hbelow hid
    · rwa [Walk.childrenFirst_away ht hid]

theorem topDown {d : Document} (hd : Q d) : Q ((Pass.topDown visit).run d) :=
  List.foldlRecOn (motive := fun s : Unit × Document => Q s.2) _ _ hd
    fun s hs c _ => h.parentsFirst _ _ s hs c

theorem bottomUp {d : Document} (hd : Q d) : Q ((Pass.bottomUp visit).run d) :=
  List.foldlRecOn (motive := fun s : Unit × Document => Q s.2) _ _ hd
    fun s hs c _ => h.childrenFirst _ _ s hs c

end Keeps

/-- A visit that drops nothing has to keep the property itself only. -/
theorem Keeps.of_keep (hvisit : ∀ d id p, Q d → d.parent id = some p → Q (visit d id).1)
    (hkeep : ∀ d id, (visit d id).2 = .keep) : visit.Keeps Q :=
  ⟨hvisit, fun d id _ _ _ hdrop => by rw [hkeep d id] at hdrop; cases hdrop⟩

/-- A node that keeps its parent while the nodes below it are visited is visited last. -/
theorem childrenFirst_of_keep (hkeep : ∀ d id, (visit d id).2 = .keep) {n : Nat}
    {parent id : NodeId} {s t : σ × Document}
    (ht : (s.2.children id).foldl (Walk.childrenFirst visit.visitor n id) s = t)
    (hparent : t.2.parent id = some parent) :
    (Walk.childrenFirst visit.visitor (n + 1) parent s id).2 = (visit t.2 id).1 := by
  rw [Walk.childrenFirst_keep ht hparent (hkeep t.2 id)]

/-- Whether visits of nodes of a region keep a property, under which the region holds all
children of its nodes. -/
structure KeepsWithin (visit : Visit) (R : NodeId → Prop) (Q : Document → Prop) : Prop where
  kept : ∀ d id p, Q d → R id → d.parent id = some p → Q (visit d id).1
  keep : ∀ d id, (visit d id).2 = .keep
  closed : ∀ d id c, Q d → R id → c ∈ d.children id → R c

/-- A walk that starts in a region does not leave it. -/
theorem KeepsWithin.childrenFirst {R : NodeId → Prop} (h : visit.KeepsWithin R Q) (n : Nat)
    (parent : NodeId) (s : σ × Document) (hs : Q s.2) {id : NodeId} (hid : R id) :
    Q (Walk.childrenFirst visit.visitor n parent s id).2 := by
  induction n generalizing parent s id with
  | zero => exact hs
  | succ n ih =>
    have hbelow : Q ((s.2.children id).foldl (Walk.childrenFirst visit.visitor n id) s).2 :=
      List.foldlRecOn (motive := fun s : σ × Document => Q s.2) _ _ hs fun s' hs' c hc =>
        ih id s' hs' (h.closed s.2 id c hs hid hc)
    generalize ht : (s.2.children id).foldl (Walk.childrenFirst visit.visitor n id) s = t at hbelow
    by_cases hparent : t.2.parent id = some parent
    · rw [Walk.childrenFirst_keep ht hparent (h.keep t.2 id)]
      exact h.kept t.2 id parent hbelow hid hparent
    · rwa [Walk.childrenFirst_away ht hparent]

/-! ## Every node once -/

/-- Whether visits keep what holds of the nodes visited so far and the document, if none
comes twice.  All links are links of the first document. -/
structure KeepsOnce (visit : Visit) (start : Document) (I : (NodeId → Prop) → Document → Prop) :
    Prop where
  isForest : ∀ V d, I V d → d.IsForest
  parent : ∀ V d c p, I V d → d.parent c = some p → start.parent c = some p
  kept : ∀ V d id p, I V d → ¬ V id → d.parent id = some p →
    I (fun v => V v ∨ v = id) (visit d id).1
  keep : ∀ d id, (visit d id).2 = .keep

/-- Whether a node is another one or below it. -/
def IsWithin (start : Document) (id v : NodeId) : Prop :=
  v = id ∨ start.IsAbove id v

theorem IsWithin.of_child {start : Document} {id c v : NodeId} (h : IsWithin start c v)
    (hc : start.parent c = some id) : start.IsAbove id v := by
  rcases h with rfl | h
  · exact Document.isAbove_of_parent hc
  · exact (Document.isAbove_of_parent hc).trans h

/-- What is below a node is within a child of it. -/
theorem isAbove_iff_exists_child {start : Document} {id v : NodeId} :
    start.IsAbove id v ↔ ∃ c, start.parent c = some id ∧ IsWithin start c v := by
  refine ⟨fun h => ?_, fun ⟨c, hc, hcv⟩ => hcv.of_child hc⟩
  obtain ⟨c, hc, hcv⟩ := Relation.TransGen.head'_iff.1 h
  exact ⟨c, hc, Relation.reflTransGen_iff_eq_or_transGen.1 hcv⟩

/-- What is below one child of a node is not below another. -/
theorem IsWithin.eq_of_siblings {start : Document} (hstart : start.IsForest) {p b c v : NodeId}
    (hb : start.parent b = some p) (hc : start.parent c = some p) (hbv : IsWithin start b v)
    (hcv : IsWithin start c v) : b = c := by
  rcases hbv with rfl | hbv
  · exact hcv.resolve_right (hstart.not_isAbove_of_siblings hc hb)
  · rcases hcv with rfl | hcv
    · exact absurd hbv (hstart.not_isAbove_of_siblings hb hc)
    · rcases Document.isAbove_trichotomy hbv hcv with heq | habove | habove
      · exact heq
      · exact absurd habove (hstart.not_isAbove_of_siblings hb hc)
      · exact absurd habove (hstart.not_isAbove_of_siblings hc hb)

namespace KeepsOnce

variable {start : Document} {I : (NodeId → Prop) → Document → Prop}
  (h : visit.KeepsOnce start I) (hstart : start.IsForest)
include h hstart

omit h in
/-- Over the children of a node, each of which is entered with nothing visited within it. -/
theorem foldl {step : σ × Document → NodeId → σ × Document}
    (hstep : ∀ V s c, I V s.2 → (∀ v, V v → ¬ IsWithin start c v) →
      ∃ V', I V' (step s c).2 ∧ ∀ v, V' v → V v ∨ IsWithin start c v)
    {p : NodeId} {ids : List NodeId} (hids : ∀ c ∈ ids, start.parent c = some p)
    (hnodup : ids.Nodup) {V : NodeId → Prop} {s : σ × Document} (hs : I V s.2)
    (hV : ∀ v, V v → ∀ c ∈ ids, ¬ IsWithin start c v) :
    ∃ V', I V' (ids.foldl step s).2 ∧ ∀ v, V' v → V v ∨ ∃ c ∈ ids, IsWithin start c v := by
  induction ids generalizing V s with
  | nil => exact ⟨V, hs, fun v hv => .inl hv⟩
  | cons c ids ih =>
    obtain ⟨hnotin, hnodup'⟩ := List.nodup_cons.1 hnodup
    have hc := hids c List.mem_cons_self
    have hrest : ∀ b ∈ ids, start.parent b = some p :=
      fun b hb => hids b (List.mem_cons_of_mem c hb)
    obtain ⟨V₁, hI₁, hV₁⟩ := hstep V s c hs fun v hv => hV v hv c List.mem_cons_self
    obtain ⟨V₂, hI₂, hV₂⟩ := ih hrest hnodup' hI₁ fun v hv b hb hbv => by
      rcases hV₁ v hv with hold | hcv
      · exact hV v hold b (List.mem_cons_of_mem c hb) hbv
      · exact hnotin (hbv.eq_of_siblings hstart (hrest b hb) hc hcv ▸ hb)
    refine ⟨V₂, hI₂, fun v hv => ?_⟩
    rcases hV₂ v hv with hv₁ | ⟨b, hb, hbv⟩
    · exact (hV₁ v hv₁).imp_right fun hcv => ⟨c, List.mem_cons_self, hcv⟩
    · exact .inr ⟨b, List.mem_cons_of_mem c hb, hbv⟩

theorem parentsFirst (n : Nat) (parent : NodeId) (V : NodeId → Prop) (s : σ × Document)
    (id : NodeId) (hs : I V s.2) (hV : ∀ v, V v → ¬ IsWithin start id v) :
    ∃ V', I V' (Walk.parentsFirst visit.visitor n parent s id).2 ∧
      ∀ v, V' v → V v ∨ IsWithin start id v := by
  induction n generalizing parent V s id with
  | zero => exact ⟨V, hs, fun v hv => .inl hv⟩
  | succ n ih =>
    by_cases hid : s.2.parent id = some parent
    · rw [Walk.parentsFirst_keep hid (h.keep s.2 id)]
      have hvisited := h.kept V s.2 id parent hs (fun hv => hV id hv (.inl rfl)) hid
      have hchildren : ∀ c ∈ (visit s.2 id).1.children id, start.parent c = some id := by
        intro c hc
        rw [(h.isForest _ _ hvisited).mem_children_iff] at hc
        exact h.parent _ _ c id hvisited hc
      obtain ⟨V', hI, hV'⟩ := foldl hstart (fun V s c hs hV => ih id V s c hs hV) hchildren
        ((h.isForest _ _ hvisited).nodup_children id) (s := (s.1, (visit s.2 id).1)) hvisited
        fun v hv c hc hcv => by
          have habove := hcv.of_child (hchildren c hc)
          rcases hv with hv | rfl
          · exact hV v hv (.inr habove)
          · exact hstart.not_above_self v habove
      refine ⟨V', hI, fun v hv => ?_⟩
      rcases hV' v hv with (hv | rfl) | ⟨c, hc, hcv⟩
      · exact .inl hv
      · exact .inr (.inl rfl)
      · exact .inr (.inr (hcv.of_child (hchildren c hc)))
    · rw [Walk.parentsFirst_away hid]
      exact ⟨V, hs, fun v hv => .inl hv⟩

theorem topDown (hI : I (fun _ => False) start) : ∃ V, I V ((Pass.topDown visit).run start) := by
  obtain ⟨V, hV, -⟩ := foldl hstart
    (fun V (s : Unit × Document) c hs hV =>
      h.parentsFirst hstart (Walk.bound start) Document.root V s c hs hV)
    (fun c hc => (hstart.mem_children_iff Document.root c).1 hc)
    (hstart.nodup_children Document.root) (s := ((), start)) hI fun v hv => hv.elim
  exact ⟨V, hV⟩

end KeepsOnce

/-! ## What one visit brings about -/

/-- Whether a node and the nodes above it are linked as they were. -/
structure KeepsWay (start : Document) (a : NodeId) (d : Document) : Prop where
  isForest : d.IsForest
  parent_eq : ∀ j, IsWithin start j a → d.parent j = start.parent j

namespace KeepsWay

variable {start d : Document} {a : NodeId}

theorem refl (hstart : start.IsForest) (a : NodeId) : KeepsWay start a start :=
  ⟨hstart, fun _ _ => rfl⟩

theorem mem_subtree (h : KeepsWay start a d) (hstart : start.IsForest)
    (ha : a ∈ start.subtree Document.root) : a ∈ d.subtree Document.root :=
  hstart.mem_subtree_of_way_up h.isForest ha fun j hj _ hp =>
    (h.parent_eq j (hj.imp_left Eq.symm)).trans hp

/-- On the way to a node there is a child to go on with. -/
theorem exists_child (h : KeepsWay start a d) {id : NodeId} (hid : start.IsAbove id a) :
    ∃ c ∈ d.children id, start.parent c = some id ∧ IsWithin start c a := by
  obtain ⟨c, hc, hca⟩ := isAbove_iff_exists_child.1 hid
  refine ⟨c, ?_, hc, hca⟩
  rw [h.isForest.mem_children_iff, h.parent_eq c hca, hc]

end KeepsWay

section Reaching

variable {start : Document} {a : NodeId} {R : Document → Prop}

theorem reaches_foldl {step : σ × Document → NodeId → σ × Document} {ids : List NodeId}
    {c : NodeId} (hc : c ∈ ids) (hQ : ∀ s x, Q s.2 → Q (step s x).2)
    (hR : ∀ s x, R s.2 → R (step s x).2) (hstep : ∀ s, Q s.2 → R (step s c).2)
    {s : σ × Document} (hs : Q s.2) : R (ids.foldl step s).2 := by
  obtain ⟨front, back, rfl⟩ := List.append_of_mem hc
  have hfront : Q (front.foldl step s).2 :=
    List.foldlRecOn (motive := fun s : σ × Document => Q s.2) front _ hs fun s hs x _ => hQ s x hs
  rw [List.foldl_append, List.foldl_cons]
  exact List.foldlRecOn (motive := fun s : σ × Document => R s.2) back _ (hstep _ hfront)
    fun s hs x _ => hR s x hs

section Downward

variable {Q : NodeId → Document → Prop} (hstart : start.IsForest)
  (hkeep : ∀ d id, (visit d id).2 = .keep) (hQ : ∀ id, visit.Keeps (Q id)) (hR : visit.Keeps R)
  (hway : ∀ d id, Q id d → KeepsWay start a d)
  (hdown : ∀ d id p c, Q id d → d.parent id = some p → start.IsAbove id a →
    start.parent c = some id → Q c (visit d id).1)
  (hvisit : ∀ d p, Q a d → d.parent a = some p → R (visit d a).1)
include hstart hkeep hQ hR hway hdown hvisit

/-- The induction is on the bound, which never runs out on the way to the node. -/
theorem settles_parentsFirst {n k : Nat} {p id : NodeId} (hid : start.parent id = some p)
    (hk : start.climb k id = some Document.root) (hn : start.size ≤ n + k)
    (hida : IsWithin start id a) (s : σ × Document) (hs : Q id s.2) :
    R (Walk.parentsFirst visit.visitor n p s id).2 := by
  induction n generalizing k p id s with
  | zero =>
    obtain ⟨n, hn⟩ := hstart.exists_succ_of_climb hid hk hn
    cases hn
  | succ n ih =>
    have hparent : s.2.parent id = some p := ((hway s.2 id hs).parent_eq id hida).trans hid
    rw [Walk.parentsFirst_keep hparent (hkeep s.2 id)]
    rcases hida with rfl | habove
    · exact List.foldlRecOn (motive := fun s : σ × Document => R s.2) _ _ (hvisit s.2 p hs hparent)
        fun s hs c _ => hR.parentsFirst n _ s hs c
    · obtain ⟨c, hmem, hc, hca⟩ :=
        (hway _ id ((hQ id).kept s.2 id p hs hparent)).exists_child habove
      have hclimb : start.climb (k + 1) c = some Document.root :=
        (Document.climb_of_parent hc k).trans hk
      exact reaches_foldl hmem (fun s x hs => (hQ c).parentsFirst n id s hs x)
        (fun s x hs => hR.parentsFirst n id s hs x)
        (fun s hs => ih hc hclimb (by omega) hca s hs) (hdown s.2 id p c hs hparent habove hc)

/-- What the visit of a node brings about and other visits keep holds in the end, if the way
to the node stays.  A node is visited when all above it have been. -/
theorem settles_topDown (hroot : start.IsAbove Document.root a)
    (hs : ∀ c, start.parent c = some Document.root → Q c start) :
    R ((Pass.topDown visit).run start) := by
  obtain ⟨c, hmem, hc, hca⟩ := (KeepsWay.refl hstart a).exists_child hroot
  have hclimb : start.climb 1 c = some Document.root := (Document.climb_one c).trans hc
  have hbound : start.size ≤ Walk.bound start + 1 := by
    rw [Walk.bound]
    omega
  exact reaches_foldl (s := ((), start)) hmem (fun s x hs => (hQ c).parentsFirst _ _ s hs x)
    (fun s x hs => hR.parentsFirst _ _ s hs x)
    (fun s hs => settles_parentsFirst hstart hkeep hQ hR hway hdown hvisit hc hclimb hbound hca
      s hs) (hs c hc)

end Downward

/-- The same where nothing is asked of the nodes above. -/
theorem reaches_topDown (hstart : start.IsForest) (hkeep : ∀ d id, (visit d id).2 = .keep)
    (hQ : visit.Keeps Q) (hR : visit.Keeps R) (hway : ∀ d, Q d → KeepsWay start a d)
    (hvisit : ∀ d p, Q d → d.parent a = some p → R (visit d a).1)
    (hroot : start.IsAbove Document.root a) (hs : Q start) :
    R ((Pass.topDown visit).run start) :=
  settles_topDown hstart hkeep (Q := fun _ => Q) (fun _ => hQ) hR (fun d _ => hway d)
    (fun d id p _ hs hp _ _ => hQ.kept d id p hs hp) hvisit hroot fun _ _ => hs

end Reaching

end Visit
end SvgCompact
