import SvgCompact.Proofs.Pass.Editing

/-!
When the pass against hidden elements drops the root element.

It is visited once, and what the pass looks at is at that time what it was in the
beginning: no visit changes an element, and no visit of another node unlinks it.
-/

namespace SvgCompact
namespace Pass

/-- The verdict of `removeHidden` on a node. -/
def hiddenVerdict (d : Document) (id : NodeId) : Verdict :=
  match d.element? id with
  | some e =>
    if isHidden e && !e.hasAttr "id" && !e.isDefinition && !isDefined d id then .drop else .keep
  | none => .keep

def hiddenVisit : Visit := fun d id => (d, hiddenVerdict d id)

theorem removeHidden_eq : removeHidden = .topDown hiddenVisit := by
  unfold removeHidden hiddenVisit hiddenVerdict
  congr 1
  funext d id
  cases d.element? id with
  | none => rfl
  | some e =>
    simp only
    split <;> rfl

/-- Elements are as in `d`, and `p` is the parent of `r`. -/
structure Untouched (P : QName → Prop) (d : Document) (r : NodeId) (p : Option NodeId)
    (d' : Document) : Prop where
  isSound : d'.IsSound P
  element : ∀ j, d'.element? j = d.element? j
  parent : d'.parent r = p

variable {P : QName → Prop} {σ : Type} {d : Document} {r : NodeId} {p : Option NodeId}

theorem Untouched.detach {d' : Document} (h : Untouched P d r p d') (id : NodeId) :
    Untouched P d r (if id = r then none else p) (d'.detach id) := by
  have hedit : Document.Edit P (fun _ => True) d' (d'.detach id) := .detach id fun _ _ => trivial
  refine ⟨h.isSound.edit hedit, fun j => ?_, ?_⟩
  · rw [Document.element?_detach, h.element]
  · rw [Document.parent_detach, h.parent]
    simp only [eq_comm]

/-- A node below the root, or below nothing, is visited only among the children of
the root. -/
theorem untouched_parentsFirst (hp : ∀ q, p = some q → q = Document.root) (n : Nat)
    {parent id : NodeId} (s : σ × Document) (hs : Untouched P d r p s.2)
    (hr : parent = Document.root → id ≠ r) :
    Untouched P d r p (Walk.parentsFirst hiddenVisit.visitor n parent s id).2 := by
  induction n generalizing parent s id with
  | zero => exact hs
  | succ n ih =>
    rw [Walk.parentsFirst]
    split
    · exact hs
    · next hparent =>
      have hid : s.2.parent id = some parent := by simpa using hparent
      have hne : id ≠ r := by
        intro heq
        subst heq
        exact hr (hp parent (hs.parent.symm.trans hid)) rfl
      cases hv : hiddenVerdict s.2 id with
      | drop =>
        simp only [Visit.visitor, hiddenVisit, hv]
        have hdetach := hs.detach id
        rwa [if_neg hne] at hdetach
      | keep =>
        simp only [Visit.visitor, hiddenVisit, hv]
        have hroot : id ≠ Document.root := by
          intro heq
          subst heq
          rw [hs.isSound.parent_root] at hid
          cases hid
        exact List.foldlRecOn (motive := fun s : σ × Document => Untouched P d r p s.2) _ _ hs
          fun s hs c _ => ih s hs fun h => absurd h hroot

theorem untouched_foldl (hp : ∀ q, p = some q → q = Document.root) (n : Nat)
    {children : List NodeId} (hr : r ∉ children) (s : σ × Document) (hs : Untouched P d r p s.2) :
    Untouched P d r p
      (children.foldl (Walk.parentsFirst hiddenVisit.visitor n Document.root) s).2 :=
  List.foldlRecOn (motive := fun s : σ × Document => Untouched P d r p s.2) _ _ hs
    fun s hs _ hc => untouched_parentsFirst hp n s hs fun _ => ne_of_mem_of_not_mem hc hr

theorem not_isDefined (hd : d.IsSound P) (hr : d.parent r = some Document.root) :
    isDefined d r = false := by
  have hancestors : ∀ n, ∀ a ∈ d.ancestorsWithin n r, a = Document.root := by
    intro n a ha
    cases n with
    | zero => cases ha
    | succ n =>
      simp only [Document.ancestorsWithin, hr, List.mem_cons] at ha
      rcases ha with ha | ha
      · exact ha
      · cases n with
        | zero => cases ha
        | succ n => simp [Document.ancestorsWithin, hd.parent_root] at ha
  rw [isDefined]
  refine List.any_eq_false.2 fun a ha => ?_
  rw [hancestors _ a ha, Document.element?, hd.content_root]
  simp [Content.element?]

theorem hiddenVerdict_eq_drop_iff (hd : d.IsSound P) (hr : d.parent r = some Document.root)
    {e : Element} (he : d.element? r = some e) :
    hiddenVerdict d r = .drop ↔ IsDroppable e := by
  unfold hiddenVerdict IsDroppable
  simp [he, not_isDefined hd hr, and_assoc]

/-- The pass drops the root element if and only if it is hidden and nothing makes
it stay. -/
theorem parent_removeHidden_iff (hd : d.IsSound P) (hp : d.parent r = some Document.root)
    {e : Element} (he : d.element? r = some e) :
    (removeHidden.run d).parent r = some Document.root ↔ ¬ IsDroppable e := by
  have hmem := (hd.isForest.mem_children_iff Document.root r).2 hp
  have hnodup := hd.isForest.nodup_children Document.root
  obtain ⟨front, back, hchildren⟩ := List.append_of_mem hmem
  rw [hchildren, List.nodup_append, List.nodup_cons] at hnodup
  have hfront : r ∉ front := fun h => hnodup.2.2 r h r (by simp) rfl
  have hback : r ∉ back := hnodup.2.1.1
  have hbelow : ∀ q, some Document.root = some q → q = Document.root := by
    intro q hq
    exact (Option.some.inj hq).symm
  obtain ⟨n, hn⟩ : ∃ n, Walk.bound d = n + 1 := by
    have hpos : 0 < d.size := hd.size_pos
    refine ⟨2 * d.size - 1, ?_⟩
    rw [Walk.bound]
    omega
  rw [removeHidden_eq, Pass.run, Walk.topDown]
  simp only [hchildren, hn, List.foldl_append, List.foldl_cons]
  have hs := untouched_foldl hbelow (n + 1) hfront ((), d) ⟨hd, fun _ => rfl, hp⟩
  generalize front.foldl (Walk.parentsFirst hiddenVisit.visitor (n + 1) Document.root) ((), d)
    = s at hs
  have hverdict := hiddenVerdict_eq_drop_iff hs.isSound hs.parent ((hs.element r).trans he)
  rw [Walk.parentsFirst, if_neg (not_not.2 hs.parent)]
  cases hv : hiddenVerdict s.2 r with
  | drop =>
    simp only [Visit.visitor, hiddenVisit, hv]
    have hgone := hs.detach r
    rw [if_pos rfl] at hgone
    have hafter := untouched_foldl (p := none) (by simp) (n + 1) hback (s.1, s.2.detach r) hgone
    rw [hafter.parent]
    simp [hverdict.1 hv]
  | keep =>
    have hkeep : ¬ IsDroppable e := by
      rw [← hverdict, hv]
      simp
    simp only [Visit.visitor, hiddenVisit, hv, hkeep, not_false_eq_true, iff_true]
    have hr0 : r ≠ Document.root := by
      intro heq
      subst heq
      rw [hd.parent_root] at hp
      cases hp
    have hinner := List.foldlRecOn
      (motive := fun s : Unit × Document => Untouched P d r (some Document.root) s.2)
      (s.2.children r) (Walk.parentsFirst hiddenVisit.visitor n r) hs
      fun s hs c _ => untouched_parentsFirst hbelow n s hs fun h => absurd h hr0
    exact (untouched_foldl hbelow (n + 1) hback _ hinner).parent

end Pass
end SvgCompact
