import SvgCompact.Proofs.Document.Lineage
import SvgCompact.Proofs.Pass.Editing

/-!
Walks end by themselves.

`Descends` and `Ascends` are the two walks without a bound on how deep they go.  The
bound that walks are given is never what stops them.  An edit moves no node that was
there before further down, and what it adds are texts, which stay leaves; so a walk goes
one level deeper than the document it starts from, at most.
-/

namespace SvgCompact

open Document (Edit Edits)

namespace Document

variable {P : QName → Prop} {drops : Element → Prop} {N b : Nat} {d d' : Document} {id : NodeId}

/-! ## Links that walks can follow -/

/-- Whether links agree in both directions without repetitions and cycles and the root has
no parent, so that the way up and the way down from any node come to an end. -/
structure IsWellLinked (d : Document) : Prop where
  links : ∀ p c, c ∈ d.children p ↔ d.parent c = some p
  nodup : ∀ p, (d.children p).Nodup
  acyclic : ∀ id, ¬ d.IsAbove id id
  parent_root : d.parent root = none
  isConsistent : d.isConsistent = true
  upward : WellFounded fun p c => d.parent c = some p
  downward : WellFounded fun c p => c ∈ d.children p
  ancestors : ∀ id, d.ancestors id = ((d.parent id).map fun p => p :: d.ancestors p).getD []
  subtree : ∀ id, d.subtree id = id :: (d.children id).flatMap d.subtree

theorem IsRooted.isWellLinked (h : d.IsRooted) : d.IsWellLinked where
  links := h.isForest.mem_children_iff
  nodup := h.isForest.nodup_children
  acyclic := h.isForest.not_above_self
  parent_root := h.parent_root
  isConsistent := by
    refine List.all_eq_true.2 fun p _ => List.all_eq_true.2 fun c hc => ?_
    exact beq_iff_eq.2 ((h.isForest.mem_children_iff p c).1 hc)
  upward := ⟨fun id => h.isForest.downward (motive := Acc _) (fun id ih => Acc.intro id ih) id⟩
  downward := ⟨fun id => h.isForest.upward (motive := Acc _) (fun id ih => Acc.intro id ih) id⟩
  ancestors id := by
    cases hp : d.parent id with
    | none => exact ancestors_of_parent_none hp
    | some p => exact h.isForest.ancestors_of_parent hp
  subtree := h.isForest.subtree_eq

/-- Edits one after another, each of a document with the property `Q`. -/
def EditsWithin (Q : Document → Prop) : Document → Document → Prop :=
  Relation.ReflTransGen fun a b => Q a ∧ ∃ P drops, Edit P drops a b

theorem Edits.within {Q : Document → Prop} (h : Edits P drops d d') (hd : d.IsSound P)
    (hQ : ∀ e, e.IsSound P → Q e) : EditsWithin Q d d' := by
  induction h with
  | refl => exact .refl
  | tail hprevious he ih => exact ih.tail ⟨hQ _ (Edits.isSound hprevious hd), P, drops, he⟩

/-! ## How deep a walk can go -/

/-- Whether the nodes from `N` on are leaves that hold no element. -/
structure HasLeavesFrom (N : Nat) (d : Document) : Prop where
  noElement : ∀ j, N ≤ j → d.isElement j = false
  parent_lt : ∀ c p, d.parent c = some p → p < N

/-- Whether `b` levels are enough for a walk that enters `id`, with a level to spare
below each node that was there before. -/
def Fits (N : Nat) (d : Document) : Nat → NodeId → Prop
  | 0, _ => False
  | b + 1, id => N ≤ id ∨ (1 ≤ b ∧ ∀ c, d.parent c = some id → Fits N d b c)

theorem Fits.succ (h : Fits N d b id) : Fits N d (b + 1) id := by
  induction b generalizing id with
  | zero => exact h.elim
  | succ b ih =>
    rcases h with h | ⟨hb, h⟩
    · exact .inl h
    · exact .inr ⟨by omega, fun c hc => ih (h c hc)⟩

/-- No edit links an old node further down. -/
theorem Fits.edit (hd : d.IsForest) (hN : N ≤ d.size) (hleaves : d.HasLeavesFrom N)
    (he : Edit P drops d d') (h : Fits N d b id) : Fits N d' b id := by
  induction b generalizing id with
  | zero => exact h.elim
  | succ b ih =>
    rcases h with h | ⟨hb, h⟩
    · exact .inl h
    · obtain ⟨l, rfl⟩ : ∃ l, b = l + 1 := ⟨b - 1, by omega⟩
      refine .inr ⟨hb, fun c hc => ?_⟩
      cases he.relinked hd c with
      | same hp => exact ih (h c (hp ▸ hc))
      | dropped hp _ => rw [hp] at hc; cases hc
      | replaced hp _ _ _ => rw [hp] at hc; cases hc
      | unwrapped hp _ => rw [hp] at hc; cases hc
      | lifted g p hg hp hcg hcp _ =>
        obtain rfl : p = id := Option.some.inj (hcp.symm.trans hc)
        -- The group between the two is an element, so it is old and its child has a level less.
        have hgroup := isElement_of_isNamed hg
        rcases h g hp with hnew | ⟨-, hbelow⟩
        · rw [hleaves.noElement g hnew] at hgroup
          cases hgroup
        · exact ih (hbelow c hcg).succ
      | added hnew _ _ _ _ => exact .inl (hN.trans hnew)

theorem HasLeavesFrom.edit (h : d.HasLeavesFrom N) (hd : d.IsForest) (he : Edit P drops d d') :
    d'.HasLeavesFrom N where
  noElement j hj := by
    have hold := h.noElement j hj
    rw [isElement] at hold ⊢
    rcases he.content_cases j with hc | ⟨e, e', hc, -, -⟩ | ⟨-, s, hc | hc⟩
    · rw [hc, hold]
    · rw [hc] at hold
      cases hold
    · rw [hc]
      rfl
    · rw [hc]
      rfl
  parent_lt c p hc := by
    cases he.relinked hd c with
    | same hp => exact h.parent_lt c p (hp ▸ hc)
    | dropped hp _ => rw [hp] at hc; cases hc
    | replaced hp _ _ _ => rw [hp] at hc; cases hc
    | unwrapped hp _ => rw [hp] at hc; cases hc
    | lifted g q _ hq _ hcq _ =>
      obtain rfl : q = p := Option.some.inj (hcq.symm.trans hc)
      exact h.parent_lt g q hq
    | added _ q hq hid _ =>
      obtain rfl : q = p := Option.some.inj (hq.symm.trans hc)
      by_contra hle
      rw [h.noElement q (Nat.le_of_not_lt hle)] at hid
      cases hid

/-- What a walk through a document that had `N` nodes relies on. -/
structure IsWalked (P : QName → Prop) (N : Nat) (d : Document) : Prop extends IsSound P d where
  size_le : N ≤ d.size
  leaves : d.HasLeavesFrom N

theorem IsWalked.edits (h : d.IsWalked P N) (he : Edits P drops d d') :
    d'.IsWalked P N ∧ ∀ b id, Fits N d b id → Fits N d' b id := by
  induction he with
  | refl => exact ⟨h, fun _ _ hfits => hfits⟩
  | tail _ he ih =>
    obtain ⟨hwalked, hfits⟩ := ih
    refine ⟨⟨hwalked.toIsSound.edit he, hwalked.size_le.trans he.size_le,
      hwalked.leaves.edit hwalked.isForest he⟩, fun b id hid => ?_⟩
    exact (hfits b id hid).edit hwalked.isForest hwalked.size_le hwalked.leaves he

theorem IsWalked.fits_children (h : d.IsWalked P N) (hid : Fits N d (b + 1) id) :
    ∀ c ∈ d.children id, Fits N d b c := by
  intro c hc
  have hp := (h.isForest.mem_children_iff id c).1 hc
  rcases hid with hnew | ⟨-, hbelow⟩
  · exact absurd (h.leaves.parent_lt c id hp) (Nat.not_lt.2 hnew)
  · exact hbelow c hp

theorem IsSound.isWalked (h : d.IsSound P) : d.IsWalked P d.size where
  toIsSound := h
  size_le := Nat.le_refl _
  leaves := {
    noElement := fun j hj => by
      refine Bool.eq_false_iff.2 fun helement => ?_
      exact absurd (lt_size_of_isElement helement) (Nat.not_lt.2 hj)
    parent_lt := fun c p hc => lt_size_of_mem_children ((h.isForest.mem_children_iff p c).2 hc) }

/-- As many levels as there are nodes are enough. -/
theorem IsSound.fits (h : d.IsSound P) {k : Nat} (hid : id < d.size)
    (hk : d.climb k id = some root) (hb : d.size + 1 ≤ b + k) : Fits d.size d b id := by
  have hlt := h.isForest.lt_size_of_climb hid hk
  induction b generalizing id k with
  | zero => omega
  | succ b ih =>
    refine .inr ⟨by omega, fun c hc => ?_⟩
    have hclimb : d.climb (k + 1) c = some root := (climb_of_parent hc k).trans hk
    have hc' := lt_size_of_parent hc
    exact ih hc' hclimb (by omega) (h.isForest.lt_size_of_climb hc' hclimb)

theorem IsSound.fits_bound (h : d.IsSound P) :
    ∀ c ∈ d.children root, Fits d.size d (Walk.bound d) c := by
  intro c hc
  have hp := (h.isForest.mem_children_iff root c).1 hc
  have hsize := h.size_pos
  exact h.fits (k := 1) (lt_size_of_parent hp) ((climb_one c).trans hp) (by rw [Walk.bound]; omega)

end Document

open Document (EditsWithin IsWalked Fits)

/-! ## Walks without a bound -/

namespace Walk

/-- A walk over some nodes that were children of `parent` when they were listed, parents
before children.  Every visit finds a document with the property `Q`, and so does every
edit that it makes. -/
inductive Descends (Q : Document → Prop) (visit : Visit) :
    NodeId → Document → List NodeId → Document → Prop
  | nil {parent : NodeId} {d : Document} : Descends Q visit parent d [] d
  | away {parent id : NodeId} {ids : List NodeId} {d d' : Document}
      (h : d.parent id ≠ some parent) (rest : Descends Q visit parent d ids d') :
      Descends Q visit parent d (id :: ids) d'
  | drop {parent id : NodeId} {ids : List NodeId} {d d' : Document} (hd : Q d)
      (h : d.parent id = some parent) (hv : (visit d id).2 = .drop)
      (hedits : EditsWithin Q d (visit d id).1)
      (rest : Descends Q visit parent ((visit d id).1.detach id) ids d') :
      Descends Q visit parent d (id :: ids) d'
  | keep {parent id : NodeId} {ids : List NodeId} {d d₁ d' : Document} (hd : Q d)
      (h : d.parent id = some parent) (hv : (visit d id).2 = .keep)
      (hedits : EditsWithin Q d (visit d id).1)
      (below : Descends Q visit id (visit d id).1 ((visit d id).1.children id) d₁)
      (rest : Descends Q visit parent d₁ ids d') :
      Descends Q visit parent d (id :: ids) d'

/-- The same with children before parents. -/
inductive Ascends (Q : Document → Prop) (visit : Visit) :
    NodeId → Document → List NodeId → Document → Prop
  | nil {parent : NodeId} {d : Document} : Ascends Q visit parent d [] d
  | away {parent id : NodeId} {ids : List NodeId} {d d₁ d' : Document}
      (below : Ascends Q visit id d (d.children id) d₁) (h : d₁.parent id ≠ some parent)
      (rest : Ascends Q visit parent d₁ ids d') :
      Ascends Q visit parent d (id :: ids) d'
  | drop {parent id : NodeId} {ids : List NodeId} {d d₁ d' : Document}
      (below : Ascends Q visit id d (d.children id) d₁) (hd : Q d₁)
      (h : d₁.parent id = some parent) (hv : (visit d₁ id).2 = .drop)
      (hedits : EditsWithin Q d₁ (visit d₁ id).1)
      (rest : Ascends Q visit parent ((visit d₁ id).1.detach id) ids d') :
      Ascends Q visit parent d (id :: ids) d'
  | keep {parent id : NodeId} {ids : List NodeId} {d d₁ d' : Document}
      (below : Ascends Q visit id d (d.children id) d₁) (hd : Q d₁)
      (h : d₁.parent id = some parent) (hv : (visit d₁ id).2 = .keep)
      (hedits : EditsWithin Q d₁ (visit d₁ id).1)
      (rest : Ascends Q visit parent (visit d₁ id).1 ids d') :
      Ascends Q visit parent d (id :: ids) d'

end Walk

/-- Whether a pass leads from one document to another in finitely many steps, each from a
document with the property `Q`. -/
def Pass.Ends (Q : Document → Prop) (pass : Pass) (d d' : Document) : Prop :=
  match pass with
  | .whole f => d' = f d ∧ Q d ∧ EditsWithin Q d d'
  | .topDown visit => Walk.Descends Q visit Document.root d (d.children Document.root) d'
  | .bottomUp visit => Walk.Ascends Q visit Document.root d (d.children Document.root) d'

/-! ## The bound is never reached -/

namespace Visit.IsEditing

variable {P : QName → Prop} {drops : Element → Prop} {visit : Visit} {Q : Document → Prop}
  {σ : Type} {N : Nat}

theorem descends (h : visit.IsEditing P drops) (hQ : ∀ d, d.IsSound P → Q d) (b : Nat)
    (parent : NodeId) (ids : List NodeId) (s : σ × Document) (hs : s.2.IsWalked P N)
    (hfits : ∀ id ∈ ids, Fits N s.2 b id) :
    Walk.Descends Q visit parent s.2 ids
      (ids.foldl (Walk.parentsFirst visit.visitor b parent) s).2 := by
  induction b generalizing parent ids s with
  | zero =>
    cases ids with
    | nil => exact .nil
    | cons id rest => exact (hfits id (List.mem_cons_self ..)).elim
  | succ b ihb =>
    induction ids generalizing s with
    | nil => exact .nil
    | cons id rest ih =>
      have hid := hfits id (List.mem_cons_self ..)
      obtain ⟨hs', hfits'⟩ := hs.edits (h.parentsFirst (b + 1) parent s hs.toIsSound id)
      have hrest := ih (Walk.parentsFirst visit.visitor (b + 1) parent s id) hs'
        fun c hc => hfits' _ c (hfits c (List.mem_cons_of_mem id hc))
      rw [List.foldl_cons]
      by_cases hp : s.2.parent id = some parent
      · have hvisit := h.edits s.2 id hs.toIsSound
        have hwithin := hvisit.within hs.toIsSound hQ
        cases hv : (visit s.2 id).2 with
        | drop =>
          rw [Walk.parentsFirst_drop hp hv] at hrest ⊢
          exact .drop (hQ _ hs.toIsSound) hp hv hwithin hrest
        | keep =>
          obtain ⟨hwalked, hstill⟩ := hs.edits hvisit
          rw [Walk.parentsFirst_keep hp hv] at hrest ⊢
          exact .keep (hQ _ hs.toIsSound) hp hv hwithin
            (ihb id _ (s.1, (visit s.2 id).1) hwalked
              (hwalked.fits_children (hstill _ id hid))) hrest
      · rw [Walk.parentsFirst_away hp] at hrest ⊢
        exact .away hp hrest

theorem ascends (h : visit.IsEditing P drops) (hQ : ∀ d, d.IsSound P → Q d) (b : Nat)
    (parent : NodeId) (ids : List NodeId) (s : σ × Document) (hs : s.2.IsWalked P N)
    (hfits : ∀ id ∈ ids, Fits N s.2 b id) :
    Walk.Ascends Q visit parent s.2 ids
      (ids.foldl (Walk.childrenFirst visit.visitor b parent) s).2 := by
  induction b generalizing parent ids s with
  | zero =>
    cases ids with
    | nil => exact .nil
    | cons id rest => exact (hfits id (List.mem_cons_self ..)).elim
  | succ b ihb =>
    induction ids generalizing s with
    | nil => exact .nil
    | cons id rest ih =>
      have hid := hfits id (List.mem_cons_self ..)
      obtain ⟨hs', hfits'⟩ := hs.edits (h.childrenFirst (b + 1) parent s hs.toIsSound id)
      have hrest := ih (Walk.childrenFirst visit.visitor (b + 1) parent s id) hs'
        fun c hc => hfits' _ c (hfits c (List.mem_cons_of_mem id hc))
      have hbelow := ihb id (s.2.children id) s hs (hs.fits_children hid)
      have ht' : Edits P drops s.2
          ((s.2.children id).foldl (Walk.childrenFirst visit.visitor b id) s).2 :=
        Edits.foldl_view (fun s : σ × Document => s.2)
          (fun s hs c _ => h.childrenFirst b id s hs c) hs.toIsSound
      generalize ht : (s.2.children id).foldl (Walk.childrenFirst visit.visitor b id) s = t
        at hbelow ht'
      have hsound := ht'.isSound hs.toIsSound
      rw [List.foldl_cons]
      by_cases hp : t.2.parent id = some parent
      · have hwithin := (h.edits t.2 id hsound).within hsound hQ
        cases hv : (visit t.2 id).2 with
        | drop =>
          rw [Walk.childrenFirst_drop ht hp hv] at hrest ⊢
          exact .drop hbelow (hQ _ hsound) hp hv hwithin hrest
        | keep =>
          rw [Walk.childrenFirst_keep ht hp hv] at hrest ⊢
          exact .keep hbelow (hQ _ hsound) hp hv hwithin hrest
      · rw [Walk.childrenFirst_away ht hp] at hrest ⊢
        exact .away hbelow hp hrest

end Visit.IsEditing

theorem Pass.IsStepwise.ends {P : QName → Prop} {drops : Element → Prop} {pass : Pass}
    {Q : Document → Prop} {d : Document} (h : pass.IsStepwise P drops) (hQ : ∀ d, d.IsSound P → Q d)
    (hd : d.IsSound P) : pass.Ends Q d (pass.run d) := by
  cases pass with
  | whole f => exact ⟨rfl, hQ d hd, Document.Edits.within (h d hd) hd hQ⟩
  | topDown visit =>
    exact Visit.IsEditing.descends h hQ _ _ _ ((), d) hd.isWalked hd.fits_bound
  | bottomUp visit =>
    exact Visit.IsEditing.ascends h hQ _ _ _ ((), d) hd.isWalked hd.fits_bound

end SvgCompact
