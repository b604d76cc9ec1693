import SvgCompact.Proofs.Pass.Walks

/-!
The visits of a walk, one after the other.

A visitor that also notes its visits walks as it did before.  What it notes is a run: each
visit takes the document where the one before has left it, and a node that is dropped is
unlinked in between.  So what a visit keeps holds along the whole walk.
-/

namespace SvgCompact

/-- A visit of a node, with the document before and after it. -/
structure Moment where
  found : Document
  id : NodeId
  left : Document
  verdict : Verdict

namespace Moment

/-- The document that the next visit finds. -/
def after (m : Moment) : Document :=
  match m.verdict with
  | .drop => m.left.detach m.id
  | .keep => m.left

/-- The nodes that are dropped, in order. -/
def dropped (ms : List Moment) : List NodeId :=
  (ms.filter (·.verdict == .drop)).map (·.id)

end Moment

namespace Visitor

variable {σ : Type}

def moment (visit : Visitor σ) (s : σ × Document) (id : NodeId) : Moment :=
  ⟨s.2, id, (visit s id).1.2, (visit s id).2⟩

/-- A visit of a node, which is unlinked if it is dropped. -/
def settle (visit : Visitor σ) (s : σ × Document) (id : NodeId) : σ × Document :=
  ((visit s id).1.1, (visit.moment s id).after)

/-- The same visitor with a list of its visits. -/
def noting (visit : Visitor σ) : Visitor (σ × List Moment) := fun s id =>
  let t := visit (s.1.1, s.2) id
  (((t.1.1, s.1.2 ++ [visit.moment (s.1.1, s.2) id]), t.1.2), t.2)

theorem settle_of_keep {visit : Visitor σ} {s : σ × Document} {id : NodeId}
    (h : (visit s id).2 = .keep) : visit.settle s id = (visit s id).1 := by
  rw [settle, Moment.after, moment, h]

theorem settle_of_drop {visit : Visitor σ} {s : σ × Document} {id : NodeId}
    (h : (visit s id).2 = .drop) :
    visit.settle s id = ((visit s id).1.1, (visit s id).1.2.detach id) := by
  rw [settle, Moment.after, moment, h]

theorem settle_noting (visit : Visitor σ) (s : (σ × List Moment) × Document) (id : NodeId) :
    visit.noting.settle s id =
      (((visit.settle (s.1.1, s.2) id).1, s.1.2 ++ [visit.moment (s.1.1, s.2) id]),
        (visit.settle (s.1.1, s.2) id).2) := rfl

end Visitor

namespace Walk

open Visitor

/-- The states of a visitor that notes its visits. -/
abbrev Noted (σ : Type) := (σ × List Moment) × Document

variable {σ : Type} {visit : Visitor σ} {n : Nat} {parent id : NodeId} {s t u : σ × Document}

/-! ## One node -/

theorem parentsFirst_of_ne (h : s.2.parent id ≠ some parent) :
    parentsFirst visit (n + 1) parent s id = s := by
  rw [parentsFirst, if_pos h]

theorem parentsFirst_of_drop (h : s.2.parent id = some parent) (hv : (visit s id).2 = .drop) :
    parentsFirst visit (n + 1) parent s id = visit.settle s id := by
  rw [parentsFirst, if_neg fun hne => hne h, settle_of_drop hv]
  rcases hvisit : visit s id with ⟨u, verdict⟩
  rw [hvisit] at hv
  cases hv
  rfl

theorem parentsFirst_of_keep (h : s.2.parent id = some parent) (hv : (visit s id).2 = .keep) :
    parentsFirst visit (n + 1) parent s id =
      ((visit.settle s id).2.children id).foldl (parentsFirst visit n id) (visit.settle s id) := by
  rw [parentsFirst, if_neg fun hne => hne h, settle_of_keep hv]
  rcases hvisit : visit s id with ⟨u, verdict⟩
  rw [hvisit] at hv
  cases hv
  rfl

theorem childrenFirst_of_ne
    (ht : (s.2.children id).foldl (childrenFirst visit n id) s = t)
    (h : t.2.parent id ≠ some parent) : childrenFirst visit (n + 1) parent s id = t := by
  rw [childrenFirst, ht, if_pos h]

theorem childrenFirst_of_parent
    (ht : (s.2.children id).foldl (childrenFirst visit n id) s = t)
    (h : t.2.parent id = some parent) :
    childrenFirst visit (n + 1) parent s id = visit.settle t id := by
  rw [childrenFirst, ht, if_neg fun hne => hne h]
  rcases hvisit : visit t id with ⟨u, _ | _⟩
  · rw [settle_of_keep (by rw [hvisit]), hvisit]
  · rw [settle_of_drop (by rw [hvisit]), hvisit]

/-! ## Runs -/

/-- Visits of nodes with a parent, each of what the one before has left. -/
inductive Run (visit : Visitor σ) : σ × Document → List Moment → σ × Document → Prop
  | nil (s : σ × Document) : Run visit s [] s
  | cons {s t : σ × Document} {id p : NodeId} {ms : List Moment} (hparent : s.2.parent id = some p)
    (hrest : Run visit (visit.settle s id) ms t) : Run visit s (visit.moment s id :: ms) t

namespace Run

variable {ms ms' : List Moment}

theorem single {p : NodeId} (hparent : s.2.parent id = some p) :
    Run visit s [visit.moment s id] (visit.settle s id) :=
  .cons hparent (.nil _)

theorem append (h : Run visit s ms t) (h' : Run visit t ms' u) : Run visit s (ms ++ ms') u := by
  induction h with
  | nil => exact h'
  | cons hparent _ ih => exact .cons hparent (ih h')

/-- A run goes through the documents of each of its visits. -/
theorem split {front back : List Moment} {m : Moment}
    (h : Run visit s (front ++ m :: back) t) :
    ∃ u p, Run visit s front u ∧ m = visit.moment u m.id ∧ u.2.parent m.id = some p ∧
      Run visit (visit.settle u m.id) back t := by
  induction front generalizing s with
  | nil =>
    cases h with
    | cons hparent hrest => exact ⟨s, _, .nil s, rfl, hparent, hrest⟩
  | cons m' front ih =>
    cases h with
    | cons hparent hrest =>
      obtain ⟨u, p, hfront, hm⟩ := ih hrest
      exact ⟨u, p, .cons hparent hfront, hm⟩

/-- What every visit keeps holds after a run. -/
theorem keeps {Q : Document → Prop} (hQ : ∀ s id p, Q s.2 → s.2.parent id = some p →
    Q (visit.settle s id).2) (h : Run visit s ms t) (hs : Q s.2) : Q t.2 := by
  induction h with
  | nil => exact hs
  | cons hparent _ ih => exact ih (hQ _ _ _ hs hparent)

end Run

/-! ## What is noted -/

/-- Whether the noting visitor goes from a state where the visitor itself goes, and adds
a run. -/
def Notes (visit : Visitor σ) (s t' : Noted σ) (t : σ × Document) : Prop :=
  ∃ ms, t' = ((t.1, s.1.2 ++ ms), t.2) ∧ Run visit (s.1.1, s.2) ms t

theorem notes_refl (visit : Visitor σ) (s : Noted σ) :
    Notes visit s s (s.1.1, s.2) :=
  ⟨[], by rw [List.append_nil], .nil _⟩

theorem Notes.trans {s t' u' : Noted σ} (h : Notes visit s t' t)
    (h' : Notes visit t' u' u) : Notes visit s u' u := by
  obtain ⟨ms, rfl, hrun⟩ := h
  obtain ⟨ms', rfl, hrun'⟩ := h'
  exact ⟨ms ++ ms', by rw [List.append_assoc], hrun.append hrun'⟩

theorem notes_settle (visit : Visitor σ) {s : Noted σ} {p : NodeId}
    (hparent : s.2.parent id = some p) :
    Notes visit s (visit.noting.settle s id) (visit.settle (s.1.1, s.2) id) :=
  ⟨_, settle_noting visit s id, .single hparent⟩

theorem notes_foldl {step' : Noted σ → NodeId → Noted σ}
    {step : σ × Document → NodeId → σ × Document}
    (hstep : ∀ s c, Notes visit s (step' s c) (step (s.1.1, s.2) c))
    (cs : List NodeId) (s : Noted σ) :
    Notes visit s (cs.foldl step' s) (cs.foldl step (s.1.1, s.2)) := by
  induction cs generalizing s with
  | nil => exact notes_refl visit s
  | cons c cs ih =>
    have hfirst := hstep s c
    have hrest := ih (step' s c)
    have hstate : ((step' s c).1.1, (step' s c).2) = step (s.1.1, s.2) c := by
      obtain ⟨ms, hms, -⟩ := hfirst
      rw [hms]
    rw [hstate] at hrest
    exact hfirst.trans hrest

theorem notes_parentsFirst (visit : Visitor σ) (n : Nat) (parent : NodeId)
    (s : Noted σ) (id : NodeId) :
    Notes visit s (parentsFirst visit.noting n parent s id)
      (parentsFirst visit n parent (s.1.1, s.2) id) := by
  induction n generalizing parent s id with
  | zero => exact notes_refl visit s
  | succ n ih =>
    by_cases hparent : s.2.parent id = some parent
    · have hsettle := notes_settle visit hparent
      have hsame : (visit (s.1.1, s.2) id).2 = (visit.noting s id).2 := rfl
      cases hv : (visit.noting s id).2 with
      | drop =>
        rw [parentsFirst_of_drop hparent hv,
          parentsFirst_of_drop (s := (s.1.1, s.2)) hparent (hsame.trans hv)]
        exact hsettle
      | keep =>
        rw [parentsFirst_of_keep hparent hv,
          parentsFirst_of_keep (s := (s.1.1, s.2)) hparent (hsame.trans hv)]
        exact hsettle.trans (notes_foldl (fun s c => ih id s c) _ _)
    · rw [parentsFirst_of_ne hparent, parentsFirst_of_ne (s := (s.1.1, s.2)) hparent]
      exact notes_refl visit s

theorem notes_childrenFirst (visit : Visitor σ) (n : Nat) (parent : NodeId)
    (s : Noted σ) (id : NodeId) :
    Notes visit s (childrenFirst visit.noting n parent s id)
      (childrenFirst visit n parent (s.1.1, s.2) id) := by
  induction n generalizing parent s id with
  | zero => exact notes_refl visit s
  | succ n ih =>
    have hbelow := notes_foldl (fun s c => ih id s c) (s.2.children id) s
    generalize ht' : (s.2.children id).foldl (childrenFirst visit.noting n id) s = t' at hbelow
    generalize ht : (s.2.children id).foldl (childrenFirst visit n id) (s.1.1, s.2) = t at hbelow
    have hstate : (t'.1.1, t'.2) = t := by
      obtain ⟨ms, hms, -⟩ := hbelow
      rw [hms]
    have hdocument : t'.2 = t.2 := congrArg Prod.snd hstate
    by_cases hparent : t'.2.parent id = some parent
    · have hsettle := notes_settle visit hparent
      rw [hstate] at hsettle
      rw [childrenFirst_of_parent ht' hparent,
        childrenFirst_of_parent (s := (s.1.1, s.2)) ht (hdocument ▸ hparent)]
      exact hbelow.trans hsettle
    · rw [childrenFirst_of_ne ht' hparent,
        childrenFirst_of_ne (s := (s.1.1, s.2)) ht (hdocument ▸ hparent)]
      exact hbelow

/-! ## Whole walks -/

/-- The state and the visits of a walk from the top down. -/
def topDownNoted (visit : Visitor σ) (s : σ × Document) : Noted σ :=
  topDown visit.noting ((s.1, []), s.2)

def bottomUpNoted (visit : Visitor σ) (s : σ × Document) : Noted σ :=
  bottomUp visit.noting ((s.1, []), s.2)

def topDownVisits (visit : Visitor σ) (s : σ × Document) : List Moment :=
  (topDownNoted visit s).1.2

def bottomUpVisits (visit : Visitor σ) (s : σ × Document) : List Moment :=
  (bottomUpNoted visit s).1.2

theorem notes_topDown (visit : Visitor σ) (s : σ × Document) :
    Notes visit ((s.1, []), s.2) (topDownNoted visit s) (topDown visit s) :=
  notes_foldl (fun s c => notes_parentsFirst visit _ Document.root s c) _ _

theorem notes_bottomUp (visit : Visitor σ) (s : σ × Document) :
    Notes visit ((s.1, []), s.2) (bottomUpNoted visit s) (bottomUp visit s) :=
  notes_foldl (fun s c => notes_childrenFirst visit _ Document.root s c) _ _

theorem run_topDown (visit : Visitor σ) (s : σ × Document) :
    Run visit s (topDownVisits visit s) (topDown visit s) := by
  obtain ⟨ms, hms, hrun⟩ := notes_topDown visit s
  rw [topDownVisits, hms]
  exact hrun

theorem run_bottomUp (visit : Visitor σ) (s : σ × Document) :
    Run visit s (bottomUpVisits visit s) (bottomUp visit s) := by
  obtain ⟨ms, hms, hrun⟩ := notes_bottomUp visit s
  rw [bottomUpVisits, hms]
  exact hrun

/-- To note visits changes no document. -/
theorem snd_topDownNoted (visit : Visitor σ) (s : σ × Document) :
    (topDownNoted visit s).2 = (topDown visit s).2 := by
  obtain ⟨ms, hms, -⟩ := notes_topDown visit s
  rw [hms]

theorem snd_bottomUpNoted (visit : Visitor σ) (s : σ × Document) :
    (bottomUpNoted visit s).2 = (bottomUp visit s).2 := by
  obtain ⟨ms, hms, -⟩ := notes_bottomUp visit s
  rw [hms]

end Walk
end SvgCompact
