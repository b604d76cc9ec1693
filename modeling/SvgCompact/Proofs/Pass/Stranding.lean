import SvgCompact.Proofs.Document.Branches
import SvgCompact.Proofs.Pass.Departing

/-!
Which visits find a node that has left the document.

A node that is visited from the bottom up is still linked to its parent, so it is cut off
only where a node further up was unlinked.  No node further up was dropped, since those are
visited later.  So it was unlinked as a next sibling, with the visited node below it.
-/

namespace SvgCompact

open Document (root)

variable {σ : Type} {d : Document}

namespace Walk

variable {visit : Visitor σ} (h : visit.UnlinksNext)

namespace Run

variable {s t : σ × Document} {ms : List Moment} {m : Moment} {b : NodeId}

include h in
/-- What is unlinked stands beside the visited node. -/
theorem isAbove_of_unlinks (hs : s.2.IsForest) (hrun : Run visit s ms t) (hm : m ∈ ms)
    (hroot : s.2.IsAbove root m.id) (hb : m.Unlinks b) : s.2.IsAbove root b := by
  have hfound := (hrun.losesLinks_left h hs hm).1
  obtain ⟨front, back, rfl⟩ := List.append_of_mem hm
  obtain ⟨u, p, hfront, hmoment, hparent, -⟩ := hrun.split
  have hdocument : m.found = u.2 := congrArg Moment.found hmoment
  rw [hdocument] at hfound
  rw [hmoment] at hb
  have hsibling := hfound.isForest.parent_of_nextSibling? hparent (h.nextSibling?_of_unlinks hb)
  rw [Document.isAbove_iff_of_parent (hfound.parent_of_some hs hparent)] at hroot
  exact (Document.isAbove_iff_of_parent (hfound.parent_of_some hs hsibling.1)).2 hroot

end Run

/-! ## The way up from a visited node -/

/-- What holds of two visits, the first of which comes before the second in a walk from the
bottom up. -/
structure Comes (d : Document) (m' m : Moment) : Prop where
  not_isAbove : ¬ d.IsAbove m'.id m.id
  isForest : m'.left.IsForest
  losesLinks : m'.left.LosesLinks m.found
  isAbove_root : ∀ b, m'.Unlinks b → d.IsAbove root b

section BottomUp

variable (hd : d.IsForest) {t : σ} {front back : List Moment} {m : Moment}
  (hup : bottomUpVisits visit (t, d) = front ++ m :: back)
include h hd hup

/-- A node is visited while it is linked, and after what is below it. -/
theorem moment_of_bottomUp : d.LosesLinks m.found ∧ m.found.parent m.id ≠ none ∧
    d.IsAbove root m.id ∧ ∀ m' ∈ front, Comes d m' m := by
  have hrun := run_bottomUp visit (t, d)
  have hpairwise := (ordered_bottomUp h hd t).1.pairwise
  have hroot := (ordered_bottomUp h hd t).2
  rw [← bottomUpVisits] at hpairwise
  rw [hup] at hrun hpairwise hroot
  obtain ⟨u, p, hfront, hmoment, hparent, -⟩ := hrun.split
  have hdocument : m.found = u.2 := congrArg Moment.found hmoment
  rw [hdocument]
  refine ⟨hfront.losesLinks h hd, ?_, hroot m (by simp), fun m' hm' => ?_⟩
  · rw [hparent]
    exact Option.some_ne_none p
  · have hloses := hfront.losesLinks_left h hd hm'
    rw [← hdocument] at hloses
    exact ⟨(List.pairwise_append.1 hpairwise).2.2 m' hm' m List.mem_cons_self,
      hloses.2.1.isForest, hloses.2.2, fun b hb =>
        hfront.isAbove_of_unlinks h hd hm' (hroot m' (List.mem_append_left _ hm')) hb⟩

/-- A link above a visited node is lost only if its node was unlinked as a sibling. -/
theorem unlinks_of_parent_none {a : NodeId} (ha : d.IsAbove a m.id) (hroot : d.IsAbove root a)
    (hnone : m.found.parent a = none) : ∃ m' ∈ front, m'.Unlinks a := by
  have hrun := run_bottomUp visit (t, d)
  rw [hup] at hrun
  obtain ⟨u, p, hfront, hmoment, -, -⟩ := hrun.split
  have hdocument : m.found = u.2 := congrArg Moment.found hmoment
  rw [hdocument] at hnone
  have hlinked : d.parent a ≠ none := by
    obtain ⟨q, -, hq⟩ := Relation.TransGen.tail'_iff.1 hroot
    rw [hq]
    exact Option.some_ne_none q
  obtain ⟨m', hm', hlost | rfl⟩ := hfront.exists_of_parent_none h hd hlinked hnone
  · exact ⟨m', hm', hlost⟩
  · exact absurd ha ((moment_of_bottomUp h hd hup).2.2.2 m' hm').not_isAbove

theorem isReached_iff_of_bottomUp :
    m.IsReached ↔ ∀ m' ∈ front, ∀ b, m'.Unlinks b → ¬ d.IsAbove b m.id := by
  obtain ⟨hfound, hlinked, hroot, hfront⟩ := moment_of_bottomUp h hd hup
  rw [Moment.IsReached, hfound.mem_subtree_root_iff hd,
    and_iff_right (hd.mem_subtree_iff.2 (.inr hroot))]
  constructor
  · intro hway m' hm' b hb habove
    have hcomes := hfront m' hm'
    exact hway b (.inr habove) (hcomes.isAbove_root b hb)
      (hcomes.losesLinks.parent_eq_none hcomes.isForest hb.2)
  · intro hnone a ha haroot hlost
    rcases ha with rfl | ha
    · exact hlinked hlost
    · obtain ⟨m', hm', hb⟩ := unlinks_of_parent_none h hd hup ha haroot hlost
      exact hnone m' hm' a hb ha

/-- Where no unlinked sibling has children, the way up is kept link by link: a node that is
linked to its parent keeps that from being unlinked. -/
theorem isReached_of_childless
    (hnone : ∀ m' ∈ front, ∀ b, m'.Unlinks b → m'.left.children b = []) : m.IsReached := by
  obtain ⟨hfound, hlinked, hroot, hfront⟩ := moment_of_bottomUp h hd hup
  rw [Moment.IsReached, hfound.mem_subtree_root_iff hd,
    and_iff_right (hd.mem_subtree_iff.2 (.inr hroot))]
  have hparent : ∀ {a c : NodeId}, d.parent c = some a → m.found.parent c ≠ none →
      d.IsAbove a m.id → d.IsAbove root a → m.found.parent a ≠ none := by
    intro a c hc hkept ha haroot hlost
    obtain ⟨m', hm', hb⟩ := unlinks_of_parent_none h hd hup ha haroot hlost
    obtain ⟨q, hq⟩ := Option.ne_none_iff_exists'.1 hkept
    obtain rfl : q = a := Option.some.inj ((hfound.parent_of_some hd hq).symm.trans hc)
    have hcomes := hfront m' hm'
    have hchild := (hcomes.isForest.mem_children_iff q c).2
      (hcomes.losesLinks.parent_of_some hcomes.isForest hq)
    rw [hnone m' hm' q hb] at hchild
    cases hchild
  rintro a (rfl | ha)
  · exact fun _ => hlinked
  · induction ha using Relation.TransGen.head_induction_on with
    | single hp => exact hparent hp hlinked (Document.isAbove_of_parent hp)
    | @head a c hp hcm ih =>
      intro haroot
      exact hparent hp (ih (haroot.tail hp)) (.head hp hcm) haroot

end BottomUp

/-! ## What is below an unlinked sibling -/

/-- Whether a node was visited that could not be reached. -/
def IsStranded (s : Noted σ) : Prop :=
  ∃ m ∈ s.1.2, ¬ m.IsReached

/-- Whether a node was visited that could not be reached if a sibling with children was
unlinked. -/
def Strands (s : Noted σ) : Prop :=
  ∀ m ∈ s.1.2, ∀ b, m.Unlinks b → m.left.children b ≠ [] → IsStranded s

/-- Whether an unlinked node with children is still to come, and nodes that are unlinked as
well before it. -/
def Awaits (cs : List NodeId) (s : Noted σ) : Prop :=
  ∃ before b after c, cs = before ++ b :: after ∧ (∀ x ∈ before, s.2.parent x = none) ∧
    s.2.parent b = none ∧ s.2.parent c = some b

theorem Notes.isStranded {s t' : Noted σ} {t : σ × Document}
    (hnotes : Notes visit s t' t) (hs : IsStranded s) : IsStranded t' := by
  obtain ⟨ms, rfl, -⟩ := hnotes
  obtain ⟨m, hm, hstranded⟩ := hs
  exact ⟨m, List.mem_append_left _ hm, hstranded⟩

theorem IsStranded.strands {s : Noted σ} (hs : IsStranded s) : Strands s :=
  fun _ _ _ _ _ => hs

/-- In a list without repetition, what comes right behind a node comes behind it in any
longer list, and only what the shorter list leaves out comes in between. -/
theorem exists_between {α : Type} {front back done cs : List α} {a b : α}
    (hsub : (front ++ a :: b :: back).Sublist (done ++ a :: cs))
    (hnodup : (done ++ a :: cs).Nodup) :
    ∃ before after, cs = before ++ b :: after ∧ ∀ x ∈ before, x ∉ front ++ a :: b :: back := by
  obtain ⟨r₁, r₂, hsplit, hfront, hrest⟩ := List.append_sublist_iff.1 hsub
  obtain ⟨r₃, r₄, rfl, ha, hbehind⟩ := List.cons_sublist_iff.1 hrest
  obtain ⟨r₅, r₆, rfl⟩ := List.append_of_mem ha
  obtain ⟨r₇, r₈, rfl, hb, hback⟩ := List.cons_sublist_iff.1 hbehind
  obtain ⟨r₉, r₁₀, rfl⟩ := List.append_of_mem hb
  have hnotin : a ∉ done ∧ a ∉ cs := by
    have hmiddle := List.nodup_middle.1 hnodup
    rw [List.nodup_cons, List.mem_append, not_or] at hmiddle
    exact hmiddle.1
  have hplaces : done ++ a :: cs = (r₁ ++ r₅) ++ a :: (r₆ ++ r₉ ++ b :: (r₁₀ ++ r₈)) := by
    rw [hsplit]
    simp only [List.append_assoc, List.cons_append]
  obtain ⟨rfl, -, rfl⟩ := (List.append_cons_inj_of_notMem hnotin.1 hnotin.2).1 hplaces
  refine ⟨r₆ ++ r₉, r₁₀ ++ r₈, rfl, fun x hx hmem => ?_⟩
  have hout : x ∉ r₁ ∧ x ≠ a ∧ x ≠ b ∧ x ∉ r₈ := by
    simp only [List.nodup_append, List.nodup_cons, List.mem_append, List.mem_cons] at hnodup hx
    grind
  rcases List.mem_append.1 hmem with hmem | hmem
  · exact hout.1 (hfront.subset hmem)
  · rcases List.mem_cons.1 hmem with rfl | hmem
    · exact hout.2.1 rfl
    · rcases List.mem_cons.1 hmem with rfl | hmem
      · exact hout.2.2.1 rfl
      · exact hout.2.2.2 (hback.subset hmem)

section Fuel

variable (hd : d.IsForest)
include h hd

/-- Below an unlinked node the first child is visited. -/
theorem isStranded_childrenFirst {n k : Nat} {q b c : NodeId} {s : Noted σ}
    (hb : d.parent b = some q) (hk : d.climb k b = some root) (hn : d.size ≤ n + k)
    (hroot : d.IsAbove root b) (hs : d.LosesLinks s.2) (hnone : s.2.parent b = none)
    (hc : s.2.parent c = some b) : IsStranded (childrenFirst visit.noting n q s b) := by
  obtain ⟨n, rfl⟩ := hd.exists_succ_of_climb hb hk hn
  rw [childrenFirst_of_unlinked h.noting hd hs hnone]
  cases hchildren : s.2.children b with
  | nil =>
    rw [← hs.isForest.mem_children_iff, hchildren] at hc
    cases hc
  | cons c cs =>
    have hlinked : s.2.parent c = some b := by
      rw [← hs.isForest.mem_children_iff, hchildren]
      exact List.mem_cons_self
    have hc := hs.parent_of_some hd hlinked
    obtain ⟨n, rfl⟩ := hd.exists_succ_of_climb hc ((Document.climb_of_parent hc k).trans hk)
      (n := n) (by omega)
    rw [List.foldl_cons]
    refine (notes_foldl (fun s c => notes_childrenFirst visit _ b s c) cs _).isStranded ?_
    have hbelow := losesBelow_children h.noting hd n c hs
    generalize ht : (s.2.children c).foldl (childrenFirst visit.noting n c) s = t at hbelow
    have hparent : t.2.parent c = some b :=
      (hbelow.parent_eq c (hd.not_above_self c)).trans hlinked
    have ht' := hs.trans hbelow.toLosesLinks
    rw [childrenFirst_of_parent ht hparent, IsStranded, Visitor.settle_noting]
    refine ⟨visit.moment (t.1.1, t.2) c, List.mem_append_right _ List.mem_cons_self, ?_⟩
    intro hreached
    have hway := ((ht'.mem_subtree_root_iff hd).1 hreached).2
    exact hway b (.inr (Document.isAbove_of_parent hc)) hroot
      (hbelow.parent_eq_none hs.isForest hnone)

/-- Until the unlinked node comes, what is below it stays as it is. -/
theorem awaits_childrenFirst {n k : Nat} {q x : NodeId} {cs : List NodeId}
    {s : Noted σ} (hcs : ∀ c ∈ x :: cs, d.parent c = some q)
    (hnodup : (x :: cs).Nodup) (hk : d.climb k q = some root) (hn : d.size ≤ n + (k + 1))
    (hs : d.LosesLinks s.2) (hawaits : Awaits (x :: cs) s) :
    IsStranded (childrenFirst visit.noting n q s x) ∨
      Awaits cs (childrenFirst visit.noting n q s x) := by
  obtain ⟨before, b, after, c, hplaces, hbefore, hnone, hlinked⟩ := hawaits
  have hx := hcs x List.mem_cons_self
  have hclimb : d.climb (k + 1) x = some root := (Document.climb_of_parent hx k).trans hk
  have hroot : d.IsAbove root x := Document.isAbove_iff_climb.2 ⟨k, hclimb⟩
  cases before with
  | nil =>
    obtain ⟨rfl, rfl⟩ := List.cons.inj hplaces
    exact .inl (isStranded_childrenFirst h hd hx hclimb hn hroot hs hnone hlinked)
  | cons y before =>
    obtain ⟨rfl, rfl⟩ := List.cons.inj hplaces
    obtain ⟨n, rfl⟩ := hd.exists_succ_of_climb hx hclimb hn
    obtain ⟨hxnone, hbefore⟩ := List.forall_mem_cons.1 hbefore
    rw [childrenFirst_of_unlinked h.noting hd hs hxnone]
    have hbelow := losesBelow_children h.noting hd n x hs
    generalize (s.2.children x).foldl (childrenFirst visit.noting n x) s = t at hbelow
    have hb : d.parent b = some q := hcs b (by simp)
    have hc : d.parent c = some b := hs.parent_of_some hd hlinked
    have hkept : ¬ d.IsAbove x c := by
      rw [Document.isAbove_iff_of_parent hc, not_or]
      refine ⟨?_, hd.not_isAbove_of_siblings hx hb⟩
      rintro rfl
      exact (List.nodup_cons.1 hnodup).1 (by simp)
    refine .inr ⟨before, b, after, c, rfl, fun y hy => ?_, ?_, ?_⟩
    · exact hbelow.parent_eq_none hs.isForest (hbefore y hy)
    · exact hbelow.parent_eq_none hs.isForest hnone
    · exact (hbelow.parent_eq c hkept).trans hlinked

/-- After a visit, an unlinked sibling with children is still to come, if there is one. -/
theorem strands_settle {q id : NodeId} {s : Noted σ} {done cs : List NodeId}
    (hcs : ∀ c ∈ done ++ id :: cs, d.parent c = some q) (hnodup : (done ++ id :: cs).Nodup)
    (hs : d.LosesLinks s.2) (hsub : (s.2.children q).Sublist (done ++ id :: cs))
    (hparent : s.2.parent id = some q) (hstrands : Strands s) :
    Strands (visit.noting.settle s id) ∨ Awaits cs (visit.noting.settle s id) := by
  by_cases hm : ∃ b, (visit.noting.moment s id).Unlinks b ∧
      (visit.noting.moment s id).left.children b ≠ []
  · obtain ⟨b, hb, hchildren⟩ := hm
    have hforest := hs.isForest
    have hnext := h.noting.nextSibling?_of_unlinks hb
    have hleft := h.noting.losesLinks_left hforest id
    have hafter := Visitor.UnlinksNext.losesLinks_after hleft.isForest
    obtain ⟨front, back, hrow⟩ := hforest.children_of_nextSibling? hparent hnext
    rw [hrow] at hsub
    obtain ⟨before, after, rfl, hbefore⟩ := exists_between hsub hnodup
    obtain ⟨c, hc⟩ := List.exists_mem_of_ne_nil _ hchildren
    rw [hleft.isForest.mem_children_iff] at hc
    have hold := hleft.parent_of_some hforest hc
    refine .inr ⟨before, b, after, c, rfl, fun x hx => ?_, ?_, ?_⟩
    · have hxq : d.parent x = some q := hcs x (by simp [hx])
      have hunlinked : s.2.parent x = none := by
        refine (hs.parent_cases hd x).resolve_left fun heq => hbefore x hx ?_
        rw [← hrow, hforest.mem_children_iff, heq, hxq]
      exact (h.noting.losesLinks_settle hforest).parent_eq_none hforest hunlinked
    · exact hafter.parent_eq_none hleft.isForest hb.2
    · refine (h.noting.parent_after hforest (fun hlost => ?_) ?_).trans hold
      · rw [hlost.2] at hc
        cases hc
      · rintro rfl
        obtain rfl : q = b := Option.some.inj (hparent.symm.trans hold)
        exact hforest.parent_ne_self q (hforest.parent_of_nextSibling? hparent hnext).1
  · refine .inl fun m hmem b hb hchildren => ?_
    rw [Visitor.settle_noting] at hmem
    rcases List.mem_append.1 hmem with hmem | hmem
    · exact (notes_settle visit hparent).isStranded (hstrands m hmem b hb hchildren)
    · rw [List.mem_singleton.1 hmem] at hb hchildren
      exact absurd ⟨b, hb, hchildren⟩ hm

/-- The induction is on the bound and within it over the children of a node. -/
theorem strands_foldl {n k : Nat} {q : NodeId} (done cs : List NodeId) {s : Noted σ}
    (hcs : ∀ c ∈ done ++ cs, d.parent c = some q)
    (hnodup : (done ++ cs).Nodup) (hk : d.climb k q = some root) (hn : d.size ≤ n + (k + 1))
    (hs : d.LosesLinks s.2) (hsub : (s.2.children q).Sublist (done ++ cs))
    (hstrands : Strands s ∨ Awaits cs s) :
    Strands (cs.foldl (childrenFirst visit.noting n q) s) := by
  induction n generalizing k q done cs s with
  | zero =>
    cases cs with
    | nil =>
      refine hstrands.resolve_right fun hawaits => ?_
      obtain ⟨before, b, after, c, hplaces, -⟩ := hawaits
      simp at hplaces
    | cons x cs =>
      have hx : d.parent x = some q := hcs x (by simp)
      obtain ⟨n, hn⟩ := hd.exists_succ_of_climb hx ((Document.climb_of_parent hx k).trans hk) hn
      cases hn
  | succ n ih =>
    induction cs generalizing done s with
    | nil =>
      refine hstrands.resolve_right fun hawaits => ?_
      obtain ⟨before, b, after, c, hplaces, -⟩ := hawaits
      simp at hplaces
    | cons x cs ihcs =>
      have hx : d.parent x = some q := hcs x (by simp)
      have hloses := losesBelow_childrenFirst h.noting hd (n + 1) hx hs
      have hstep : Strands (childrenFirst visit.noting (n + 1) q s x) ∨
          Awaits cs (childrenFirst visit.noting (n + 1) q s x) := by
        rcases hstrands with hstrands | hawaits
        · have hbelow := losesBelow_children h.noting hd n x hs
          have hinner := ih (k := k + 1) [] (s.2.children x)
            (fun c hc => parent_of_mem_children hd hs hc) (hs.isForest.nodup_children x)
            ((Document.climb_of_parent hx k).trans hk) (by omega) hs (List.Sublist.refl _)
            (.inl hstrands)
          generalize ht : (s.2.children x).foldl (childrenFirst visit.noting n x) s = t
            at hbelow hinner
          by_cases hparent : t.2.parent x = some q
          · rw [childrenFirst_of_parent ht hparent]
            exact strands_settle h hd hcs hnodup (hs.trans hbelow.toLosesLinks)
              ((hbelow.sublist_children q).trans hsub) hparent hinner
          · rw [childrenFirst_of_ne ht hparent]
            exact .inl hinner
        · exact (awaits_childrenFirst h hd (fun c hc => hcs c (List.mem_append_right _ hc))
            (List.nodup_append.1 hnodup).2.1 hk hn hs hawaits).imp_left IsStranded.strands
      rw [List.append_cons] at hcs hnodup hsub
      exact ihcs (done ++ [x]) hcs hnodup (hs.trans hloses.toLosesLinks)
        ((hloses.sublist_children q).trans hsub) hstep

theorem strands_bottomUp (t : σ) : Strands (bottomUpNoted visit (t, d)) :=
  strands_foldl h hd (n := bound d) (k := 0) (q := root) [] _
    (fun c hc => (hd.mem_children_iff root c).1 hc) (hd.nodup_children root) rfl
    (by rw [bound]; omega) (.refl hd) (List.Sublist.refl _)
    (.inl fun _ hm => absurd hm List.not_mem_nil)

end Fuel

/-! ## Both walks -/

section Both

variable (hd : d.IsForest)
include h hd

theorem notMem_subtree_of_topDown {t : σ} {front back : List Moment} {m m' : Moment} {b : NodeId}
    (hdown : topDownVisits visit (t, d) = front ++ m :: back) (hm' : m' ∈ front)
    (hb : m'.Unlinks b) : m.id ∉ m'.left.subtree b := by
  intro hbelow
  have hrun := run_topDown visit (t, d)
  have hreached := isReached_topDown h hd t
  rw [hdown] at hrun hreached
  have hmem : m' ∈ front ++ m :: back := List.mem_append_left _ hm'
  have hroot := hrun.isAbove_of_unlinks h hd hmem (hreached m' hmem).2 hb
  obtain ⟨u, p, hfront, hmoment, -, -⟩ := hrun.split
  have hdocument : m.found = u.2 := congrArg Moment.found hmoment
  have hup := (hreached m (by simp)).1
  obtain ⟨hfound, hleft, hrest⟩ := hfront.losesLinks_left h hd hm'
  rw [Moment.IsReached, hdocument, (hfront.losesLinks h hd).mem_subtree_root_iff hd] at hup
  have hold := (hfound.trans hleft).mem_subtree hd hbelow
  exact hup.2 b ((hd.mem_subtree_iff.1 hold).imp_left Eq.symm) hroot
    (hrest.parent_eq_none hleft.isForest hb.2)

end Both

/-- From the top down, every node that is visited can be reached at that moment.  From the
bottom up, an unlinked sibling is not visited either, but a node is visited out of reach
just if such a sibling was above it; and this happens in a walk just if some sibling has
children when it is unlinked. -/
theorem isReached_of_unlinksNext {visit : Visitor σ} (h : visit.UnlinksNext) (hd : d.IsForest)
    (t : σ) :
    let down := topDownVisits visit (t, d)
    let up := bottomUpVisits visit (t, d)
    (∀ m ∈ down, m.IsReached) ∧
      (∀ front m back, down = front ++ m :: back → ∀ m' ∈ front, ∀ b, m'.Unlinks b →
        m.id ∉ m'.left.subtree b) ∧
      (∀ front m back, up = front ++ m :: back → (∀ m' ∈ front, ¬ m'.Unlinks m.id) ∧
        (m.IsReached ↔ ∀ m' ∈ front, ∀ b, m'.Unlinks b → ¬ d.IsAbove b m.id)) ∧
      ((∀ m ∈ up, m.IsReached) ↔ ∀ m ∈ up, ∀ b, m.Unlinks b → m.left.children b = []) := by
  intro down up
  refine ⟨fun m hm => (isReached_topDown h hd t m hm).1,
    fun front m back hdown m' hm' b hb => notMem_subtree_of_topDown h hd hdown hm' hb,
    fun front m back hup => ⟨fun m' hm' hb => ?_, isReached_iff_of_bottomUp h hd hup⟩, ?_⟩
  · obtain ⟨hfound, hlinked, -, hfront⟩ := moment_of_bottomUp h hd hup
    have hcomes := hfront m' hm'
    exact hlinked (hcomes.losesLinks.parent_eq_none hcomes.isForest hb.2)
  · constructor
    · intro hall m hm b hb
      by_contra hchildren
      obtain ⟨m', hm', hstranded⟩ := strands_bottomUp h hd t m hm b hb hchildren
      exact hstranded (hall m' hm')
    · intro hchildless m hm
      obtain ⟨front, back, hup⟩ := List.append_of_mem hm
      refine isReached_of_childless h hd hup fun m' hm' => hchildless m' ?_
      rw [hup]
      exact List.mem_append_left _ hm'

/-! ## A sibling with a child -/

/-- Unlinks the node behind each node of a kind. -/
def unlinkingNext (p : Content → Bool) : Visit := fun d id =>
  match d.nextSibling? id with
  | some b => (if p (d.content id) then d.detach b else d, .keep)
  | none => (d, .keep)

theorem unlinksNext_unlinkingNext (p : Content → Bool) :
    ((unlinkingNext p).visitor : Visitor σ).UnlinksNext := by
  intro s id
  show s.2.SharesLinks (unlinkingNext p s.2 id).1 ∨
    ∃ b, s.2.nextSibling? id = some b ∧ (s.2.detach b).SharesLinks (unlinkingNext p s.2 id).1
  rw [unlinkingNext]
  cases s.2.nextSibling? id with
  | none => exact .inl (.refl _)
  | some b =>
    dsimp only
    split
    · exact .inr ⟨b, rfl, .refl _⟩
    · exact .inl (.refl _)

/-- A picture with two elements in it, the second of which has a child. -/
def paired : Document :=
  let element (name : String) : Content := .element (.bare (.plain name))
  (Branches.node (element "svg") (.node (element "a") .nil
    (.node (element "b") (.node (element "c") .nil .nil) .nil)) .nil).plant root .empty

def isFirst (c : Content) : Bool :=
  c.element?.any (·.isNamed "a")

/-- The child of the second element is visited once its parent has left the document. -/
theorem visits_of_paired :
    let visit : Visitor Unit := (unlinkingNext isFirst).visitor
    visit.UnlinksNext ∧ paired.IsForest ∧
      (topDownVisits visit ((), paired)).map (·.id) = [1, 2] ∧
      (bottomUpVisits visit ((), paired)).map (·.id) = [2, 4, 1] ∧
      ¬ ∀ m ∈ bottomUpVisits visit ((), paired), m.IsReached := by
  intro visit
  have hvisit : visit.UnlinksNext := unlinksNext_unlinkingNext isFirst
  have hforest : paired.IsForest := Branches.isForest_plant _ .empty Nat.zero_lt_one
  refine ⟨hvisit, hforest, by decide, by decide, ?_⟩
  rw [(isReached_of_unlinksNext hvisit hforest ()).2.2.2]
  have hsome : (bottomUpVisits visit ((), paired)).any (fun m => decide (m.found.parent 3 ≠ none) &&
      decide (m.left.parent 3 = none) && decide (m.left.children 3 ≠ [])) = true := by decide
  obtain ⟨m, hm, hunlinks⟩ := List.any_eq_true.1 hsome
  simp only [Bool.and_eq_true, decide_eq_true_eq] at hunlinks
  exact fun hall => hunlinks.2 (hall m hm 3 hunlinks.1)

end Walk
end SvgCompact
