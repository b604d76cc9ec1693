import Mathlib
import SvgCompact.Geometry.Hull

/-!
The hull keeps a farthest point in every direction.

A half hull drops a point only where the way over it does not turn, so the point before
or the point after reaches at least as far in every direction to its side.  By induction
over the sweep each half hull keeps the farthest points of its side, and the two halves
together have all of theirs.  Numbers are exact here.
-/

namespace SvgCompact
namespace Geometry

/-! ## What is kept -/

section

variable {α : Type} [Scalar α]

theorem dropTurns_suffix (p : Point α) (half : List (Point α)) : dropTurns p half <:+ half := by
  fun_induction dropTurns p half with
  | case1 b a rest hdrop ih => exact ih.trans (List.suffix_cons b (a :: rest))
  | case2 b a rest hkeep => exact List.suffix_refl _
  | case3 half hshort => exact List.suffix_refl _

theorem halfHull_concat (ps : List (Point α)) (p : Point α) :
    halfHull (ps ++ [p]) = p :: dropTurns p (halfHull ps) := by
  rw [halfHull, List.foldl_append]
  rfl

theorem halfHull_sublist (ps : List (Point α)) : (halfHull ps).Sublist ps.reverse := by
  induction ps using List.reverseRecOn with
  | nil => exact List.Sublist.refl _
  | append_singleton ps p ih =>
    rw [halfHull_concat, List.reverse_concat]
    exact ((dropTurns_suffix p _).sublist.trans ih).cons_cons p

theorem distinctAfter_sublist (p : Point α) (ps : List (Point α)) :
    (distinct.distinctAfter p ps).Sublist ps := by
  induction ps generalizing p with
  | nil => exact List.Sublist.refl _
  | cons q ps ih =>
    rw [distinct.distinctAfter]
    split
    · exact (ih p).cons q
    · exact (ih q).cons_cons q

theorem distinct_sublist (ps : List (Point α)) : (distinct ps).Sublist ps := by
  cases ps with
  | nil => exact List.Sublist.refl _
  | cons p ps => exact (distinctAfter_sublist p ps).cons_cons p

/-- The hull makes up no points. -/
theorem hull_subset (ps : List (Point α)) : hull ps ⊆ ps := by
  have hsorted : distinct (ps.mergeSort pointSorts) ⊆ ps := fun p hp =>
    List.mem_mergeSort.1 ((distinct_sublist _).subset hp)
  have hhalf (qs : List (Point α)) : (halfHull qs).tail.reverse ⊆ qs := fun p hp =>
    List.mem_reverse.1 ((halfHull_sublist qs).subset (List.mem_of_mem_tail (List.mem_reverse.1 hp)))
  rw [hull]
  split
  · exact hsorted
  · refine List.append_subset.2 ⟨List.Subset.trans (hhalf _) hsorted, ?_⟩
    exact fun p hp => hsorted (List.mem_reverse.1 (hhalf _ hp))

end

variable {axis a b p q : Point ℚ} {ps qs rs : List (Point ℚ)}

theorem project_eq (axis p : Point ℚ) : project axis p = p.x * axis.x + p.y * axis.y := rfl

/-- Whether for each point there is one of the others that lies at least as far along an
axis. -/
def ReachedBy (axis : Point ℚ) (qs ps : List (Point ℚ)) : Prop :=
  ∀ p ∈ ps, ∃ q ∈ qs, project axis p ≤ project axis q

namespace ReachedBy

theorem of_subset (h : ps ⊆ qs) : ReachedBy axis qs ps :=
  fun p hp => ⟨p, h hp, le_refl _⟩

theorem trans (h : ReachedBy axis qs ps) (h' : ReachedBy axis rs qs) : ReachedBy axis rs ps := by
  intro p hp
  obtain ⟨q, hq, hpq⟩ := h p hp
  obtain ⟨r, hr, hqr⟩ := h' q hq
  exact ⟨r, hr, hpq.trans hqr⟩

end ReachedBy

/-! ## The sweep -/

/-- Whether a sweep comes to `p` before `q`.  It goes from left to right and upwards if
`s` is positive, and the other way if `s` is negative. -/
def Sweeps (s : ℚ) (p q : Point ℚ) : Prop :=
  0 < s * (q.x - p.x) ∨ (q.x = p.x ∧ 0 < s * (q.y - p.y))

theorem Sweeps.neg (h : Sweeps 1 p q) : Sweeps (-1) q p := by
  rcases h with hx | ⟨hx, hy⟩
  · exact .inl (by linarith)
  · exact .inr ⟨hx.symm, by linarith⟩

theorem Sweeps.x_le {s : ℚ} (h : Sweeps s p q) : 0 ≤ s * (q.x - p.x) := by
  rcases h with hx | ⟨hx, -⟩
  · exact hx.le
  · rw [hx, sub_self, mul_zero]

/-- What a turn says about the projections of its three points. -/
theorem project_turn (axis a b p : Point ℚ) :
    (p.x - a.x) * project axis b =
      (p.x - b.x) * project axis a + (b.x - a.x) * project axis p - axis.y * cross a b p := by
  rw [project_eq, project_eq, project_eq, cross]
  ring

/-- A point over which the way does not turn counter-clockwise is not farther than both of
its neighbours, in directions to the other side of the sweep. -/
theorem project_le_of_turn {s : ℚ} (hab : Sweeps s a b) (hbp : Sweeps s b p)
    (hcross : cross a b p ≤ 0) (haxis : s * axis.y ≤ 0) :
    project axis b ≤ project axis a ∨ project axis b ≤ project axis p := by
  by_contra hfar
  rw [not_or, not_le, not_le] at hfar
  obtain ⟨ha, hp⟩ := hfar
  have hturn : s * (p.x - a.x) * project axis b ≤
      s * (p.x - b.x) * project axis a + s * (b.x - a.x) * project axis p := by
    have hside : 0 ≤ s * axis.y * cross a b p := mul_nonneg_of_nonpos_of_nonpos haxis hcross
    linear_combination hside + s * project_turn axis a b p
  have hleft := hab.x_le
  have hright := hbp.x_le
  rcases hab with hab | ⟨hab, hyab⟩
  · have hlower := mul_lt_mul_of_pos_left hp hab
    have hupper := mul_le_mul_of_nonneg_left ha.le hright
    linarith
  · rcases hbp with hbp | ⟨hbp, hybp⟩
    · have hlower := mul_lt_mul_of_pos_left ha hbp
      have hupper := mul_le_mul_of_nonneg_left hp.le hleft
      linarith
    · -- the three points stand above each other, and the sweep goes away from the axis
      rw [project_eq, project_eq, hab] at ha
      have hup : 0 < (b.y - a.y) * axis.y := by linarith
      have haway := mul_nonpos_of_nonneg_of_nonpos hyab.le haxis
      have hs : 0 < s * s := mul_self_pos.2 fun hs => by simp [hs] at hyab
      have hpos := mul_pos hs hup
      linarith

/-- What `dropTurns` drops, a point that it keeps or the new one makes up for. -/
theorem reachedBy_dropTurns {s : ℚ} {half : List (Point ℚ)}
    (hsorted : (p :: half).Pairwise fun q r => Sweeps s r q) (haxis : s * axis.y ≤ 0) :
    ReachedBy axis (p :: dropTurns p half) (p :: half) := by
  fun_induction dropTurns p half with
  | case1 b a rest hdrop ih =>
    simp only [List.pairwise_cons, List.mem_cons, forall_eq_or_imp] at hsorted
    obtain ⟨⟨hbp, hap, hrestp⟩, ⟨hab, hrestb⟩, hresta, hrest⟩ := hsorted
    have hcross : cross a b p ≤ 0 := by
      simpa [Scalar.le, Scalar.lt, Scalar.same, Scalar.zero, le_iff_lt_or_eq] using hdrop
    refine .trans ?_ (ih ?_)
    rotate_left
    · simp only [List.pairwise_cons, List.mem_cons, forall_eq_or_imp]
      exact ⟨⟨hap, hrestp⟩, hresta, hrest⟩
    intro q hq
    rcases List.mem_cons.1 hq with rfl | hq
    · exact ⟨q, by simp, le_refl _⟩
    · rcases List.mem_cons.1 hq with rfl | hq
      · rcases project_le_of_turn hab hbp hcross haxis with hle | hle
        · exact ⟨a, by simp, hle⟩
        · exact ⟨p, by simp, hle⟩
      · exact ⟨q, by simp [List.mem_cons.1 hq], le_refl _⟩
  | case2 b a rest hkeep => exact .of_subset (List.Subset.refl _)
  | case3 half hshort => exact .of_subset (List.Subset.refl _)

/-- The first point of a half hull is never dropped. -/
theorem getLast?_dropTurns (p : Point ℚ) (half : List (Point ℚ)) :
    (dropTurns p half).getLast? = half.getLast? := by
  fun_induction dropTurns p half with
  | case1 b a rest hdrop ih => rw [ih, List.getLast?_cons_cons]
  | case2 b a rest hkeep => rfl
  | case3 half hshort => rfl

/-! ## Half hulls -/

theorem getLast?_halfHull (ps : List (Point ℚ)) : (halfHull ps).getLast? = ps.head? := by
  induction ps using List.reverseRecOn with
  | nil => rfl
  | append_singleton ps p ih =>
    rw [halfHull_concat, List.getLast?_cons, getLast?_dropTurns, ih]
    cases ps <;> rfl

theorem pairwise_halfHull {s : ℚ} (hsorted : ps.Pairwise (Sweeps s)) :
    (halfHull ps).Pairwise fun q r => Sweeps s r q :=
  (List.pairwise_reverse.2 hsorted).sublist (halfHull_sublist ps)

/-- The sweep comes to the next point after all that it has kept. -/
theorem pairwise_cons_halfHull {s : ℚ} (hsorted : ps.Pairwise (Sweeps s))
    (hlast : ∀ q ∈ ps, Sweeps s q p) : (p :: halfHull ps).Pairwise fun q r => Sweeps s r q := by
  refine List.pairwise_cons.2 ⟨fun q hq => hlast q ?_, pairwise_halfHull hsorted⟩
  exact List.mem_reverse.1 ((halfHull_sublist ps).subset hq)

/-- A half hull keeps the farthest points to its side of the sweep. -/
theorem reachedBy_halfHull {s : ℚ} (hsorted : ps.Pairwise (Sweeps s)) (haxis : s * axis.y ≤ 0) :
    ReachedBy axis (halfHull ps) ps := by
  induction ps using List.reverseRecOn with
  | nil => exact .of_subset (List.nil_subset _)
  | append_singleton ps p ih =>
    obtain ⟨hps, -, hlast⟩ := List.pairwise_append.1 hsorted
    have hhalf := pairwise_cons_halfHull hps fun q hq => hlast q hq p List.mem_cons_self
    rw [halfHull_concat]
    refine .trans ?_ (reachedBy_dropTurns hhalf haxis)
    intro q hq
    rcases List.mem_append.1 hq with hq | hq
    · obtain ⟨r, hr, hqr⟩ := ih hps q hq
      exact ⟨r, by simp [hr], hqr⟩
    · exact ⟨p, by simp, by rw [List.mem_singleton.1 hq]⟩

/-! ## Points in order -/

theorem pointSorts_iff : pointSorts p q = true ↔ p = q ∨ Sweeps 1 p q := by
  obtain ⟨px, py⟩ := p
  obtain ⟨qx, qy⟩ := q
  simp only [pointSorts, Scalar.sorts, Sweeps, Point.mk.injEq, one_mul, sub_pos]
  grind

theorem Sweeps.trans {s : ℚ} {r : Point ℚ} (h : Sweeps s p q) (h' : Sweeps s q r) :
    Sweeps s p r := by
  rcases h with hx | ⟨hx, hy⟩
  · exact .inl (by linarith [h'.x_le])
  · rcases h' with hx' | ⟨hx', hy'⟩
    · exact .inl (by rw [hx] at hx'; exact hx')
    · exact .inr ⟨hx'.trans hx, by linarith⟩

theorem samePoint_iff : samePoint p q = true ↔ p = q := by
  obtain ⟨px, py⟩ := p
  obtain ⟨qx, qy⟩ := q
  simp [samePoint, Scalar.same]

theorem pairwise_distinctAfter (h : (p :: ps).Pairwise fun q r => q = r ∨ Sweeps 1 q r) :
    (p :: distinct.distinctAfter p ps).Pairwise (Sweeps 1) := by
  induction ps generalizing p with
  | nil => exact List.pairwise_singleton _ _
  | cons q ps ih =>
    rw [List.pairwise_cons] at h
    obtain ⟨hp, hps⟩ := h
    rw [distinct.distinctAfter]
    split
    · exact ih (List.pairwise_cons.2
        ⟨fun r hr => hp r (List.mem_cons_of_mem q hr), (List.pairwise_cons.1 hps).2⟩)
    · next hdiffer =>
      have hne : p ≠ q := fun heq => hdiffer (samePoint_iff.2 heq.symm)
      have hpq := (hp q List.mem_cons_self).resolve_left hne
      have hq := ih hps
      refine List.pairwise_cons.2 ⟨fun r hr => ?_, hq⟩
      rcases List.mem_cons.1 hr with rfl | hr
      · exact hpq
      · exact hpq.trans ((List.pairwise_cons.1 hq).1 r hr)

theorem mem_distinctAfter (hq : q ∈ ps) : q = p ∨ q ∈ distinct.distinctAfter p ps := by
  induction ps generalizing p with
  | nil => cases hq
  | cons r ps ih =>
    rw [distinct.distinctAfter]
    split
    · next hsame =>
      rcases List.mem_cons.1 hq with rfl | hq
      · exact .inl (samePoint_iff.1 hsame)
      · exact ih hq
    · rcases List.mem_cons.1 hq with rfl | hq
      · exact .inr List.mem_cons_self
      · exact .inr (List.mem_cons.2 (ih hq))

/-- The points in order, each once. -/
def sortedPoints (ps : List (Point ℚ)) : List (Point ℚ) :=
  distinct (ps.mergeSort pointSorts)

theorem pairwise_sortedPoints (ps : List (Point ℚ)) :
    (sortedPoints ps).Pairwise (Sweeps 1) := by
  have hsorted : (ps.mergeSort pointSorts).Pairwise fun p q => p = q ∨ Sweeps 1 p q := by
    refine (List.pairwise_mergeSort ?_ ?_ ps).imp fun h => pointSorts_iff.1 h
    · intro p q r hpq hqr
      rw [pointSorts_iff] at hpq hqr ⊢
      rcases hpq with rfl | hpq
      · exact hqr
      · rcases hqr with rfl | hqr
        · exact .inr hpq
        · exact .inr (hpq.trans hqr)
    · intro p q
      rw [Bool.or_eq_true, pointSorts_iff, pointSorts_iff]
      obtain ⟨px, py⟩ := p
      obtain ⟨qx, qy⟩ := q
      simp only [Sweeps, Point.mk.injEq, one_mul, sub_pos]
      grind
  rw [sortedPoints]
  revert hsorted
  cases ps.mergeSort pointSorts with
  | nil => exact fun _ => List.Pairwise.nil
  | cons p rest => exact pairwise_distinctAfter

theorem mem_sortedPoints (hp : p ∈ ps) : p ∈ sortedPoints ps := by
  have hmem : p ∈ ps.mergeSort pointSorts := List.mem_mergeSort.2 hp
  rw [sortedPoints]
  revert hmem
  cases ps.mergeSort pointSorts with
  | nil => exact id
  | cons q rest =>
    intro hmem
    rw [distinct, List.mem_cons]
    rcases List.mem_cons.1 hmem with rfl | hmem
    · exact .inl rfl
    · exact mem_distinctAfter hmem

/-! ## The hull -/

theorem head?_halfHull (ps : List (Point ℚ)) : (halfHull ps).head? = ps.getLast? := by
  induction ps using List.reverseRecOn with
  | nil => rfl
  | append_singleton ps p ih =>
    rw [halfHull_concat, List.getLast?_concat]
    rfl

theorem head_or_mem_tail {half : List (Point ℚ)} (hp : p ∈ half) :
    half.head? = some p ∨ p ∈ half.tail := by
  cases half with
  | nil => cases hp
  | cons q rest =>
    rcases List.mem_cons.1 hp with rfl | hp
    · exact .inl rfl
    · exact .inr hp

theorem mem_tail_of_getLast? {half : List (Point ℚ)} (hlast : half.getLast? = some p)
    (hhead : half.head? ≠ some p) : p ∈ half.tail :=
  (head_or_mem_tail (List.mem_of_getLast? hlast)).resolve_left hhead

theorem head?_ne_getLast? {sorted : List (Point ℚ)} (hlen : ¬ sorted.length < 3)
    (hsorted : sorted.Pairwise (Sweeps 1)) : sorted.head? ≠ sorted.getLast? := by
  rcases sorted with _ | ⟨p, _ | ⟨q, rest⟩⟩
  · simp at hlen
  · simp at hlen
  · intro heq
    rw [List.head?_cons, List.getLast?_cons_cons] at heq
    have hself := (List.pairwise_cons.1 hsorted).1 p (List.mem_of_getLast? heq.symm)
    simp [Sweeps] at hself

/-- Both half hulls are in the hull: the end that one of them gives up the other keeps. -/
theorem mem_hull_of_mem_halfHull {sorted : List (Point ℚ)} (hlen : ¬ sorted.length < 3)
    (hsorted : sorted.Pairwise (Sweeps 1))
    (hp : p ∈ halfHull sorted ∨ p ∈ halfHull sorted.reverse) :
    p ∈ (halfHull sorted).tail.reverse ++ (halfHull sorted.reverse).tail.reverse := by
  have hends := head?_ne_getLast? hlen hsorted
  rw [List.mem_append, List.mem_reverse, List.mem_reverse]
  rcases hp with hp | hp
  · rcases head_or_mem_tail hp with hhead | htail
    · rw [head?_halfHull] at hhead
      refine .inr (mem_tail_of_getLast? ?_ ?_)
      · rw [getLast?_halfHull, List.head?_reverse, hhead]
      · rw [head?_halfHull, List.getLast?_reverse, ← hhead]
        exact hends
    · exact .inl htail
  · rcases head_or_mem_tail hp with hhead | htail
    · rw [head?_halfHull, List.getLast?_reverse] at hhead
      refine .inl (mem_tail_of_getLast? ?_ ?_)
      · rw [getLast?_halfHull, hhead]
      · rw [head?_halfHull, ← hhead]
        exact hends.symm
    · exact .inr htail

theorem hull_eq (ps : List (Point ℚ)) :
    hull ps =
      if (sortedPoints ps).length < 3 then sortedPoints ps
      else (halfHull (sortedPoints ps)).tail.reverse ++
        (halfHull (sortedPoints ps).reverse).tail.reverse := rfl

/-- In every direction the hull reaches as far as the points do. -/
theorem reachedBy_hull (axis : Point ℚ) (ps : List (Point ℚ)) : ReachedBy axis (hull ps) ps := by
  have hsorted := pairwise_sortedPoints ps
  have hall : ReachedBy axis (sortedPoints ps) ps := .of_subset fun p hp => mem_sortedPoints hp
  refine hall.trans ?_
  rw [hull_eq]
  split
  · exact .of_subset (List.Subset.refl _)
  · next hlen =>
    rcases le_total axis.y 0 with hdown | hup
    · have hlower := reachedBy_halfHull hsorted (show 1 * axis.y ≤ 0 by linarith)
      exact hlower.trans
        (.of_subset fun p hp => mem_hull_of_mem_halfHull hlen hsorted (.inl hp))
    · have hreverse : (sortedPoints ps).reverse.Pairwise (Sweeps (-1)) :=
        List.pairwise_reverse.2 (hsorted.imp fun h => h.neg)
      have hupper := reachedBy_halfHull hreverse (show -1 * axis.y ≤ 0 by linarith)
      have hboth : ReachedBy axis (halfHull (sortedPoints ps).reverse) (sortedPoints ps) :=
        fun p hp => hupper p (List.mem_reverse.2 hp)
      exact hboth.trans
        (.of_subset fun p hp => mem_hull_of_mem_halfHull hlen hsorted (.inr hp))

end Geometry
end SvgCompact
