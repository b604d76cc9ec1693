import Mathlib
import SvgCompact.Geometry.Overlap
import SvgCompact.Proofs.Geometry.Hull

/-!
Paths that do not overlap lie apart.

`overlap` says no for two reasons: the boxes around the paths do not meet, or each hull of
one path lies apart from each hull of the other along some axis.  In both cases every pair
of subpaths is separated by a direction, and then the regions inside their convex hulls
share no inner point.  Numbers are exact here.
-/

namespace SvgCompact
namespace Geometry

variable {axis p q : Point ℚ} {ps qs : List (Point ℚ)}

/-- Whether all points of one list lie on one side of all points of the other, in some
direction. -/
def AreSeparated (ps qs : List (Point ℚ)) : Prop :=
  ∃ axis : Point ℚ, axis ≠ Point.origin ∧
    ((∀ p ∈ ps, ∀ q ∈ qs, project axis p ≤ project axis q) ∨
      ∀ p ∈ ps, ∀ q ∈ qs, project axis q ≤ project axis p)

theorem min_eq (x y : ℚ) : Scalar.min x y = min x y := by
  rw [min_comm]
  exact (min_def_lt y x).symm

theorem max_eq (x y : ℚ) : Scalar.max x y = max x y :=
  (max_def_lt x y).symm

theorem lt_eq_false_iff {x y : ℚ} : Scalar.lt x y = false ↔ y ≤ x :=
  decide_eq_false_iff_not.trans not_lt

/-! ## Hulls apart along an axis -/

theorem foldl_extent_bounds (axis : Point ℚ) (ps : List (Point ℚ)) (range : ℚ × ℚ) :
    let wider := ps.foldl (fun (low, high) q =>
      (Scalar.min low (project axis q), Scalar.max high (project axis q))) range
    (wider.1 ≤ range.1 ∧ range.2 ≤ wider.2) ∧
      ∀ q ∈ ps, wider.1 ≤ project axis q ∧ project axis q ≤ wider.2 := by
  induction ps generalizing range with
  | nil => exact ⟨⟨le_refl _, le_refl _⟩, List.forall_mem_nil _⟩
  | cons q ps ih =>
    obtain ⟨⟨hlow, hhigh⟩, hps⟩ :=
      ih (Scalar.min range.1 (project axis q), Scalar.max range.2 (project axis q))
    simp only [min_eq, max_eq, le_min_iff, max_le_iff] at hlow hhigh hps
    simp only [List.foldl_cons, min_eq, max_eq]
    refine ⟨⟨hlow.1, hhigh.1⟩, fun r hr => ?_⟩
    rcases List.mem_cons.1 hr with rfl | hr
    · exact ⟨hlow.2, hhigh.2⟩
    · exact hps r hr

theorem extent_bounds (axis p : Point ℚ) (ps : List (Point ℚ)) :
    ∀ q ∈ p :: ps,
      (extent axis p ps).1 ≤ project axis q ∧ project axis q ≤ (extent axis p ps).2 := by
  intro q hq
  obtain ⟨hp, hps⟩ := foldl_extent_bounds axis ps (project axis p, project axis p)
  rcases List.mem_cons.1 hq with rfl | hq
  · exact hp
  · exact hps q hq

/-- A side without length has no axis across it, and all other axes are directions. -/
theorem ne_origin_of_mem_axes (h : axis ∈ axes ps) : axis ≠ Point.origin := by
  obtain ⟨side, -, haxis⟩ := List.mem_flatMap.1 h
  intro horigin
  simp only [horigin, Point.origin, Scalar.isZero, Scalar.same, Scalar.zero] at haxis
  grind

/-- Hulls that do not overlap lie apart along one of the axes tried. -/
theorem exists_axis_of_not_hullsOverlap (h : hullsOverlap ps qs = false) (hps : ps ≠ [])
    (hqs : qs ≠ []) : AreSeparated ps qs := by
  obtain ⟨p, ps, rfl⟩ := List.exists_cons_of_ne_nil hps
  obtain ⟨q, qs, rfl⟩ := List.exists_cons_of_ne_nil hqs
  rw [hullsOverlap, List.all_eq_false] at h
  obtain ⟨axis, haxis, hapart⟩ := h
  refine ⟨axis, ?_, ?_⟩
  · simp only [List.mem_append, List.mem_cons, List.not_mem_nil, or_false] at haxis
    rcases haxis with ((rfl | rfl) | hp) | hq
    · simp [Point.origin, Scalar.one, Scalar.zero]
    · simp [Point.origin, Scalar.one, Scalar.zero]
    · exact ne_origin_of_mem_axes hp
    · exact ne_origin_of_mem_axes hq
  · have hp := extent_bounds axis p ps
    have hq := extent_bounds axis q qs
    simp only [Bool.not_eq_true, Bool.and_eq_false_iff, lt_eq_false_iff] at hapart
    rcases hapart with hle | hle
    · exact .inl fun r hr t ht => ((hp r hr).2.trans hle).trans (hq t ht).1
    · exact .inr fun r hr t ht => ((hq t ht).2.trans hle).trans (hp r hr).1

theorem hull_ne_nil (h : ps ≠ []) : hull ps ≠ [] := by
  obtain ⟨p, hp⟩ := List.exists_mem_of_ne_nil ps h
  obtain ⟨q, hq, -⟩ := reachedBy_hull Point.origin ps p hp
  exact List.ne_nil_of_mem hq

theorem project_neg (axis p : Point ℚ) :
    project ⟨-axis.x, -axis.y⟩ p = -project axis p := by
  rw [project_eq, project_eq]
  ring

/-- The hull reaches as far as the points do, so what separates hulls separates points. -/
theorem le_of_le_hull (h : ∀ p ∈ hull ps, ∀ q ∈ hull qs, project axis p ≤ project axis q) :
    ∀ p ∈ ps, ∀ q ∈ qs, project axis p ≤ project axis q := by
  intro p hp q hq
  obtain ⟨r, hr, hpr⟩ := reachedBy_hull axis ps p hp
  obtain ⟨t, ht, hqt⟩ := reachedBy_hull ⟨-axis.x, -axis.y⟩ qs q hq
  rw [project_neg, project_neg, neg_le_neg_iff] at hqt
  exact (hpr.trans (h r hr t ht)).trans hqt

theorem AreSeparated.of_hull (h : AreSeparated (hull ps) (hull qs)) : AreSeparated ps qs := by
  obtain ⟨axis, haxis, hle | hle⟩ := h
  · exact ⟨axis, haxis, .inl (le_of_le_hull hle)⟩
  · refine ⟨axis, haxis, .inr fun p hp q hq => ?_⟩
    exact le_of_le_hull (fun t ht r hr => hle r hr t ht) q hq p hp

/-! ## Boxes apart -/

/-- Whether a point lies in a box or on its border. -/
structure Holds (box : Box ℚ) (p : Point ℚ) : Prop where
  minX : box.minX ≤ p.x
  minY : box.minY ≤ p.y
  maxX : p.x ≤ box.maxX
  maxY : p.y ≤ box.maxY

theorem holds_extend (box : Box ℚ) (p : Point ℚ) : Holds (box.extend p) p := by
  constructor <;> simp [Box.extend, min_eq, max_eq]

theorem Holds.extend {box : Box ℚ} (h : Holds box p) (q : Point ℚ) : Holds (box.extend q) p := by
  constructor <;> simp [Box.extend, min_eq, max_eq, h.minX, h.minY, h.maxX, h.maxY]

theorem Holds.foldl {box : Box ℚ} (h : Holds box p) (ps : List (Point ℚ)) :
    Holds (ps.foldl Box.extend box) p := by
  induction ps generalizing box with
  | nil => exact h
  | cons q ps ih => exact ih (h.extend q)

theorem holds_foldl {box : Box ℚ} (hp : p ∈ ps) : Holds (ps.foldl Box.extend box) p := by
  induction ps generalizing box with
  | nil => cases hp
  | cons q ps ih =>
    rcases List.mem_cons.1 hp with rfl | hp
    · exact (holds_extend box p).foldl ps
    · exact ih hp

theorem holds_around {box : Box ℚ} (h : Box.around? ps = some box) (hp : p ∈ ps) :
    Holds box p := by
  cases ps with
  | nil => cases hp
  | cons q ps =>
    rw [Box.around?, Option.some.injEq] at h
    subst h
    rcases List.mem_cons.1 hp with rfl | hp
    · have hself : Holds (Box.ofPoint p) p := ⟨le_refl _, le_refl _, le_refl _, le_refl _⟩
      exact hself.foldl ps
    · exact holds_foldl hp

/-- Boxes that do not overlap lie apart along one of the two axes of the plane. -/
theorem separated_of_boxes {boxA boxB : Box ℚ} (h : boxA.overlaps boxB = false)
    (hps : ∀ p ∈ ps, Holds boxA p) (hqs : ∀ q ∈ qs, Holds boxB q) : AreSeparated ps qs := by
  have hx : (⟨1, 0⟩ : Point ℚ) ≠ Point.origin := by simp [Point.origin, Scalar.zero]
  have hy : (⟨0, 1⟩ : Point ℚ) ≠ Point.origin := by simp [Point.origin, Scalar.zero]
  simp only [Box.overlaps, Bool.and_eq_false_iff, lt_eq_false_iff] at h
  rcases h with ((hle | hle) | hle) | hle
  · refine ⟨⟨1, 0⟩, hx, .inr fun p hp q hq => ?_⟩
    have hchain := ((hqs q hq).maxX.trans hle).trans (hps p hp).minX
    simpa [project_eq] using hchain
  · refine ⟨⟨1, 0⟩, hx, .inl fun p hp q hq => ?_⟩
    have hchain := ((hps p hp).maxX.trans hle).trans (hqs q hq).minX
    simpa [project_eq] using hchain
  · refine ⟨⟨0, 1⟩, hy, .inr fun p hp q hq => ?_⟩
    have hchain := ((hqs q hq).maxY.trans hle).trans (hps p hp).minY
    simpa [project_eq] using hchain
  · refine ⟨⟨0, 1⟩, hy, .inl fun p hp q hq => ?_⟩
    have hchain := ((hps p hp).maxY.trans hle).trans (hqs q hq).minY
    simpa [project_eq] using hchain

/-! ## Inner points -/

/-- The points of a list in the real plane. -/
def plane (ps : List (Point ℚ)) : Set (ℝ × ℝ) :=
  {v | ∃ p ∈ ps, ((p.x : ℝ), (p.y : ℝ)) = v}

/-- How far a point of the real plane lies along an axis. -/
noncomputable def along (axis : Point ℚ) : StrongDual ℝ (ℝ × ℝ) :=
  (axis.x : ℝ) • ContinuousLinearMap.fst ℝ ℝ ℝ + (axis.y : ℝ) • ContinuousLinearMap.snd ℝ ℝ ℝ

theorem along_apply (axis : Point ℚ) (v : ℝ × ℝ) :
    along axis v = axis.x * v.1 + axis.y * v.2 := rfl

theorem along_point (axis p : Point ℚ) :
    along axis ((p.x : ℝ), (p.y : ℝ)) = (project axis p : ℚ) := by
  rw [along_apply, project_eq]
  push_cast
  ring

theorem along_ne_zero (h : axis ≠ Point.origin) : along axis ≠ 0 := by
  intro hzero
  obtain ⟨x, y⟩ := axis
  have hx := along_apply ⟨x, y⟩ (1, 0)
  have hy := along_apply ⟨x, y⟩ (0, 1)
  rw [hzero, zero_apply] at hx hy
  have hx : x = 0 := by simpa using hx.symm
  have hy : y = 0 := by simpa using hy.symm
  exact h (by rw [hx, hy]; rfl)

/-- No inner point of a convex hull lies as far along as a bound on its points. -/
theorem lt_of_mem_interior {f : StrongDual ℝ (ℝ × ℝ)} {s : Set (ℝ × ℝ)} {v : ℝ × ℝ} {c : ℝ}
    (hf : f ≠ 0) (hle : ∀ w ∈ s, f w ≤ c) (hv : v ∈ interior (convexHull ℝ s)) : f v < c := by
  have hhalf : convexHull ℝ s ⊆ {w | f w ≤ c} :=
    convexHull_min hle (convex_halfSpace_le f.isLinear c)
  have hinner := (f.isOpenMap_of_ne_zero hf).interior_preimage_subset_preimage_interior
    (interior_mono (t := Set.preimage f (Set.Iic c)) hhalf hv)
  rwa [interior_Iic] at hinner

theorem disjoint_interior {f : StrongDual ℝ (ℝ × ℝ)} {s t : Set (ℝ × ℝ)} (hf : f ≠ 0)
    (hle : ∀ v ∈ s, ∀ w ∈ t, f v ≤ f w) :
    Disjoint (interior (convexHull ℝ s)) (interior (convexHull ℝ t)) := by
  refine Set.disjoint_left.2 fun v hs ht => ?_
  have hbelow : ∀ w ∈ t, f v < f w := fun w hw =>
    lt_of_mem_interior hf (fun u hu => hle u hu w hw) hs
  have habove : (-f) v < (-f) v :=
    lt_of_mem_interior (neg_ne_zero.2 hf) (fun w hw => neg_le_neg (hbelow w hw).le) ht
  exact lt_irrefl _ habove

/-- The convex hulls of separated points share no inner point. -/
theorem AreSeparated.disjoint_interior (h : AreSeparated ps qs) :
    Disjoint (interior (convexHull ℝ (plane ps))) (interior (convexHull ℝ (plane qs))) := by
  obtain ⟨axis, haxis, hle | hle⟩ := h
  · refine Geometry.disjoint_interior (along_ne_zero haxis) ?_
    rintro v ⟨p, hp, rfl⟩ w ⟨q, hq, rfl⟩
    rw [along_point, along_point]
    exact Rat.cast_le.2 (hle p hp q hq)
  · refine (Geometry.disjoint_interior (along_ne_zero haxis) ?_).symm
    rintro w ⟨q, hq, rfl⟩ v ⟨p, hp, rfl⟩
    rw [along_point, along_point]
    exact Rat.cast_le.2 (hle p hp q hq)

/-! ## Paths -/

theorem ne_nil_of_mem_subpaths {path : Path ℚ} (h : ps ∈ subpaths path) : ps ≠ [] := by
  have hfull := (List.mem_filter.1 h).2
  rintro rfl
  cases hfull

/-- The box around a path with subpaths holds all of their points. -/
theorem exists_box {path : Path ℚ} (h : ps ∈ subpaths path) :
    ∃ box, boxOf? path = some box ∧ ∀ p ∈ ps, Holds box p := by
  have hall : ∀ p ∈ ps, p ∈ (subpaths path).flatten := fun p hp => List.mem_flatten.2 ⟨ps, h, hp⟩
  obtain ⟨p, hp⟩ := List.exists_mem_of_ne_nil ps (ne_nil_of_mem_subpaths h)
  cases hbox : boxOf? path with
  | none =>
    have hp := hall p hp
    rw [boxOf?] at hbox
    revert hbox hp
    cases (subpaths path).flatten with
    | nil => exact fun _ hp => by cases hp
    | cons q rest => exact fun hbox => by cases hbox
  | some box => exact ⟨box, rfl, fun p hp => holds_around hbox (hall p hp)⟩

/-- The subpaths of paths that do not overlap are separated, and the regions inside their
convex hulls share no inner point. -/
theorem separated_of_not_overlap {a b : Path ℚ} (h : overlap a b = false)
    (hps : ps ∈ subpaths a) (hqs : qs ∈ subpaths b) :
    AreSeparated ps qs ∧
      ∀ s t : Set (ℝ × ℝ), s ⊆ convexHull ℝ (plane ps) → t ⊆ convexHull ℝ (plane qs) →
        Disjoint (interior s) (interior t) := by
  have hseparated : AreSeparated ps qs := by
    obtain ⟨boxA, hboxA, hpsA⟩ := exists_box hps
    obtain ⟨boxB, hboxB, hqsB⟩ := exists_box hqs
    simp only [overlap, hboxA, hboxB, Bool.and_eq_false_iff, List.any_eq_false,
      Bool.not_eq_true] at h
    rcases h with hboxes | hhulls
    · exact separated_of_boxes hboxes hpsA hqsB
    · refine .of_hull (exists_axis_of_not_hullsOverlap (hhulls ps hps qs hqs) ?_ ?_)
      · exact hull_ne_nil (ne_nil_of_mem_subpaths hps)
      · exact hull_ne_nil (ne_nil_of_mem_subpaths hqs)
  refine ⟨hseparated, fun s t hs ht => ?_⟩
  exact hseparated.disjoint_interior.mono (interior_mono hs) (interior_mono ht)

/-- A triangle with a slanted side. -/
def lowerTriangle : Path ℚ :=
  [⟨false, .moveTo ⟨0, 0⟩⟩, ⟨false, .lineTo ⟨8, 0⟩⟩, ⟨false, .lineTo ⟨0, 8⟩⟩, ⟨false, .closePath⟩]

/-- A triangle beyond the slanted side of the other, whose box meets that of the other. -/
def upperTriangle : Path ℚ :=
  [⟨false, .moveTo ⟨8, 2⟩⟩, ⟨true, .lineTo ⟨0, 6⟩⟩, ⟨true, .lineTo ⟨-6, 0⟩⟩, ⟨false, .closePath⟩]

theorem separated_triangles :
    overlap lowerTriangle upperTriangle = false ∧
      AreSeparated [⟨0, 0⟩, ⟨8, 0⟩, ⟨0, 8⟩] [⟨8, 2⟩, ⟨8, 8⟩, ⟨2, 8⟩] := by
  have hapart : overlap lowerTriangle upperTriangle = false := by cbv
  have hlower : subpaths lowerTriangle = [[⟨0, 0⟩, ⟨8, 0⟩, ⟨0, 8⟩]] := by cbv
  have hupper : subpaths upperTriangle = [[⟨8, 2⟩, ⟨8, 8⟩, ⟨2, 8⟩]] := by cbv
  refine ⟨hapart, (separated_of_not_overlap hapart ?_ ?_).1⟩
  · rw [hlower]
    exact List.mem_singleton_self _
  · rw [hupper]
    exact List.mem_singleton_self _

end Geometry
end SvgCompact
