import SvgCompact.Proofs.Decimal.Sums
import SvgCompact.Proofs.Geometry.Hull
import SvgCompact.Proofs.Geometry.Joined

/-!
Overlap by pairs of hulls.

The boxes around two paths only save work.  A hull lies in the box around its path, and the
two axes of the plane are among those that are tried, so hulls whose boxes are apart do not
overlap.  Projections on these two axes are exact for finite points.  What is left is a
question to all pairs of subpaths, and this has no order and does not see where one path of a
joined path ends.
-/

namespace SvgCompact
namespace Geometry

open Double (number Reaches number_le_of_not_lt isNaN_of_isFinite)

/-! ## Both orders -/

theorem hullsOverlap_comm {α : Type} [Scalar α] (as bs : List (Point α)) :
    hullsOverlap as bs = hullsOverlap bs as := by
  cases as with
  | nil => cases bs <;> rfl
  | cons p ps =>
    cases bs with
    | nil => rfl
    | cons q qs =>
      have htest : (fun axis : Point α =>
          Scalar.lt (extent axis q qs).1 (extent axis p ps).2 &&
            Scalar.lt (extent axis p ps).1 (extent axis q qs).2) =
          fun axis => Scalar.lt (extent axis p ps).1 (extent axis q qs).2 &&
            Scalar.lt (extent axis q qs).1 (extent axis p ps).2 :=
        funext fun axis => Bool.and_comm _ _
      simp only [hullsOverlap, List.append_assoc, List.all_append, htest]
      rw [Bool.and_comm (List.all (axes (p :: ps)) _)]

/-! ## Extents -/

variable {axis p q : Point Float} {ps qs points : List (Point Float)}

/-- Whether a number is how far one of some points lies along an axis. -/
def IsProjection (axis : Point Float) (points : List (Point Float)) (x : Float) : Prop :=
  ∃ p ∈ points, x = project axis p

theorem IsProjection.min {x y : Float} (hx : IsProjection axis points x)
    (hy : IsProjection axis points y) : IsProjection axis points (Scalar.min x y) := by
  show IsProjection axis points (Double.min x y)
  rcases Double.min_eq_or x y with heq | heq
  · rwa [heq]
  · rwa [heq]

theorem IsProjection.max {x y : Float} (hx : IsProjection axis points x)
    (hy : IsProjection axis points y) : IsProjection axis points (Scalar.max x y) := by
  show IsProjection axis points (Double.max x y)
  rcases Double.max_eq_or x y with heq | heq
  · rwa [heq]
  · rwa [heq]

theorem isProjection_foldl {range : Float × Float} (hlow : IsProjection axis points range.1)
    (hhigh : IsProjection axis points range.2) (hps : ps ⊆ points) :
    let wider := ps.foldl (fun (low, high) q =>
      (Scalar.min low (project axis q), Scalar.max high (project axis q))) range
    IsProjection axis points wider.1 ∧ IsProjection axis points wider.2 := by
  induction ps generalizing range with
  | nil => exact ⟨hlow, hhigh⟩
  | cons q ps ih =>
    have hq : IsProjection axis points (project axis q) := ⟨q, hps List.mem_cons_self, rfl⟩
    exact ih (hlow.min hq) (hhigh.max hq) fun r hr => hps (List.mem_cons_of_mem q hr)

/-- Both ends of an extent are projections of points. -/
theorem isProjection_extent (axis p : Point Float) (ps : List (Point Float)) :
    IsProjection axis (p :: ps) (extent axis p ps).1 ∧
      IsProjection axis (p :: ps) (extent axis p ps).2 := by
  have hp : IsProjection axis (p :: ps) (project axis p) := ⟨p, List.mem_cons_self, rfl⟩
  exact isProjection_foldl hp hp (List.subset_cons_self p ps)

/-- Whether no point of one list lies as far along an axis as a point of another. -/
def IsBehind (axis : Point Float) (ps qs : List (Point Float)) : Prop :=
  ∀ p ∈ ps, ∀ q ∈ qs, number (project axis p) ≤ number (project axis q)

/-- Hulls that are apart along one of the axes of the plane do not overlap. -/
theorem hullsOverlap_of_isBehind (h : IsBehind axis ps qs)
    (haxis : axis = ⟨Scalar.one, Scalar.zero⟩ ∨ axis = ⟨Scalar.zero, Scalar.one⟩) :
    hullsOverlap ps qs = false := by
  cases ps with
  | nil => rfl
  | cons p ps =>
    cases qs with
    | nil => rfl
    | cons q qs =>
      rw [hullsOverlap, List.all_eq_false]
      refine ⟨axis, ?_, ?_⟩
      · rcases haxis with rfl | rfl
        · simp
        · simp
      · obtain ⟨r, hr, hhigh⟩ := (isProjection_extent axis p ps).2
        obtain ⟨t, ht, hlow⟩ := (isProjection_extent axis q qs).1
        have hle := h r hr t ht
        rw [← hhigh, ← hlow] at hle
        rw [Bool.and_eq_true, Box.lt_iff, Double.lt_iff]
        exact fun hlt => absurd hlt.1.2.2 hle.not_gt

/-! ## Boxes apart -/

/-- Whether points are finite and in a box. -/
structure IsWithin (box : Box Float) (ps : List (Point Float)) : Prop where
  finite : ∀ p ∈ ps, p.x.isFinite = true ∧ p.y.isFinite = true
  covers : ∀ p ∈ ps, box.Covers (.ofPoint p)

variable {boxA boxB : Box Float}

theorem IsWithin.of_subset (h : IsWithin boxA ps) (hqs : qs ⊆ ps) : IsWithin boxA qs :=
  ⟨fun p hp => h.finite p (hqs hp), fun p hp => h.covers p (hqs hp)⟩

theorem project_right (hp : p.x.isFinite = true ∧ p.y.isFinite = true) :
    number (project ⟨Scalar.one, Scalar.zero⟩ p) = number p.x :=
  (Double.number_mul_one_add_mul_zero hp.1 hp.2).2

theorem project_up (hp : p.x.isFinite = true ∧ p.y.isFinite = true) :
    number (project ⟨Scalar.zero, Scalar.one⟩ p) = number p.y :=
  (Double.number_mul_zero_add_mul_one hp.1 hp.2).2

section

variable {x y low high : Float}

/-- What reaches as far down as a finite number is a number that is not above it. -/
theorem number_le_of_reaches (h : Reaches .negative y x) (hx : x.isFinite = true) :
    y.isNaN = false ∧ number y ≤ number x := by
  have hreal : x.isNaN = false := isNaN_of_isFinite hx
  rcases h with hnan | hend | ⟨hy, hle⟩
  · exact absurd (hnan.symm.trans hreal) (by decide)
  · exact absurd (neg_inj.1 hend) (Double.number_bounds hx).2.ne
  · exact ⟨hy, neg_le_neg_iff.1 hle⟩

theorem le_number_of_reaches (h : Reaches .positive y x) (hx : x.isFinite = true) :
    y.isNaN = false ∧ number x ≤ number y := by
  have hreal : x.isNaN = false := isNaN_of_isFinite hx
  rcases h with hnan | hend | ⟨hy, hle⟩
  · exact absurd (hnan.symm.trans hreal) (by decide)
  · exact absurd hend (Double.number_bounds hx).1.ne'
  · exact ⟨hy, hle⟩

theorem number_le_of_not_lt_between (hlow : Reaches .negative low x)
    (hhigh : Reaches .positive high y) (hx : x.isFinite = true) (hy : y.isFinite = true)
    (h : Scalar.lt low high = false) : number y ≤ number x := by
  obtain ⟨hlow, hbelow⟩ := number_le_of_reaches hlow hx
  obtain ⟨hhigh, habove⟩ := le_number_of_reaches hhigh hy
  have hapart : ¬ low < high := fun hlt => by
    rw [Box.lt_iff.2 hlt] at h
    cases h
  exact habove.trans ((number_le_of_not_lt hlow hhigh hapart).trans hbelow)

end

/-- The ends that keep two boxes apart keep their points apart. -/
theorem IsWithin.isBehind_right (hps : IsWithin boxA ps) (hqs : IsWithin boxB qs)
    (h : Scalar.lt boxB.minX boxA.maxX = false) :
    IsBehind ⟨Scalar.one, Scalar.zero⟩ ps qs := by
  intro p hp q hq
  have hpfinite := hps.finite p hp
  have hqfinite := hqs.finite q hq
  rw [project_right hpfinite, project_right hqfinite]
  exact number_le_of_not_lt_between (hqs.covers q hq).minX (hps.covers p hp).maxX hqfinite.1
    hpfinite.1 h

theorem IsWithin.isBehind_up (hps : IsWithin boxA ps) (hqs : IsWithin boxB qs)
    (h : Scalar.lt boxB.minY boxA.maxY = false) :
    IsBehind ⟨Scalar.zero, Scalar.one⟩ ps qs := by
  intro p hp q hq
  have hpfinite := hps.finite p hp
  have hqfinite := hqs.finite q hq
  rw [project_up hpfinite, project_up hqfinite]
  exact number_le_of_not_lt_between (hqs.covers q hq).minY (hps.covers p hp).maxY hqfinite.2
    hpfinite.2 h

/-- Hulls in boxes that are apart do not overlap. -/
theorem hullsOverlap_of_boxes (hps : IsWithin boxA ps) (hqs : IsWithin boxB qs)
    (h : boxA.overlaps boxB = false) : hullsOverlap ps qs = false := by
  simp only [Box.overlaps, Bool.and_eq_false_iff] at h
  rcases h with ((hapart | hapart) | hapart) | hapart
  · rw [hullsOverlap_comm]
    exact hullsOverlap_of_isBehind (hqs.isBehind_right hps hapart) (.inl rfl)
  · exact hullsOverlap_of_isBehind (hps.isBehind_right hqs hapart) (.inl rfl)
  · rw [hullsOverlap_comm]
    exact hullsOverlap_of_isBehind (hqs.isBehind_up hps hapart) (.inr rfl)
  · exact hullsOverlap_of_isBehind (hps.isBehind_up hqs hapart) (.inr rfl)

/-! ## Paths -/

/-- Whether all points that a path is drawn with are finite. -/
def HasFinitePoints (path : Path Float) : Prop :=
  ∀ p ∈ (subpaths path).flatten, p.x.isFinite = true ∧ p.y.isFinite = true

instance (path : Path Float) : Decidable (HasFinitePoints path) :=
  inferInstanceAs (Decidable (∀ p ∈ (subpaths path).flatten,
    p.x.isFinite = true ∧ p.y.isFinite = true))

/-- Whether the hull of a subpath of one path overlaps that of a subpath of another. -/
def hullsMeet (a b : Path Float) : Bool :=
  (subpaths a).any fun s => (subpaths b).any fun t => hullsOverlap (hull s) (hull t)

variable {a b c : Path Float} {s t : List (Point Float)}

theorem exists_isWithin (ha : HasFinitePoints a) (hs : s ∈ subpaths a) :
    ∃ box, boxOf? a = some box ∧ IsWithin box s := by
  have hfull : s ≠ [] := by simpa using (List.mem_filter.1 hs).2
  obtain ⟨p, hp⟩ := List.exists_mem_of_ne_nil s hfull
  have hall (q : Point Float) (hq : q ∈ s) : q ∈ (subpaths a).flatten :=
    List.mem_flatten.2 ⟨s, hs, hq⟩
  obtain ⟨box, hbox⟩ := Box.exists_around (hall p hp)
  exact ⟨box, hbox, fun q hq => ha q (hall q hq), fun q hq => Box.covers_around hbox (hall q hq)⟩

/-- Looking at the boxes first does not change the answer. -/
theorem overlap_eq_hullsMeet (ha : HasFinitePoints a) (hb : HasFinitePoints b) :
    overlap a b = hullsMeet a b := by
  rw [Bool.eq_iff_iff]
  constructor
  · intro h
    rw [overlap] at h
    split at h
    · exact (Bool.and_eq_true_iff.1 h).2
    · cases h
  · intro h
    obtain ⟨s, hs, hmeets⟩ := List.any_eq_true.1 h
    obtain ⟨t, ht, hoverlap⟩ := List.any_eq_true.1 hmeets
    obtain ⟨boxA, hboxA, hwithinA⟩ := exists_isWithin ha hs
    obtain ⟨boxB, hboxB, hwithinB⟩ := exists_isWithin hb ht
    have hboxes : boxA.overlaps boxB = true := by
      by_contra hapart
      rw [Bool.not_eq_true] at hapart
      rw [hullsOverlap_of_boxes (hwithinA.of_subset (hull_subset s))
        (hwithinB.of_subset (hull_subset t)) hapart] at hoverlap
      cases hoverlap
    rw [overlap, hboxA, hboxB]
    exact Bool.and_eq_true_iff.2 ⟨hboxes, h⟩

theorem hullsMeet_comm (a b : Path Float) : hullsMeet a b = hullsMeet b a := by
  rw [Bool.eq_iff_iff]
  simp only [hullsMeet, List.any_eq_true]
  constructor
  · rintro ⟨s, hs, t, ht, hoverlap⟩
    exact ⟨t, ht, s, hs, by rwa [hullsOverlap_comm]⟩
  · rintro ⟨t, ht, s, hs, hoverlap⟩
    exact ⟨s, hs, t, ht, by rwa [hullsOverlap_comm]⟩

theorem hullsMeet_join (a : Path Float) {b : Path Float} (hb : Path.BeginsWithMove b)
    (c : Path Float) : hullsMeet (a.join b) c = (hullsMeet a c || hullsMeet b c) := by
  rw [hullsMeet, subpaths_join a hb, List.any_append]
  rfl

theorem HasFinitePoints.join (ha : HasFinitePoints a) (hb : HasFinitePoints b)
    (hmove : Path.BeginsWithMove b) : HasFinitePoints (a.join b) := by
  intro p hp
  rw [subpaths_join a hmove, List.flatten_append, List.mem_append] at hp
  exact hp.elim (ha p) (hb p)

/-- Overlap does not depend on the order of two paths, and a joined path overlaps what one of
its parts overlaps: it is a matter of the hulls of subpaths only. -/
theorem overlap_by_hulls {d : String} (hd : Path.read d = .ok b) (ha : HasFinitePoints a)
    (hb : HasFinitePoints b) (hc : HasFinitePoints c) :
    overlap a b = overlap b a ∧ overlap (a.join b) c = (overlap a c || overlap b c) ∧
      overlap a b = hullsMeet a b := by
  have hmove := Path.beginsWithMove_of_read hd
  refine ⟨?_, ?_, overlap_eq_hullsMeet ha hb⟩
  · rw [overlap_eq_hullsMeet ha hb, overlap_eq_hullsMeet hb ha, hullsMeet_comm]
  · rw [overlap_eq_hullsMeet (ha.join hb hmove) hc, overlap_eq_hullsMeet ha hc,
      overlap_eq_hullsMeet hb hc, hullsMeet_join a hmove]

/-- Two squares and a curve between them, which lies in the box around both. -/
theorem overlap_between_squares :
    ∃ a b c, Path.read "M0 0h1v1H0z" = .ok a ∧ Path.read "m9 9h1v1h-1z" = .ok b ∧
      Path.read "M4 4q1 2 3 .5z" = .ok c ∧ HasFinitePoints a ∧ HasFinitePoints b ∧
      HasFinitePoints c ∧ overlap a b = overlap b a ∧
      overlap (a.join b) c = (overlap a c || overlap b c) ∧ overlap a b = hullsMeet a b := by
  have hread : Path.read "m9 9h1v1h-1z" = .ok
      [⟨true, .moveTo ⟨9.0, 9.0⟩⟩, ⟨true, .horizontalTo 1.0⟩, ⟨true, .verticalTo 1.0⟩,
        ⟨true, .horizontalTo (-1.0)⟩, ⟨true, .closePath⟩] := by
    decide +kernel
  have ha : HasFinitePoints [⟨false, .moveTo ⟨0.0, 0.0⟩⟩, ⟨true, .horizontalTo 1.0⟩,
      ⟨true, .verticalTo 1.0⟩, ⟨false, .horizontalTo 0.0⟩, ⟨true, .closePath⟩] := by
    decide
  have hb : HasFinitePoints [⟨true, .moveTo ⟨9.0, 9.0⟩⟩, ⟨true, .horizontalTo 1.0⟩,
      ⟨true, .verticalTo 1.0⟩, ⟨true, .horizontalTo (-1.0)⟩, ⟨true, .closePath⟩] := by
    decide
  have hc : HasFinitePoints [⟨false, .moveTo ⟨4.0, 4.0⟩⟩, ⟨true, .quadTo ⟨1.0, 2.0⟩ ⟨3.0, 0.5⟩⟩,
      ⟨true, .closePath⟩] := by
    decide
  exact ⟨_, _, _, by decide +kernel, hread, by decide +kernel, ha, hb, hc,
    overlap_by_hulls hread ha hb hc⟩

end Geometry
end SvgCompact
