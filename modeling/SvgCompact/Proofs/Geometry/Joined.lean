import SvgCompact.Geometry.Overlap
import SvgCompact.Proofs.Decimal.Sums
import SvgCompact.Proofs.Path.Joining

/-!
Parts of a joined path.

The subpaths of a joined path are those of its parts.  Its box reaches as far as the box
of a part on every side, also when both are padded, so that what is apart from the whole
is apart from each part.
-/

namespace SvgCompact

open Double (Reaches)

/-! ## Boxes -/

namespace Box

/-- Whether a box reaches as far as another on every side. -/
structure Covers (b a : Box Float) : Prop where
  minX : Reaches .negative b.minX a.minX
  minY : Reaches .negative b.minY a.minY
  maxX : Reaches .positive b.maxX a.maxX
  maxY : Reaches .positive b.maxY a.maxY

variable {a b c : Box Float} {p : Point Float} {ps qs : List (Point Float)}

theorem lt_iff {x y : Float} : Scalar.lt x y = true ↔ x < y := decide_eq_true_iff

theorem Covers.refl (a : Box Float) : Covers a a :=
  ⟨.refl _ _, .refl _ _, .refl _ _, .refl _ _⟩

theorem Covers.trans (hc : Covers c b) (hb : Covers b a) : Covers c a :=
  ⟨hc.minX.trans hb.minX, hc.minY.trans hb.minY, hc.maxX.trans hb.maxX, hc.maxY.trans hb.maxY⟩

theorem Covers.overlaps (h : Covers b a) (hac : a.overlaps c = true) : b.overlaps c = true := by
  simp only [Box.overlaps, Bool.and_eq_true, lt_iff] at hac ⊢
  obtain ⟨⟨⟨hleft, hright⟩, htop⟩, hbottom⟩ := hac
  exact ⟨⟨⟨h.minX.lt_of_lt hleft, h.maxX.lt_of_gt hright⟩, h.minY.lt_of_lt htop⟩,
    h.maxY.lt_of_gt hbottom⟩

theorem Covers.pad (h : Covers b a) (margin : Float) : Covers (b.pad margin) (a.pad margin) :=
  ⟨h.minX.sub margin, h.minY.sub margin, h.maxX.add margin, h.maxY.add margin⟩

theorem covers_extend (b : Box Float) (p : Point Float) :
    Covers (b.extend p) b ∧ Covers (b.extend p) (ofPoint p) := by
  have hminX := Double.reaches_min b.minX p.x
  have hminY := Double.reaches_min b.minY p.y
  have hmaxX := Double.reaches_max b.maxX p.x
  have hmaxY := Double.reaches_max b.maxY p.y
  exact ⟨⟨hminX.1, hminY.1, hmaxX.1, hmaxY.1⟩, ⟨hminX.2, hminY.2, hmaxX.2, hmaxY.2⟩⟩

/-- What covers a box and a point covers the box that is extended to the point. -/
theorem Covers.extend (hb : Covers c b) (hp : Covers c (ofPoint p)) : Covers c (b.extend p) :=
  ⟨hb.minX.min hp.minX, hb.minY.min hp.minY, hb.maxX.max hp.maxX, hb.maxY.max hp.maxY⟩

theorem covers_foldl (b : Box Float) (ps : List (Point Float)) :
    Covers (ps.foldl Box.extend b) b ∧
      ∀ p ∈ ps, Covers (ps.foldl Box.extend b) (ofPoint p) := by
  induction ps generalizing b with
  | nil => exact ⟨.refl b, fun p hp => by cases hp⟩
  | cons q ps ih =>
    obtain ⟨hb, hps⟩ := ih (b.extend q)
    obtain ⟨hextend, hq⟩ := covers_extend b q
    refine ⟨hb.trans hextend, fun p hp => ?_⟩
    rcases List.mem_cons.1 hp with rfl | hp
    · exact hb.trans hq
    · exact hps p hp

theorem Covers.foldl (hb : Covers c b) (hps : ∀ p ∈ ps, Covers c (ofPoint p)) :
    Covers c (ps.foldl Box.extend b) := by
  induction ps generalizing b with
  | nil => exact hb
  | cons q ps ih =>
    exact ih (hb.extend (hps q List.mem_cons_self)) fun p hp => hps p (List.mem_cons_of_mem q hp)

theorem covers_around (hb : around? ps = some b) (hp : p ∈ ps) : Covers b (ofPoint p) := by
  cases ps with
  | nil => cases hp
  | cons q ps =>
    cases hb
    rcases List.mem_cons.1 hp with rfl | hp
    · exact (covers_foldl _ ps).1
    · exact (covers_foldl _ ps).2 p hp

/-- The box around more points covers the box around fewer. -/
theorem covers_of_subset (ha : around? ps = some a) (hb : around? qs = some b) (h : ps ⊆ qs) :
    Covers b a := by
  cases ps with
  | nil => cases ha
  | cons p ps =>
    cases ha
    exact Covers.foldl (covers_around hb (h List.mem_cons_self)) fun q hq =>
      covers_around hb (h (List.mem_cons_of_mem p hq))

theorem exists_around (hp : p ∈ ps) : ∃ b, around? ps = some b := by
  cases ps with
  | nil => cases hp
  | cons q ps => exact ⟨_, rfl⟩

end Box

namespace Geometry

/-! ## Subpaths of joined paths -/

theorem subpathsFrom_append (pen : Pen Float) (begun : List (Point Float)) (a : Path Float)
    (p : Point Float) (rest : Path Float) :
    subpathsFrom pen begun (a ++ ⟨false, .moveTo p⟩ :: rest) =
      subpathsFrom pen begun a ++ subpathsFrom ⟨p, p, none, none⟩ [p] rest := by
  induction a generalizing pen begun with
  | nil => rfl
  | cons c a ih =>
    rw [List.cons_append, subpathsFrom, subpathsFrom]
    split
    · rw [ih, List.cons_append]
    · exact ih ..

theorem exists_absolute {b : Path Float} (h : Path.BeginsWithMove b) (hb : b ≠ []) :
    ∃ p rest, b.absolute = ⟨false, .moveTo p⟩ :: rest := by
  rcases b with _ | ⟨⟨relative, segment⟩, rest⟩
  · exact absurd rfl hb
  · cases segment with
    | moveTo p => exact ⟨_, _, rfl⟩
    | _ => exact absurd (h _ rfl) (by simp [Segment.instruction])

/-- A move begins a subpath whatever was drawn before it. -/
theorem subpaths_join (a : Path Float) {b : Path Float} (h : Path.BeginsWithMove b) :
    subpaths (a.join b) = subpaths a ++ subpaths b := by
  rw [subpaths, subpaths, subpaths, Path.absolute_join a h]
  by_cases hb : b = []
  · rw [hb]
    simp [Path.absolute, Path.absoluteFrom, subpathsFrom]
  · obtain ⟨p, rest, habsolute⟩ := exists_absolute h hb
    have hfirst : subpathsFrom Pen.initial [] b.absolute =
        [] :: subpathsFrom ⟨p, p, none, none⟩ [p] rest := by
      rw [habsolute]
      rfl
    rw [hfirst, habsolute, subpathsFrom_append, List.filter_append,
      List.filter_cons_of_neg (by simp)]

/-! ## What is apart from the whole -/

/-- Whether the subpaths of a path are among those of another. -/
def IsPart (a whole : Path Float) : Prop :=
  subpaths a ⊆ subpaths whole

variable {a b whole : Path Float} {boxA boxB box : Box Float}

theorem IsPart.subset (h : IsPart a whole) :
    (subpaths a).flatten ⊆ (subpaths whole).flatten := by
  intro p hp
  obtain ⟨s, hs, hmem⟩ := List.mem_flatten.1 hp
  exact List.mem_flatten.2 ⟨s, h hs, hmem⟩

theorem IsPart.covers (h : IsPart a whole) (ha : boxOf? a = some boxA)
    (hwhole : boxOf? whole = some box) : box.Covers boxA :=
  Box.covers_of_subset ha hwhole h.subset

theorem IsPart.exists_box (h : IsPart a whole) (ha : boxOf? a = some boxA) :
    ∃ box, boxOf? whole = some box := by
  cases hpoints : (subpaths a).flatten with
  | nil =>
    rw [boxOf?, hpoints] at ha
    cases ha
  | cons p ps => exact Box.exists_around (h.subset (hpoints ▸ List.mem_cons_self))

theorem IsPart.overlap (h : IsPart a whole) (hwhole : overlap whole b = false) :
    overlap a b = false := by
  rw [← Bool.not_eq_true] at hwhole ⊢
  refine fun hoverlap => hwhole ?_
  rw [Geometry.overlap] at hoverlap ⊢
  split at hoverlap
  · next boxA boxB ha hb =>
    obtain ⟨box, hbox⟩ := h.exists_box ha
    rw [hbox, hb]
    simp only [Bool.and_eq_true, List.any_eq_true] at hoverlap ⊢
    obtain ⟨hboxes, s, hs, hhulls⟩ := hoverlap
    exact ⟨(h.covers ha hbox).overlaps hboxes, s, h hs, hhulls⟩
  · cases hoverlap

theorem IsPart.pad (h : IsPart a whole) (hwhole : boxOf? whole = some box)
    (ha : boxOf? a = some boxA) (margin : Float)
    (hapart : (box.pad margin).overlaps (boxB.pad margin) = false) :
    (boxA.pad margin).overlaps (boxB.pad margin) = false := by
  rw [← Bool.not_eq_true] at hapart ⊢
  exact fun hoverlap => hapart (((h.covers ha hwhole).pad margin).overlaps hoverlap)

/-! ## Unlimited margins -/

theorem subset_flatten_subpathsFrom (pen : Pen Float) (begun : List (Point Float))
    (path : Path Float) : begun ⊆ (subpathsFrom pen begun path).flatten := by
  induction path generalizing pen begun with
  | nil => exact fun p hp => by simpa [subpathsFrom] using hp
  | cons c rest ih =>
    rw [subpathsFrom]
    split
    · exact List.subset_append_left ..
    · exact fun p hp => ih _ _ (List.mem_append_left _ hp)

/-- A path with finite coordinates begins at a finite point. -/
theorem exists_finite_point (hmove : Path.BeginsWithMove a) (ha : a ≠ [])
    (hfinite : Path.IsFinite a) :
    ∃ p ∈ (subpaths a).flatten, p.x.isFinite = true ∧ p.y.isFinite = true := by
  rcases a with _ | ⟨⟨relative, segment⟩, rest⟩
  · exact absurd rfl ha
  · cases segment with
    | moveTo p =>
      have hp : Path.FinitelyRounded none [.number p.x, .number p.y] :=
        hfinite _ List.mem_cons_self
      refine ⟨p.add Point.origin, ?_, Double.isFinite_add_zero hp.head,
        Double.isFinite_add_zero hp.of_cons.head⟩
      have habsolute : ∃ rest', Path.absolute (⟨relative, .moveTo p⟩ :: rest) =
          ⟨false, .moveTo (p.add Point.origin)⟩ :: rest' := by
        cases relative <;> exact ⟨_, rfl⟩
      obtain ⟨rest', habsolute⟩ := habsolute
      rw [subpaths, List.flatten_filter_not_isEmpty, habsolute]
      exact subset_flatten_subpathsFrom _ _ rest' List.mem_cons_self
    | _ => exact absurd (hmove _ rfl) (by simp [Segment.instruction])

end Geometry

namespace Box

variable {a b : Box Float} {p q : Point Float} {margin : Float}

theorem overlaps_comm (a b : Box Float) : a.overlaps b = b.overlaps a := by
  simp only [Box.overlaps]
  ac_rfl

/-- Boxes with a finite point each overlap when they are padded without limit. -/
theorem overlaps_pad_infinite (ha : Covers a (ofPoint p)) (hb : Covers b (ofPoint q))
    (hp : p.x.isFinite = true ∧ p.y.isFinite = true)
    (hq : q.x.isFinite = true ∧ q.y.isFinite = true)
    (hmargin : margin.toModel.unpack = .infinity .positive) :
    (a.pad margin).overlaps (b.pad margin) = true := by
  have hpoints : ((ofPoint p).pad margin).overlaps ((ofPoint q).pad margin) = true := by
    simp only [Box.overlaps, Bool.and_eq_true, lt_iff]
    exact ⟨⟨⟨Double.sub_lt_add_of_infinite hp.1 hq.1 hmargin,
      Double.sub_lt_add_of_infinite hq.1 hp.1 hmargin⟩,
      Double.sub_lt_add_of_infinite hp.2 hq.2 hmargin⟩,
      Double.sub_lt_add_of_infinite hq.2 hp.2 hmargin⟩
  have hleft := (ha.pad margin).overlaps hpoints
  rw [overlaps_comm] at hleft ⊢
  exact (hb.pad margin).overlaps hleft

end Box
end SvgCompact
