import Mathlib
import SvgCompact.Proofs.Geometry.Separation

/-!
The hull is the convex hull.

A half hull turns counter-clockwise over any three of its points, not only over neighbours:
turns of a way that sweeps in one direction add up.  Each half lies to the left of the line
between the two ends, so the same holds of any three points of the whole hull in their
order, and this does not depend on where the hull begins.  Together with the farthest points,
which the hull keeps, no point is to the right of a side.  Numbers are exact here.
-/

namespace SvgCompact
namespace Geometry

variable {a b c d p q s w x y z : Point ℚ} {σ : ℚ} {h l ps low up : List (Point ℚ)}

/-! ## Turns -/

/-- Whether the way over three points turns counter-clockwise. -/
def TurnsLeft (a b c : Point ℚ) : Prop := 0 < cross a b c

theorem cross_eq (a b c : Point ℚ) :
    cross a b c = (b.x - a.x) * (c.y - a.y) - (b.y - a.y) * (c.x - a.x) := rfl

theorem cross_rotate (a b c : Point ℚ) : cross b c a = cross a b c := by
  rw [cross_eq, cross_eq]
  ring

theorem TurnsLeft.rotate (hturn : TurnsLeft a b c) : TurnsLeft b c a := by
  rw [TurnsLeft, cross_rotate]
  exact hturn

theorem cross_self_left (a b : Point ℚ) : cross a b a = 0 := by
  rw [cross_eq]
  ring

theorem cross_self_right (a b : Point ℚ) : cross a b b = 0 := by
  rw [cross_eq]
  ring

theorem Sweeps.sq_pos (hab : Sweeps σ a b) : 0 < σ * σ := by
  refine mul_self_pos.2 fun hzero => ?_
  simp [Sweeps, hzero] at hab

/-- A sweep that goes straight up cannot turn left. -/
theorem TurnsLeft.x_lt (hturn : TurnsLeft a b c) (hab : Sweeps σ a b) (hbc : Sweeps σ b c) :
    0 < σ * (b.x - a.x) := by
  rcases hab with hx | ⟨hx, hy⟩
  · exact hx
  · have hσ : 0 < σ * σ := Sweeps.sq_pos (.inr ⟨hx, hy⟩)
    have hpos : 0 < σ * σ * cross a b c := mul_pos hσ hturn
    have hneg : 0 ≤ σ * (b.y - a.y) * (σ * (c.x - b.x)) := mul_nonneg hy.le hbc.x_le
    have hcross : σ * σ * cross a b c = -(σ * (b.y - a.y) * (σ * (c.x - b.x))) := by
      rw [cross_eq, hx]
      ring
    linarith

/-- Left turns of a sweep add up. -/
theorem TurnsLeft.add (hturn : TurnsLeft a b c) (hturn' : TurnsLeft b c d) (hab : Sweeps σ a b)
    (hbc : Sweeps σ b c) (hcd : Sweeps σ c d) : TurnsLeft a b d ∧ TurnsLeft a c d := by
  have hmiddle : 0 < σ * (c.x - b.x) := hturn'.x_lt hbc hcd
  -- The turn from the first side to the last one.
  obtain ⟨turn, hdef⟩ :
      ∃ t, t = (b.x - a.x) * (d.y - c.y) - (b.y - a.y) * (d.x - c.x) := ⟨_, rfl⟩
  have hscaled : σ * (c.x - b.x) * turn =
      σ * (b.x - a.x) * cross b c d + σ * (d.x - c.x) * cross a b c := by
    rw [hdef, cross_eq, cross_eq]
    ring
  have hnonneg : 0 ≤ turn := by
    refine nonneg_of_mul_nonneg_right ?_ hmiddle
    rw [hscaled]
    exact add_nonneg (mul_nonneg hab.x_le hturn'.le) (mul_nonneg hcd.x_le hturn.le)
  have hfirst : cross a b d = cross a b c + turn := by
    rw [hdef, cross_eq, cross_eq]
    ring
  have hlast : cross a c d = cross b c d + turn := by
    rw [hdef, cross_eq, cross_eq]
    ring
  constructor
  · rw [TurnsLeft, hfirst]
    exact add_pos_of_pos_of_nonneg hturn hnonneg
  · rw [TurnsLeft, hlast]
    exact add_pos_of_pos_of_nonneg hturn' hnonneg

/-- What lies across the line between two ends lies to the left of each line that has the
ends to its left. -/
theorem TurnsLeft.across (hs : 0 ≤ cross x y s) (hz : TurnsLeft x y z) (hw : TurnsLeft s z w)
    (hsx : 0 ≤ σ * (x.x - s.x)) (hxy : Sweeps σ x y) (hyz : Sweeps σ y z)
    (hsw : 0 ≤ σ * (w.x - s.x)) (hwz : 0 ≤ σ * (z.x - w.x)) : TurnsLeft x y w := by
  have hside : 0 < σ * (y.x - x.x) := hz.x_lt hxy hyz
  have hends : 0 < σ * (z.x - s.x) := by linarith [hyz.x_le]
  have hscaled : σ * (z.x - s.x) * cross x y w =
      σ * (z.x - w.x) * cross x y s + σ * (w.x - s.x) * cross x y z +
        σ * (y.x - x.x) * cross s z w := by
    rw [cross_eq, cross_eq, cross_eq, cross_eq]
    ring
  have hpos : 0 < σ * (z.x - s.x) * cross x y w := by
    rw [hscaled]
    exact add_pos_of_nonneg_of_pos
      (add_nonneg (mul_nonneg hwz hs) (mul_nonneg hsw hz.le)) (mul_pos hside hw)
  exact pos_of_mul_pos_right hpos hends.le

/-! ## Ways that bend to the left -/

/-- A way that sweeps in one direction and turns left over any three of its points. -/
structure Bends (σ : ℚ) (l : List (Point ℚ)) : Prop where
  sweeps : l.Pairwise (Sweeps σ)
  turns : l.Triplewise TurnsLeft

theorem turnsLeft_of_keep (hkeep : ¬ Scalar.le (cross a b p) Scalar.zero = true) :
    TurnsLeft a b p := by
  refine not_le.1 fun hle => hkeep ?_
  rcases hle.lt_or_eq with hlt | heq
  · simp [Scalar.le, Scalar.lt, Scalar.zero, hlt]
  · simp [Scalar.le, Scalar.same, Scalar.zero, heq]

/-- After the points that do not turn are dropped, the way to the new point turns left behind
any two of those that are left. -/
theorem pairwise_dropTurns {half : List (Point ℚ)}
    (hsorted : (p :: half).Pairwise fun q r => Sweeps σ r q)
    (hturns : half.Triplewise fun c b a => TurnsLeft a b c) :
    (dropTurns p half).Pairwise fun b a => TurnsLeft a b p := by
  fun_induction dropTurns p half with
  | case1 b a rest hdrop ih =>
    refine ih ?_ (List.triplewise_cons.1 hturns).2
    exact hsorted.sublist (.cons_cons p (List.sublist_cons_self b (a :: rest)))
  | case2 b a rest hkeep =>
    obtain ⟨hp, hhalf⟩ := List.pairwise_cons.1 hsorted
    obtain ⟨hb, hbelow⟩ := List.pairwise_cons.1 hhalf
    obtain ⟨hthrough, -⟩ := List.triplewise_cons.1 hturns
    have hbp := hp b List.mem_cons_self
    have htop : TurnsLeft a b p := turnsLeft_of_keep hkeep
    have hover : ∀ q ∈ a :: rest, TurnsLeft q b p := by
      intro q hq
      rcases List.mem_cons.1 hq with rfl | hq
      · exact htop
      · have hqa := (List.pairwise_cons.1 hbelow).1 q hq
        have hqab := (List.pairwise_cons.1 hthrough).1 q hq
        exact (hqab.add htop hqa (hb a List.mem_cons_self) hbp).2
    refine List.pairwise_cons.2 ⟨hover, ?_⟩
    refine (hbelow.and hthrough).imp_of_mem fun {y x} hy hx hboth => ?_
    exact (hboth.2.add (hover y hy) hboth.1 (hb y hy) hbp).1
  | case3 half hshort =>
    rcases half with _ | ⟨b, _ | ⟨a, rest⟩⟩
    · exact List.Pairwise.nil
    · exact List.pairwise_singleton _ _
    · exact absurd rfl (hshort b a rest)

theorem triplewise_halfHull (hsorted : ps.Pairwise (Sweeps σ)) :
    (halfHull ps).Triplewise fun c b a => TurnsLeft a b c := by
  induction ps using List.reverseRecOn with
  | nil => exact .nil
  | append_singleton ps p ih =>
    obtain ⟨hps, -, hlast⟩ := List.pairwise_append.1 hsorted
    have hhalf := pairwise_cons_halfHull hps fun q hq => hlast q hq p List.mem_cons_self
    have hturns := ih hps
    rw [halfHull_concat]
    refine .cons (pairwise_dropTurns hhalf hturns) ?_
    obtain ⟨front, hfront⟩ := dropTurns_suffix p (halfHull ps)
    rw [← hfront] at hturns
    exact (List.triplewise_append.1 hturns).2.1

theorem bends_halfHull (hsorted : ps.Pairwise (Sweeps σ)) : Bends σ (halfHull ps).reverse :=
  ⟨List.pairwise_reverse.2 (pairwise_halfHull hsorted),
    List.triplewise_reverse.2 (triplewise_halfHull hsorted)⟩

/-- The sides of a way that bends have to their left what lies across the line between its
ends. -/
theorem Bends.pairwise_across (hbends : Bends σ (s :: low ++ [z])) (hw : TurnsLeft s z w)
    (hsw : 0 ≤ σ * (w.x - s.x)) (hwz : 0 ≤ σ * (z.x - w.x)) :
    (s :: low).Pairwise fun x y => TurnsLeft x y w := by
  obtain ⟨hsweeps, -, htoEnd⟩ := List.pairwise_append.1 hbends.sweeps
  obtain ⟨hturns, -, -, hturnsEnd⟩ := List.triplewise_append.1 hbends.turns
  have hstart : (s :: low).Pairwise fun x y => 0 ≤ cross x y s := by
    refine List.pairwise_cons.2 ⟨fun y _ => (cross_self_left s y).ge, ?_⟩
    exact (List.triplewise_cons.1 hturns).1.imp fun hturn => hturn.rotate.le
  have hfrom : ∀ x ∈ s :: low, 0 ≤ σ * (x.x - s.x) := by
    intro x hx
    rcases List.mem_cons.1 hx with rfl | hx
    · rw [sub_self, mul_zero]
    · exact ((List.pairwise_cons.1 hsweeps).1 x hx).x_le
  have hend := hturnsEnd z List.mem_cons_self
  refine (hsweeps.and (hend.and hstart)).imp_of_mem fun {x y} hx hy hall => ?_
  obtain ⟨hxy, hz, hs⟩ := hall
  exact hz.across hs hw (hfrom x hx) hxy (htoEnd y hy z List.mem_cons_self) hsw hwz

/-- What lies between the ends of a way that bends lies to the right of the line between
them. -/
theorem Bends.turnsLeft_between (hbends : Bends σ (s :: low ++ [z])) (hw : w ∈ low) :
    TurnsLeft z s w ∧ 0 ≤ σ * (w.x - s.x) ∧ 0 ≤ σ * (z.x - w.x) := by
  obtain ⟨hsweeps, -, htoEnd⟩ := List.pairwise_append.1 hbends.sweeps
  obtain ⟨-, -, -, hturnsEnd⟩ := List.triplewise_append.1 hbends.turns
  have hturn := (List.pairwise_cons.1 (hturnsEnd z List.mem_cons_self)).1 w hw
  exact ⟨hturn.rotate.rotate, ((List.pairwise_cons.1 hsweeps).1 w hw).x_le,
    (htoEnd w (List.mem_cons_of_mem s hw) z List.mem_cons_self).x_le⟩

/-- Two ways that bend to the left, one back to where the other begins, turn left over any
three points. -/
theorem Bends.triplewise_append (hlow : Bends σ (s :: low ++ [z]))
    (hup : Bends (-σ) (z :: up ++ [s])) : (s :: low ++ z :: up).Triplewise TurnsLeft := by
  obtain ⟨hlowTurns, -, -, hlowEnd⟩ := List.triplewise_append.1 hlow.turns
  obtain ⟨hupTurns, -, -, hupEnd⟩ := List.triplewise_append.1 hup.turns
  refine List.triplewise_append.2 ⟨hlowTurns, hupTurns, fun x hx => ?_, fun w hw => ?_⟩
  · refine List.Pairwise.imp (fun hturn => TurnsLeft.rotate (TurnsLeft.rotate hturn)) ?_
    rcases List.mem_cons.1 hx with rfl | hx
    · exact hupEnd x List.mem_cons_self
    · obtain ⟨hturn, hfrom, hto⟩ := hlow.turnsLeft_between hx
      exact hup.pairwise_across hturn (by linarith) (by linarith)
  · rcases List.mem_cons.1 hw with rfl | hw
    · exact hlowEnd w List.mem_cons_self
    · obtain ⟨hturn, hfrom, hto⟩ := hup.turnsLeft_between hw
      exact hlow.pairwise_across hturn (by linarith) (by linarith)

/-! ## The hull -/

/-- Both ends of a list that differ, and what is between them. -/
theorem exists_eq_between (hhead : l.head? = some z) (hlast : l.getLast? = some s) (hne : s ≠ z) :
    ∃ m, l = z :: (s :: m).reverse := by
  obtain ⟨rest, rfl⟩ := List.head?_eq_some_iff.1 hhead
  cases rest using List.reverseRecOn with
  | nil => exact absurd (Option.some.inj hlast).symm hne
  | append_singleton front t =>
    rw [← List.cons_append, List.getLast?_concat, Option.some.injEq] at hlast
    exact ⟨front.reverse, by simp [hlast]⟩

/-- A hull of three points or more is made of two ways that bend to the left, from the first
point to the last one and back. -/
theorem exists_bends (hlen : ¬ (sortedPoints ps).length < 3) :
    ∃ s z low up, hull ps = s :: low ++ z :: up ∧ Sweeps 1 s z ∧ Bends 1 (s :: low ++ [z]) ∧
      Bends (-1) (z :: up ++ [s]) := by
  have hsorted := pairwise_sortedPoints ps
  have hreverse : (sortedPoints ps).reverse.Pairwise (Sweeps (-1)) :=
    List.pairwise_reverse.2 (hsorted.imp fun h => h.neg)
  have hhull := hull_eq ps
  rw [if_neg hlen] at hhull
  have hends := head?_ne_getLast? hlen hsorted
  have hnil : sortedPoints ps ≠ [] := fun hnil => hlen (by simp [hnil])
  obtain ⟨s, hs⟩ : ∃ s, (sortedPoints ps).head? = some s := ⟨_, List.head?_eq_some_head hnil⟩
  obtain ⟨z, hz⟩ : ∃ z, (sortedPoints ps).getLast? = some z :=
    ⟨_, List.getLast?_eq_some_getLast hnil⟩
  have hne : s ≠ z := fun heq => hends (by rw [hs, hz, heq])
  obtain ⟨low, hlow⟩ := exists_eq_between (l := halfHull (sortedPoints ps))
    (by rw [head?_halfHull, hz]) (by rw [getLast?_halfHull, hs]) hne
  obtain ⟨up, hup⟩ := exists_eq_between (l := halfHull (sortedPoints ps).reverse)
    (by rw [head?_halfHull, List.getLast?_reverse, hs])
    (by rw [getLast?_halfHull, List.head?_reverse, hz]) hne.symm
  have hbelow := bends_halfHull hsorted
  have habove := bends_halfHull hreverse
  rw [hlow, List.reverse_cons, List.reverse_reverse] at hbelow
  rw [hup, List.reverse_cons, List.reverse_reverse] at habove
  refine ⟨s, z, low, up, ?_, ?_, hbelow, habove⟩
  · rw [hhull, hlow, hup, List.tail_cons, List.tail_cons, List.reverse_reverse,
      List.reverse_reverse]
  · exact (List.pairwise_cons.1 hbelow.sweeps).1 z (by simp)

theorem triplewise_of_short {r : Point ℚ → Point ℚ → Point ℚ → Prop} (hlen : l.length < 3) :
    l.Triplewise r := by
  rcases l with _ | ⟨a, _ | ⟨b, _ | ⟨c, rest⟩⟩⟩
  · exact .nil
  · exact List.triplewise_singleton ..
  · exact List.triplewise_pair ..
  · simp only [List.length_cons] at hlen
    omega

/-- The hull turns left over any three of its points in their order. -/
theorem triplewise_hull (ps : List (Point ℚ)) : (hull ps).Triplewise TurnsLeft := by
  by_cases hlen : (sortedPoints ps).length < 3
  · rw [hull_eq, if_pos hlen]
    exact triplewise_of_short hlen
  · obtain ⟨s, z, low, up, hhull, -, hlow, hup⟩ := exists_bends hlen
    rw [hhull]
    exact hlow.triplewise_append hup

theorem nodup_hull (ps : List (Point ℚ)) : (hull ps).Nodup := by
  have hne {σ : ℚ} {p q : Point ℚ} (hsweeps : Sweeps σ p q) : p ≠ q := by
    rintro rfl
    simp [Sweeps] at hsweeps
  by_cases hlen : (sortedPoints ps).length < 3
  · rw [hull_eq, if_pos hlen]
    exact (pairwise_sortedPoints ps).imp hne
  · obtain ⟨s, z, low, up, hhull, hsz, hlow, hup⟩ := exists_bends hlen
    have hturns := hlow.triplewise_append hup
    obtain ⟨-, -, hacross, -⟩ := List.triplewise_append.1 hturns
    obtain ⟨hlowSweeps, -, htoEnd⟩ := List.pairwise_append.1 hlow.sweeps
    rw [hhull]
    refine List.nodup_append.2 ⟨hlowSweeps.imp hne,
      (List.pairwise_append.1 hup.sweeps).1.imp hne, fun p hp q hq => ?_⟩
    rcases List.mem_cons.1 hq with rfl | hq
    · exact hne (htoEnd p hp q List.mem_cons_self)
    · -- a point of both ways would be to the left of itself
      rintro rfl
      have hturn := (List.pairwise_cons.1 (hacross p hp)).1 p hq
      exact absurd hturn (by rw [TurnsLeft, cross_self_left]; exact lt_irrefl 0)

/-! ## Going round -/

open List (IsRotated)

/-- Whether `b` comes next after `a` when one goes round. -/
def IsSide (h : List (Point ℚ)) (a b : Point ℚ) : Prop :=
  ∃ rest, h ~r a :: b :: rest

/-- Whether `b` and then `c` come next after `a` when one goes round. -/
def IsCorner (h : List (Point ℚ)) (a b c : Point ℚ) : Prop :=
  ∃ rest, h ~r a :: b :: c :: rest

/-- Where one begins to go round does not matter. -/
theorem triplewise_of_isRotated (hl : l.Triplewise TurnsLeft) (hrotated : l ~r h) :
    h.Triplewise TurnsLeft := by
  obtain ⟨n, rfl⟩ := hrotated
  rw [List.rotate_eq_drop_append_take_mod]
  rw [← List.take_append_drop (n % l.length) l] at hl
  obtain ⟨hfront, hback, hfirst, hlast⟩ := List.triplewise_append.1 hl
  refine List.triplewise_append.2 ⟨hback, hfront, fun a ha => ?_, fun a ha => ?_⟩
  · exact (hlast a ha).imp fun hturn => hturn.rotate.rotate
  · exact (hfirst a ha).imp fun hturn => hturn.rotate

theorem turnsLeft_of_isCorner (hcorner : IsCorner (hull ps) a b c) : TurnsLeft a b c := by
  obtain ⟨rest, hrotated⟩ := hcorner
  have hturns := triplewise_of_isRotated (triplewise_hull ps) hrotated
  exact (List.pairwise_cons.1 (List.triplewise_cons.1 hturns).1).1 c List.mem_cons_self

/-- The direction across a side, away from what is to its left. -/
def outward (a b : Point ℚ) : Point ℚ := ⟨b.y - a.y, a.x - b.x⟩

theorem cross_eq_project (a b p : Point ℚ) :
    cross a b p = project (outward a b) a - project (outward a b) p := by
  rw [cross_eq, project_eq, project_eq, outward]
  ring

/-- No point is farther to the right of a side than the points of the hull are. -/
theorem cross_nonneg_of_isSide (hside : IsSide (hull ps) a b) (hp : p ∈ ps) :
    0 ≤ cross a b p := by
  obtain ⟨rest, hrotated⟩ := hside
  have hturns := triplewise_of_isRotated (triplewise_hull ps) hrotated
  have hhull : ∀ q ∈ hull ps, 0 ≤ cross a b q := by
    intro q hq
    rcases List.mem_cons.1 (hrotated.mem_iff.1 hq) with rfl | hq
    · exact (cross_self_left q b).ge
    · rcases List.mem_cons.1 hq with rfl | hq
      · exact (cross_self_right a q).ge
      · exact ((List.pairwise_cons.1 (List.triplewise_cons.1 hturns).1).1 q hq).le
  obtain ⟨q, hq, hfar⟩ := reachedBy_hull (outward a b) ps p hp
  have hnonneg := hhull q hq
  rw [cross_eq_project] at hnonneg ⊢
  linarith

/-! ## Hulls without an area -/

theorem eq_of_hull_singleton (hhull : hull ps = [a]) (hp : p ∈ ps) : p = a := by
  have hle (axis : Point ℚ) : project axis p ≤ project axis a := by
    obtain ⟨q, hq, hfar⟩ := reachedBy_hull axis ps p hp
    rw [hhull, List.mem_singleton] at hq
    rwa [hq] at hfar
  have hright := hle ⟨1, 0⟩
  have hleft := hle ⟨-1, 0⟩
  have htop := hle ⟨0, 1⟩
  have hbottom := hle ⟨0, -1⟩
  simp only [project_eq] at hright hleft htop hbottom
  have hx : p.x = a.x := by linarith
  have hy : p.y = a.y := by linarith
  calc p = ⟨p.x, p.y⟩ := rfl
    _ = ⟨a.x, a.y⟩ := by rw [hx, hy]

/-- Whether a point lies on the segment between two others. -/
def LiesBetween (a b p : Point ℚ) : Prop :=
  ∃ t, 0 ≤ t ∧ t ≤ 1 ∧ p.x = a.x + t * (b.x - a.x) ∧ p.y = a.y + t * (b.y - a.y)

/-- A point on the line through two others lies between them if it is not farther along than
they are. -/
theorem liesBetween_of_project (hne : a ≠ b) (hline : cross a b p = 0)
    (hlow : project (b.sub a) a ≤ project (b.sub a) p)
    (hhigh : project (b.sub a) p ≤ project (b.sub a) b) : LiesBetween a b p := by
  obtain ⟨u, hu⟩ : ∃ u, u = b.x - a.x := ⟨_, rfl⟩
  obtain ⟨v, hv⟩ : ∃ v, v = b.y - a.y := ⟨_, rfl⟩
  have hdirection : b.sub a = ⟨u, v⟩ := by rw [hu, hv]; rfl
  have hsize : 0 < u * u + v * v := by
    refine (add_nonneg (mul_self_nonneg u) (mul_self_nonneg v)).lt_of_ne' fun hzero => hne ?_
    obtain ⟨hx, hy⟩ := mul_self_add_mul_self_eq_zero.1 hzero
    rw [hu, sub_eq_zero] at hx
    rw [hv, sub_eq_zero] at hy
    calc a = ⟨a.x, a.y⟩ := rfl
      _ = ⟨b.x, b.y⟩ := by rw [hx, hy]
  rw [hdirection] at hlow hhigh
  simp only [project_eq] at hlow hhigh
  rw [cross_eq, ← hu, ← hv] at hline
  refine ⟨((p.x - a.x) * u + (p.y - a.y) * v) / (u * u + v * v), ?_, ?_, ?_, ?_⟩
  · exact div_nonneg (by linarith) hsize.le
  · rw [div_le_one hsize]
    have hwhole : (b.x - a.x) * u + (b.y - a.y) * v = u * u + v * v := by rw [← hu, ← hv]
    linarith
  · rw [← hu, div_mul_eq_mul_div, ← sub_eq_iff_eq_add', eq_div_iff hsize.ne']
    linear_combination -v * hline
  · rw [← hv, div_mul_eq_mul_div, ← sub_eq_iff_eq_add', eq_div_iff hsize.ne']
    linear_combination u * hline

theorem liesBetween_of_hull_pair (hhull : hull ps = [a, b]) (hp : p ∈ ps) :
    LiesBetween a b p := by
  have hne : a ≠ b := by
    have hnodup := nodup_hull ps
    rw [hhull] at hnodup
    simpa using hnodup
  have hline : cross a b p = 0 := by
    have hleft := cross_nonneg_of_isSide ⟨[], by rw [hhull]⟩ hp (a := a) (b := b)
    have hright := cross_nonneg_of_isSide (a := b) (b := a) ⟨[], hhull ▸ ⟨1, rfl⟩⟩ hp
    have hback : cross b a p = -cross a b p := by
      rw [cross_eq, cross_eq]
      ring
    linarith
  have hends : project (b.sub a) a ≤ project (b.sub a) b := by
    have hsquares := add_nonneg (mul_self_nonneg (b.x - a.x)) (mul_self_nonneg (b.y - a.y))
    have hsub : b.sub a = ⟨b.x - a.x, b.y - a.y⟩ := rfl
    rw [project_eq, project_eq, hsub]
    linarith
  have hreach := reachedBy_hull (b.sub a) ps p hp
  have hback := reachedBy_hull ⟨-(b.sub a).x, -(b.sub a).y⟩ ps p hp
  simp only [hhull, List.mem_cons, List.not_mem_nil, or_false, exists_eq_or_imp, exists_eq_left,
    project_neg, neg_le_neg_iff] at hreach hback
  refine liesBetween_of_project hne hline ?_ ?_
  · exact hback.elim id fun hb => hends.trans hb
  · exact hreach.elim (fun ha => ha.trans hends) id

/-! ## Extremes -/

section

variable {xs ys : List ℚ}

theorem max?_eq_of_reached (hsub : xs ⊆ ys) (hreach : ∀ y ∈ ys, ∃ x ∈ xs, y ≤ x) :
    xs.max? = ys.max? := by
  cases hmax : ys.max? with
  | none =>
    rw [List.max?_eq_none_iff] at hmax ⊢
    exact List.subset_nil.1 (hmax ▸ hsub)
  | some m =>
    obtain ⟨hm, hall⟩ := List.max?_eq_some_iff.1 hmax
    obtain ⟨x, hx, hmx⟩ := hreach m hm
    have heq : x = m := le_antisymm (hall x (hsub hx)) hmx
    exact List.max?_eq_some_iff.2 ⟨heq ▸ hx, fun y hy => hall y (hsub hy)⟩

theorem min?_eq_of_reached (hsub : xs ⊆ ys) (hreach : ∀ y ∈ ys, ∃ x ∈ xs, x ≤ y) :
    xs.min? = ys.min? := by
  cases hmin : ys.min? with
  | none =>
    rw [List.min?_eq_none_iff] at hmin ⊢
    exact List.subset_nil.1 (hmin ▸ hsub)
  | some m =>
    obtain ⟨hm, hall⟩ := List.min?_eq_some_iff.1 hmin
    obtain ⟨x, hx, hmx⟩ := hreach m hm
    have heq : x = m := le_antisymm hmx (hall x (hsub hx))
    exact List.min?_eq_some_iff.2 ⟨heq ▸ hx, fun y hy => hall y (hsub hy)⟩

end

theorem map_project_hull_subset (axis : Point ℚ) (ps : List (Point ℚ)) :
    (hull ps).map (project axis) ⊆ ps.map (project axis) :=
  List.map_subset _ (hull_subset ps)

theorem max?_project_hull (axis : Point ℚ) (ps : List (Point ℚ)) :
    ((hull ps).map (project axis)).max? = (ps.map (project axis)).max? := by
  refine max?_eq_of_reached (map_project_hull_subset axis ps) fun y hy => ?_
  obtain ⟨p, hp, rfl⟩ := List.mem_map.1 hy
  obtain ⟨q, hq, hfar⟩ := reachedBy_hull axis ps p hp
  exact ⟨project axis q, List.mem_map_of_mem hq, hfar⟩

theorem min?_project_hull (axis : Point ℚ) (ps : List (Point ℚ)) :
    ((hull ps).map (project axis)).min? = (ps.map (project axis)).min? := by
  refine min?_eq_of_reached (map_project_hull_subset axis ps) fun y hy => ?_
  obtain ⟨p, hp, rfl⟩ := List.mem_map.1 hy
  obtain ⟨q, hq, hfar⟩ := reachedBy_hull ⟨-axis.x, -axis.y⟩ ps p hp
  rw [project_neg, project_neg, neg_le_neg_iff] at hfar
  exact ⟨project axis q, List.mem_map_of_mem hq, hfar⟩

/-! ## The convex hull -/

/-- What makes points the corners of the convex hull of others, counter-clockwise. -/
structure IsConvexHull (ps h : List (Point ℚ)) : Prop where
  subset : h ⊆ ps
  nodup : h.Nodup
  corner : ∀ a b c, IsCorner h a b c → TurnsLeft a b c
  side : ∀ a b, IsSide h a b → ∀ p ∈ ps, 0 ≤ cross a b p
  point : ∀ a, h = [a] → ∀ p ∈ ps, p = a
  segment : ∀ a b, h = [a, b] → ∀ p ∈ ps, LiesBetween a b p
  greatest : ∀ axis, (h.map (project axis)).max? = (ps.map (project axis)).max?
  least : ∀ axis, (h.map (project axis)).min? = (ps.map (project axis)).min?

theorem isConvexHull_hull (ps : List (Point ℚ)) : IsConvexHull ps (hull ps) where
  subset := hull_subset ps
  nodup := nodup_hull ps
  corner _ _ _ hcorner := turnsLeft_of_isCorner hcorner
  side _ _ hside _ hp := cross_nonneg_of_isSide hside hp
  point _ hhull _ hp := eq_of_hull_singleton hhull hp
  segment _ _ hhull _ hp := liesBetween_of_hull_pair hhull hp
  greatest axis := max?_project_hull axis ps
  least axis := min?_project_hull axis ps

/-- Points inside, on a side and given twice are left out. -/
example : hull [⟨0, 0⟩, ⟨1, 1⟩, ⟨2, 0⟩, ⟨1, 1 / 2⟩, ⟨1, -1⟩, ⟨0, 0⟩, ⟨3 / 2, 1 / 2⟩] =
    ([⟨0, 0⟩, ⟨1, -1⟩, ⟨2, 0⟩, ⟨1, 1⟩] : List (Point ℚ)) := by
  cbv

end Geometry
end SvgCompact
