import Mathlib
import SvgCompact.Proofs.Geometry.Separation
import SvgCompact.Proofs.Decimal.Order
import SvgCompact.Proofs.Path.Joining

/-!
The outline of a path lies among its points.

The lines and curves that commands draw are told here from the commands before them alone:
where the last one ended, where the last move went, and which control point stands right
before.  The pen that collects the points of a path carries the same along, so the control
points of everything it draws are among the points of the subpath, and a curve never leaves
the convex hull of its control points.  Numbers are exact here.
-/

namespace SvgCompact

open Double (number)

/-! ## Exact paths -/

def Point.exact (p : Point Float) : Point ℚ :=
  ⟨number p.x, number p.y⟩

def Segment.exact : Segment Float → Segment ℚ
  | moveTo p => moveTo p.exact
  | lineTo p => lineTo p.exact
  | horizontalTo x => horizontalTo (number x)
  | verticalTo y => verticalTo (number y)
  | curveTo a b p => curveTo a.exact b.exact p.exact
  | smoothCurveTo b p => smoothCurveTo b.exact p.exact
  | quadTo a p => quadTo a.exact p.exact
  | smoothQuadTo p => smoothQuadTo p.exact
  | arc radii rotation large sweep p => arc radii.exact (number rotation) large sweep p.exact
  | closePath => closePath

theorem Segment.instruction_exact (s : Segment Float) : s.exact.instruction = s.instruction := by
  cases s <;> rfl

def Command.exact (c : Command Float) : Command ℚ :=
  ⟨c.relative, c.segment.exact⟩

/-- A path whose numbers are taken for the rationals that they stand for. -/
def Path.exact (path : Path Float) : Path ℚ :=
  path.map Command.exact

namespace Geometry

/-! ## Strokes -/

/-- A line or a curve with its ends and control points in order. -/
inductive Stroke
  | line (a b : Point ℚ)
  | quadratic (a b c : Point ℚ)
  | cubic (a b c d : Point ℚ)

namespace Stroke

def controls : Stroke → List (Point ℚ)
  | line a b => [a, b]
  | quadratic a b c => [a, b, c]
  | cubic a b c d => [a, b, c, d]

/-- The point of a stroke at a parameter between zero and one. -/
def point (t : ℚ) : Stroke → Point ℚ
  | line a b => ⟨(1 - t) * a.x + t * b.x, (1 - t) * a.y + t * b.y⟩
  | quadratic a b c =>
    ⟨(1 - t) ^ 2 * a.x + 2 * (1 - t) * t * b.x + t ^ 2 * c.x,
      (1 - t) ^ 2 * a.y + 2 * (1 - t) * t * b.y + t ^ 2 * c.y⟩
  | cubic a b c d =>
    ⟨(1 - t) ^ 3 * a.x + 3 * (1 - t) ^ 2 * t * b.x + 3 * (1 - t) * t ^ 2 * c.x + t ^ 3 * d.x,
      (1 - t) ^ 3 * a.y + 3 * (1 - t) ^ 2 * t * b.y + 3 * (1 - t) * t ^ 2 * c.y + t ^ 3 * d.y⟩

end Stroke

/-! ### What commands draw

Commands that were drawn before come here with the latest one in front. -/

/-- A control point on the other side of a point. -/
def mirrored (control about : Point ℚ) : Point ℚ :=
  ⟨2 * about.x - control.x, 2 * about.y - control.y⟩

/-- What the coordinates of a command count from that begins somewhere. -/
def base (here : Point ℚ) (c : Command ℚ) : Point ℚ :=
  if c.relative then here else Point.origin

mutual

/-- Where the drawing has got to. -/
def position : List (Command ℚ) → Point ℚ
  | [] => Point.origin
  | c :: before =>
    let here := position before
    match c.segment with
    | .moveTo p => p.add (base here c)
    | .lineTo p => p.add (base here c)
    | .horizontalTo x => ⟨x + (base here c).x, here.y⟩
    | .verticalTo y => ⟨here.x, y + (base here c).y⟩
    | .curveTo _ _ p => p.add (base here c)
    | .smoothCurveTo _ p => p.add (base here c)
    | .quadTo _ p => p.add (base here c)
    | .smoothQuadTo p => p.add (base here c)
    | .arc _ _ _ _ p => p.add (base here c)
    | .closePath => lastMove before

/-- Where the last move went. -/
def lastMove : List (Command ℚ) → Point ℚ
  | [] => Point.origin
  | c :: before =>
    match c.segment with
    | .moveTo p => p.add (base (position before) c)
    | _ => lastMove before

end

/-- The first control point of a smooth cubic curve: the mirror image of the last one if a
cubic curve comes right before. -/
def cubicControl : List (Command ℚ) → Point ℚ
  | [] => Point.origin
  | c :: before =>
    let base := base (position before) c
    match c.segment with
    | .curveTo _ b p => mirrored (b.add base) (p.add base)
    | .smoothCurveTo b p => mirrored (b.add base) (p.add base)
    | _ => position (c :: before)

/-- The control point of a smooth quadratic curve: the mirror image of the one of a quadratic
curve right before. -/
def quadraticControl : List (Command ℚ) → Point ℚ
  | [] => Point.origin
  | c :: before =>
    let base := base (position before) c
    match c.segment with
    | .quadTo a p => mirrored (a.add base) (p.add base)
    | .smoothQuadTo p => mirrored (quadraticControl before) (p.add base)
    | _ => position (c :: before)

/-- The line or curve that a command draws.  A move draws nothing, and an arc is no stroke. -/
def stroke? (before : List (Command ℚ)) (c : Command ℚ) : Option Stroke :=
  let here := position before
  let base := base here c
  match c.segment with
  | .moveTo _ => none
  | .lineTo p => some (.line here (p.add base))
  | .horizontalTo x => some (.line here ⟨x + base.x, here.y⟩)
  | .verticalTo y => some (.line here ⟨here.x, y + base.y⟩)
  | .curveTo a b p => some (.cubic here (a.add base) (b.add base) (p.add base))
  | .smoothCurveTo b p => some (.cubic here (cubicControl before) (b.add base) (p.add base))
  | .quadTo a p => some (.quadratic here (a.add base) (p.add base))
  | .smoothQuadTo p => some (.quadratic here (quadraticControl before) (p.add base))
  | .arc _ _ _ _ _ => none
  | .closePath => some (.line here (lastMove before))

theorem exists_stroke {before : List (Command ℚ)} {c : Command ℚ}
    (hmove : c.segment.instruction ≠ .moveTo) (harc : c.segment.instruction ≠ .arc) :
    ∃ stroke, stroke? before c = some stroke := by
  obtain ⟨relative, segment⟩ := c
  cases segment with
  | moveTo p => exact absurd rfl hmove
  | arc => exact absurd rfl harc
  | _ => exact ⟨_, rfl⟩

/-- The control point of a shorthand is the mirror image of the one right before. -/
example : stroke? [⟨true, .quadTo ⟨1, 2⟩ ⟨3, 0⟩⟩, ⟨false, .moveTo ⟨1, 1⟩⟩]
    ⟨true, .smoothQuadTo ⟨2, 1⟩⟩ = some (.quadratic ⟨4, 1⟩ ⟨6, -1⟩ ⟨6, 2⟩) := by
  cbv

/-! ## What the pen carries along -/

/-- A pen that has drawn commands is where they end. -/
structure Carries (before : List (Command ℚ)) (pen : Pen ℚ) : Prop where
  current : pen.current = position before
  start : pen.start = lastMove before
  cubic : pen.mirror pen.cubic = cubicControl before
  quadratic : pen.mirror pen.quadratic = quadraticControl before

/-- The absolute segment of a command. -/
def placed (pen : Pen ℚ) (c : Command ℚ) : Segment ℚ :=
  c.segment.shift (base pen.current c)

theorem mirror_some (pen : Pen ℚ) (control : Point ℚ) :
    pen.mirror (some control) = mirrored control pen.current := by
  have htwo : (Scalar.two : ℚ) = 2 := one_add_one_eq_two
  rw [Pen.mirror, mirrored, htwo]

theorem carries_initial : Carries [] Pen.initial :=
  ⟨rfl, rfl, rfl, rfl⟩

variable {before rest : List (Command ℚ)} {pen : Pen ℚ} {begun ps : List (Point ℚ)}
  {c : Command ℚ}

theorem current_after (pen : Pen ℚ) (s : Segment ℚ) :
    (pen.after s).current = s.finish pen.current pen.start := by
  cases s <;> rfl

theorem start_after (pen : Pen ℚ) (s : Segment ℚ) :
    (pen.after s).start = s.nextStart pen.start := by
  cases s <;> rfl

theorem Carries.after (h : Carries before pen) (c : Command ℚ) :
    Carries (c :: before) (pen.after (placed pen c)) := by
  have hcurrent : (pen.after (placed pen c)).current = position (c :: before) := by
    rw [current_after, placed, h.current, h.start, position]
    cases c.segment <;> rfl
  have hstart : (pen.after (placed pen c)).start = lastMove (c :: before) := by
    rw [start_after, placed, h.current, h.start, lastMove]
    cases c.segment <;> rfl
  have hplaced : placed pen c = c.segment.shift (base (position before) c) := by
    rw [placed, h.current]
  refine ⟨hcurrent, hstart, ?_, ?_⟩
  · rw [hplaced] at hcurrent ⊢
    obtain ⟨relative, segment⟩ := c
    cases segment with
    | curveTo a b p => exact mirror_some _ _
    | smoothCurveTo b p => exact mirror_some _ _
    | _ => exact hcurrent
  · rw [hplaced] at hcurrent ⊢
    obtain ⟨relative, segment⟩ := c
    cases segment with
    | quadTo a p => exact mirror_some _ _
    | smoothQuadTo p =>
      refine (mirror_some _ _).trans ?_
      rw [h.quadratic]
      rfl
    | _ => exact hcurrent

/-! ## The points of a subpath -/

theorem subpathsFrom_cons (pen : Pen ℚ) (begun : List (Point ℚ)) (c : Command ℚ)
    (rest : Path ℚ) :
    subpathsFrom pen begun (Path.absoluteFrom pen.current pen.start (c :: rest)) =
      let next := pen.after (placed pen c)
      let points := pen.points (placed pen c)
      if c.segment.instruction = .moveTo then
        begun :: subpathsFrom next points (Path.absoluteFrom next.current next.start rest)
      else
        subpathsFrom next (begun ++ points) (Path.absoluteFrom next.current next.start rest) := by
  obtain ⟨relative, segment⟩ := c
  cases segment <;> rfl

/-- A pen that is drawing a subpath, with the points of the subpath so far. -/
structure Draws (before : List (Command ℚ)) (pen : Pen ℚ) (begun : List (Point ℚ)) : Prop where
  carries : Carries before pen
  current : pen.current ∈ begun
  start : pen.start ∈ begun

theorem finish_mem_points (pen : Pen ℚ) (s : Segment ℚ) :
    s.finish pen.current pen.start ∈ pen.points s ∨ s.finish pen.current pen.start = pen.start := by
  cases s <;> simp [Segment.finish, Pen.points]

/-- A move begins a subpath. -/
theorem Carries.move (h : Carries before pen) (hmove : c.segment.instruction = .moveTo) :
    Draws (c :: before) (pen.after (placed pen c)) (pen.points (placed pen c)) := by
  refine ⟨h.after c, ?_, ?_⟩
  · rw [current_after]
    obtain ⟨relative, segment⟩ := c
    cases segment <;> cases hmove
    exact List.mem_singleton_self _
  · rw [start_after]
    obtain ⟨relative, segment⟩ := c
    cases segment <;> cases hmove
    exact List.mem_singleton_self _

/-- All other commands go on with it. -/
theorem Draws.next (h : Draws before pen begun) (hmove : c.segment.instruction ≠ .moveTo) :
    Draws (c :: before) (pen.after (placed pen c)) (begun ++ pen.points (placed pen c)) := by
  refine ⟨h.carries.after c, ?_, ?_⟩
  · rw [current_after, List.mem_append]
    rcases finish_mem_points pen (placed pen c) with hmem | heq
    · exact .inr hmem
    · exact .inl (by rw [heq]; exact h.start)
  · have hstart : (placed pen c).nextStart pen.start = pen.start := by
      rw [placed]
      obtain ⟨relative, segment⟩ := c
      cases segment with
      | moveTo p => exact absurd rfl hmove
      | _ => rfl
    rw [start_after, hstart]
    exact List.mem_append_left _ h.start

/-- What is drawn is bounded by the points so far and those that the pen lists for it. -/
theorem Draws.controls_subset (h : Draws before pen begun) {stroke : Stroke}
    (hstroke : stroke? before c = some stroke) :
    stroke.controls ⊆ begun ++ pen.points (placed pen c) := by
  have hhere : position before ∈ begun := h.carries.current ▸ h.current
  have hmove : lastMove before ∈ begun := h.carries.start ▸ h.start
  obtain ⟨hcurrent, -, hcubic, hquadratic⟩ := h.carries
  rw [placed, hcurrent]
  obtain ⟨relative, segment⟩ := c
  cases segment <;> cases hstroke <;>
    simp [Stroke.controls, Pen.points, Segment.shift, hhere, hmove, hcurrent, hcubic, hquadratic]

/-- The subpath that is being drawn holds at least the points so far. -/
theorem begun_subset (pen : Pen ℚ) (begun : List (Point ℚ)) (path : Path ℚ) :
    ∃ ps, (subpathsFrom pen begun path)[0]? = some ps ∧ begun ⊆ ps := by
  induction path generalizing pen begun with
  | nil => exact ⟨begun, rfl, List.Subset.refl _⟩
  | cons c rest ih =>
    rw [subpathsFrom]
    split
    · exact ⟨begun, rfl, List.Subset.refl _⟩
    · obtain ⟨ps, hps, hsub⟩ := ih (pen.after c.segment) (begun ++ pen.points c.segment)
      exact ⟨ps, hps, List.Subset.trans (List.subset_append_left ..) hsub⟩

/-- How many subpaths commands begin. -/
def moves {α : Type} (path : Path α) : Nat :=
  path.countP fun c => c.segment.instruction == .moveTo

/-- What a command draws behind others is bounded by the points of the subpath that it comes
in. -/
theorem Draws.controls_subset_subpathsFrom (h : Draws before pen begun) {path after : Path ℚ}
    {stroke : Stroke} (hstroke : stroke? (path.reverse ++ before) c = some stroke) :
    ∃ ps, (subpathsFrom pen begun
        (Path.absoluteFrom pen.current pen.start (path ++ c :: after)))[moves path]? = some ps ∧
      stroke.controls ⊆ ps := by
  induction path generalizing before pen begun with
  | nil =>
    have hmove : ¬ c.segment.instruction = .moveTo := by
      obtain ⟨relative, segment⟩ := c
      cases segment <;> cases hstroke <;> simp [Segment.instruction]
    rw [List.nil_append, subpathsFrom_cons]
    simp only [hmove, if_false]
    obtain ⟨ps, hps, hsub⟩ := begun_subset (pen.after (placed pen c))
      (begun ++ pen.points (placed pen c)) _
    exact ⟨ps, hps, List.Subset.trans (h.controls_subset hstroke) hsub⟩
  | cons d path ih =>
    rw [List.reverse_cons, List.append_assoc] at hstroke
    rw [List.cons_append, subpathsFrom_cons]
    by_cases hmove : d.segment.instruction = .moveTo
    · have hmoves : moves (d :: path) = moves path + 1 :=
        List.countP_cons_of_pos (by simpa using hmove)
      simp only [hmove, if_true, hmoves, List.getElem?_cons_succ]
      exact ih (h.carries.move hmove) hstroke
    · have hmoves : moves (d :: path) = moves path :=
        List.countP_cons_of_neg (by simpa using hmove)
      simp only [hmove, if_false, hmoves]
      exact ih (h.next hmove) hstroke

theorem ne_nil_of_mem_subpathsFrom (pen : Pen ℚ) (hbegun : begun ≠ []) (path : Path ℚ) :
    ∀ ps ∈ subpathsFrom pen begun path, ps ≠ [] := by
  induction path generalizing pen begun with
  | nil => simpa [subpathsFrom] using hbegun
  | cons d rest ih =>
    rw [subpathsFrom]
    split
    · next p hp =>
      refine List.forall_mem_cons.2 ⟨hbegun, ih _ ?_⟩
      rw [hp]
      exact List.cons_ne_nil _ _
    · exact ih _ (by simp [hbegun])

/-- A path that begins with a move has a subpath for every move. -/
theorem subpaths_of_move (hmove : c.segment.instruction = .moveTo) (rest : Path ℚ) :
    subpaths (c :: rest) =
      subpathsFrom (Pen.initial.after (placed .initial c)) (Pen.initial.points (placed .initial c))
        (Path.absoluteFrom (Pen.initial.after (placed .initial c)).current
          (Pen.initial.after (placed .initial c)).start rest) := by
  have hne : Pen.initial.points (placed .initial c) ≠ [] :=
    List.ne_nil_of_mem (carries_initial.move hmove).current
  have hfull := ne_nil_of_mem_subpathsFrom (Pen.initial.after (placed .initial c)) hne
    (Path.absoluteFrom (Pen.initial.after (placed .initial c)).current
      (Pen.initial.after (placed .initial c)).start rest)
  have hcons := subpathsFrom_cons Pen.initial [] c rest
  simp only [hmove, if_true] at hcons
  rw [subpaths, Path.absolute]
  exact (congrArg _ hcons).trans
    ((List.filter_cons_of_neg (by simp)).trans (List.filter_eq_self.2 (by simpa using hfull)))

/-- Every command but the moves draws in the subpath of the last move before it. -/
theorem controls_subset_subpaths {path after : Path ℚ} {stroke : Stroke}
    (hbegins : ∀ d ∈ (path ++ c :: after).head?, d.segment.instruction = .moveTo)
    (hstroke : stroke? path.reverse c = some stroke) :
    ∃ ps, (subpaths (path ++ c :: after))[moves path - 1]? = some ps ∧ stroke.controls ⊆ ps := by
  cases path with
  | nil =>
    have hmove : c.segment.instruction = .moveTo := hbegins c rfl
    obtain ⟨relative, segment⟩ := c
    cases segment <;> cases hmove
    cases hstroke
  | cons d path =>
    have hmove : d.segment.instruction = .moveTo := hbegins d rfl
    have hmoves : moves (d :: path) - 1 = moves path := by
      rw [moves, List.countP_cons_of_pos (by simpa using hmove), Nat.add_sub_cancel, moves]
    rw [List.reverse_cons] at hstroke
    rw [List.cons_append, subpaths_of_move hmove, hmoves]
    exact (carries_initial.move hmove).controls_subset_subpathsFrom hstroke

/-! ## Inside the hull -/

/-- The convex combinations of points. -/
def region (ps : List (Point ℚ)) : Set (ℚ × ℚ) :=
  convexHull ℚ {v | ∃ p ∈ ps, (p.x, p.y) = v}

theorem mem_region {p : Point ℚ} (hp : p ∈ ps) : (p.x, p.y) ∈ region ps :=
  subset_convexHull ℚ _ ⟨p, hp, rfl⟩

/-- The point that divides the way between two points at a ratio. -/
def between (t : ℚ) (p q : Point ℚ) : Point ℚ :=
  ⟨(1 - t) * p.x + t * q.x, (1 - t) * p.y + t * q.y⟩

section

variable {t : ℚ} {p q : Point ℚ}

theorem between_mem_region (h0 : 0 ≤ t) (h1 : t ≤ 1) (hp : (p.x, p.y) ∈ region ps)
    (hq : (q.x, q.y) ∈ region ps) :
    ((between t p q).x, (between t p q).y) ∈ region ps :=
  convex_convexHull ℚ _ hp hq (sub_nonneg.2 h1) h0 (sub_add_cancel 1 t)

/-- A quadratic curve is drawn by two dividing points and one between these. -/
theorem point_quadratic (t : ℚ) (a b c : Point ℚ) :
    (Stroke.quadratic a b c).point t = between t (between t a b) (between t b c) := by
  simp only [Stroke.point, between, Point.mk.injEq]
  constructor <;> ring

theorem point_cubic (t : ℚ) (a b c d : Point ℚ) :
    (Stroke.cubic a b c d).point t =
      between t ((Stroke.quadratic a b c).point t) ((Stroke.quadratic b c d).point t) := by
  simp only [Stroke.point, between, Point.mk.injEq]
  constructor <;> ring

/-- A stroke stays inside the hull of its control points. -/
theorem point_mem_region (stroke : Stroke) (h0 : 0 ≤ t) (h1 : t ≤ 1)
    (h : ∀ p ∈ stroke.controls, (p.x, p.y) ∈ region ps) :
    ((stroke.point t).x, (stroke.point t).y) ∈ region ps := by
  have hquadratic (a b c : Point ℚ) (ha : (a.x, a.y) ∈ region ps) (hb : (b.x, b.y) ∈ region ps)
      (hc : (c.x, c.y) ∈ region ps) :
      (((Stroke.quadratic a b c).point t).x, ((Stroke.quadratic a b c).point t).y) ∈
        region ps := by
    rw [point_quadratic]
    exact between_mem_region h0 h1 (between_mem_region h0 h1 ha hb)
      (between_mem_region h0 h1 hb hc)
  cases stroke with
  | line a b =>
    simp only [Stroke.controls, List.forall_mem_cons] at h
    exact between_mem_region h0 h1 h.1 h.2.1
  | quadratic a b c =>
    simp only [Stroke.controls, List.forall_mem_cons] at h
    exact hquadratic a b c h.1 h.2.1 h.2.2.1
  | cubic a b c d =>
    simp only [Stroke.controls, List.forall_mem_cons] at h
    rw [point_cubic]
    exact between_mem_region h0 h1 (hquadratic a b c h.1 h.2.1 h.2.2.1)
      (hquadratic b c d h.2.1 h.2.2.1 h.2.2.2.1)

end

/-- What lies between points of a box lies in the box. -/
theorem holds_of_mem_region {box : Box ℚ} (h : ∀ p ∈ ps, Holds box p) {v : ℚ × ℚ}
    (hv : v ∈ region ps) : Holds box ⟨v.1, v.2⟩ := by
  have hsub : region ps ⊆ Set.Icc (box.minX, box.minY) (box.maxX, box.maxY) := by
    refine convexHull_min ?_ (convex_Icc _ _)
    rintro v ⟨p, hp, rfl⟩
    obtain ⟨hminX, hminY, hmaxX, hmaxY⟩ := h p hp
    exact ⟨⟨hminX, hminY⟩, hmaxX, hmaxY⟩
  obtain ⟨⟨hminX, hminY⟩, hmaxX, hmaxY⟩ := hsub hv
  exact ⟨hminX, hminY, hmaxX, hmaxY⟩

/-! ## Paths that were read -/

theorem moves_exact (path : Path Float) : moves path.exact = moves path := by
  rw [moves, moves, Path.exact, List.countP_map]
  refine List.countP_congr fun d _ => ?_
  rw [Function.comp_apply, Command.exact, Segment.instruction_exact]

/-- Whatever a command of a path draws, an arc apart, lies among the points of the subpath
that it comes in, and so in the box around the path. -/
theorem outline_mem_region {d : String} {path before after : Path Float} {c : Command Float}
    (hread : Path.read d = .ok path) (hpath : path = before ++ c :: after)
    (hmove : c.segment.instruction ≠ .moveTo) (harc : c.segment.instruction ≠ .arc) :
    ∃ stroke ps, stroke? (Path.exact before).reverse c.exact = some stroke ∧
      (subpaths path.exact)[moves before - 1]? = some ps ∧
      ∀ t : ℚ, 0 ≤ t → t ≤ 1 →
        ((stroke.point t).x, (stroke.point t).y) ∈ region ps ∧
          ∃ box, boxOf? path.exact = some box ∧ Holds box (stroke.point t) := by
  have hexists : ∃ stroke, stroke? (Path.exact before).reverse c.exact = some stroke :=
    exists_stroke (by rwa [Command.exact, Segment.instruction_exact])
      (by rwa [Command.exact, Segment.instruction_exact])
  obtain ⟨stroke, hstroke⟩ := hexists
  have hexact : path.exact = Path.exact before ++ c.exact :: Path.exact after := by
    rw [hpath, Path.exact, List.map_append]
    rfl
  have hbegins : ∀ k ∈ path.exact.head?, k.segment.instruction = .moveTo := by
    intro k hk
    rw [Path.exact, List.head?_map] at hk
    obtain ⟨first, hfirst, rfl⟩ := Option.mem_map.1 hk
    rw [Command.exact, Segment.instruction_exact]
    exact Path.beginsWithMove_of_read hread first hfirst
  rw [hexact] at hbegins
  obtain ⟨ps, hps, hcontrols⟩ := controls_subset_subpaths hbegins hstroke
  rw [moves_exact, ← hexact] at hps
  obtain ⟨box, hbox, hholds⟩ := exists_box (List.mem_of_getElem? hps)
  refine ⟨stroke, ps, hstroke, hps, fun t h0 h1 => ?_⟩
  have hinside := point_mem_region stroke h0 h1 fun p hp => mem_region (hcontrols hp)
  exact ⟨hinside, box, hbox, holds_of_mem_region hholds hinside⟩

/-- A smooth curve behind a subpath that was closed has no control point to mirror. -/
theorem outline_mem_region_closed :
    ∃ path before c, Path.read "m1 1q1 2 3 .5t2 1zs1-1 2 2" = .ok path ∧
      path = before ++ [c] ∧ c.segment.instruction ≠ .moveTo ∧ c.segment.instruction ≠ .arc ∧
      ∃ stroke ps, stroke? (Path.exact before).reverse c.exact = some stroke ∧
        (subpaths path.exact)[moves before - 1]? = some ps ∧
        ∀ t : ℚ, 0 ≤ t → t ≤ 1 →
          ((stroke.point t).x, (stroke.point t).y) ∈ region ps ∧
            ∃ box, boxOf? path.exact = some box ∧ Holds box (stroke.point t) := by
  have hread : Path.read "m1 1q1 2 3 .5t2 1zs1-1 2 2" = .ok
      ([⟨true, .moveTo ⟨1.0, 1.0⟩⟩, ⟨true, .quadTo ⟨1.0, 2.0⟩ ⟨3.0, 0.5⟩⟩,
        ⟨true, .smoothQuadTo ⟨2.0, 1.0⟩⟩, ⟨true, .closePath⟩] ++
        [⟨true, .smoothCurveTo ⟨1.0, -1.0⟩ ⟨2.0, 2.0⟩⟩]) := by
    decide +kernel
  exact ⟨_, _, _, hread, rfl, by decide, by decide,
    outline_mem_region hread rfl (by decide) (by decide)⟩

end Geometry
end SvgCompact
