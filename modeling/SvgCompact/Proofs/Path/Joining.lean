import SvgCompact.Proofs.Decimal.Bits
import SvgCompact.Proofs.Path.RoundTrip

/-!
Joined paths.

The absolute form of a joined path is that of its parts in a row, and it comes back from a
text written without rounding, but for the signs of zeros.  `unsigned` leaves these out of
a path; adding coordinates does not need them.
-/

namespace SvgCompact

/-! ## Without the signs of zeros -/

def Point.unsigned (p : Point Float) : Point Float :=
  ⟨Double.unsigned p.x, Double.unsigned p.y⟩

def Argument.unsigned : Argument Float → Argument Float
  | number x => number (Double.unsigned x)
  | flag b => flag b

namespace Segment

def unsigned : Segment Float → Segment Float
  | moveTo p => moveTo p.unsigned
  | lineTo p => lineTo p.unsigned
  | horizontalTo x => horizontalTo (Double.unsigned x)
  | verticalTo y => verticalTo (Double.unsigned y)
  | curveTo a b p => curveTo a.unsigned b.unsigned p.unsigned
  | smoothCurveTo b p => smoothCurveTo b.unsigned p.unsigned
  | quadTo a p => quadTo a.unsigned p.unsigned
  | smoothQuadTo p => smoothQuadTo p.unsigned
  | arc radii rotation large sweep p =>
    arc radii.unsigned (Double.unsigned rotation) large sweep p.unsigned
  | closePath => closePath

theorem instruction_unsigned (s : Segment Float) : s.unsigned.instruction = s.instruction := by
  cases s <;> rfl

theorem arguments_unsigned (s : Segment Float) :
    s.unsigned.arguments = s.arguments.map Argument.unsigned := by
  cases s <;> rfl

/-- What a segment does and its arguments are all there is to it. -/
theorem eq_of_arguments {α : Type} {s t : Segment α} (hinstruction : s.instruction = t.instruction)
    (harguments : s.arguments = t.arguments) : s = t := by
  cases s <;> cases t <;> cases hinstruction <;>
    grind [arguments, Point.arguments, cases Point]

end Segment

def Command.unsigned (c : Command Float) : Command Float :=
  ⟨c.relative, c.segment.unsigned⟩

namespace Path

open Decimal PathReader Double

def unsigned (path : Path Float) : Path Float :=
  path.map Command.unsigned

theorem unsigned_cons (c : Command Float) (path : Path Float) :
    unsigned (c :: path) = c.unsigned :: unsigned path := rfl

theorem unsigned_append (a b : Path Float) : unsigned (a ++ b) = unsigned a ++ unsigned b :=
  List.map_append

/-! ## Absolute forms -/

theorem unsigned_shift (offset : Point Float) (s : Segment Float) :
    (s.unsigned.shift offset.unsigned).unsigned = (s.shift offset).unsigned := by
  cases s <;> simp only [Segment.unsigned, Segment.shift, Point.unsigned, Point.add, unsigned_add,
    unsigned_unsigned]

theorem unsigned_finish (current start : Point Float) (s : Segment Float) :
    (s.finish current start).unsigned =
      s.unsigned.finish current.unsigned start.unsigned := by
  cases s <;> rfl

theorem unsigned_nextStart (start : Point Float) (s : Segment Float) :
    (s.nextStart start).unsigned = s.unsigned.nextStart start.unsigned := by
  cases s <;> rfl

/-- Paths that are the same but for the signs of zeros have such absolute forms. -/
theorem unsigned_absoluteFrom {p q : Path Float} (h : unsigned p = unsigned q)
    {current start current' start' : Point Float} (hcurrent : current.unsigned = current'.unsigned)
    (hstart : start.unsigned = start'.unsigned) :
    unsigned (absoluteFrom current start p) = unsigned (absoluteFrom current' start' q) := by
  induction p generalizing q current start current' start' with
  | nil =>
    cases q with
    | nil => rfl
    | cons d q => cases h
  | cons c p ih =>
    cases q with
    | nil => cases h
    | cons d q =>
      rw [unsigned_cons, unsigned_cons, List.cons.injEq, Command.unsigned, Command.unsigned,
        Command.mk.injEq] at h
      obtain ⟨⟨hrelative, hsegment⟩, hpaths⟩ := h
      have hoffset : (if c.relative then current else Point.origin).unsigned =
          (if d.relative then current' else Point.origin).unsigned := by
        rw [hrelative]
        split
        · exact hcurrent
        · rfl
      have hshift : (c.segment.shift (if c.relative then current else Point.origin)).unsigned =
          (d.segment.shift (if d.relative then current' else Point.origin)).unsigned := by
        rw [← unsigned_shift, hsegment, hoffset, unsigned_shift]
      rw [absoluteFrom, absoluteFrom, unsigned_cons, unsigned_cons, Command.unsigned,
        Command.unsigned, hshift]
      congr 1
      refine ih hpaths ?_ ?_
      · rw [unsigned_finish, unsigned_finish, hshift, hcurrent, hstart]
      · rw [unsigned_nextStart, unsigned_nextStart, hshift, hstart]

theorem unsigned_absolute {p q : Path Float} (h : unsigned p = unsigned q) :
    unsigned p.absolute = unsigned q.absolute :=
  unsigned_absoluteFrom h rfl rfl

/-! ## Joining -/

/-- Whether a path begins with a move, if it has commands. -/
def BeginsWithMove (path : Path Float) : Prop :=
  ∀ c ∈ path.head?, c.segment.instruction = .moveTo

/-- A move forgets what was before it if it is absolute, or at the start of a path. -/
theorem absoluteFrom_anchored {path : Path Float} (h : BeginsWithMove path)
    (current start : Point Float) : absoluteFrom current start path.anchored = path.absolute := by
  rcases path with _ | ⟨⟨relative, segment⟩, rest⟩
  · rfl
  · cases segment with
    | moveTo p => cases relative <;> rfl
    | _ => exact absurd (h _ rfl) (by simp [Segment.instruction])

theorem absolute_join (a : Path Float) {b : Path Float} (h : BeginsWithMove b) :
    (a.join b).absolute = a.absolute ++ b.absolute := by
  have hfrom (current start : Point Float) :
      absoluteFrom current start (a ++ b.anchored) =
        absoluteFrom current start a ++ b.absolute := by
    induction a generalizing current start with
    | nil => exact absoluteFrom_anchored h current start
    | cons c a ih => rw [List.cons_append, absoluteFrom, absoluteFrom, ih, List.cons_append]
  exact hfrom _ _

theorem map_segment_anchored (path : Path Float) :
    path.anchored.map (·.segment) = path.map (·.segment) := by
  rcases path with _ | ⟨⟨relative, segment⟩, rest⟩
  · rfl
  · cases segment <;> rfl

theorem BeginsWithMove.join {a b : Path Float} (ha : BeginsWithMove a) (hb : BeginsWithMove b) :
    BeginsWithMove (a.join b) := by
  cases a with
  | cons c a => exact ha
  | nil =>
    intro c hc
    have hhead : c.segment ∈ (b.map (·.segment)).head? := by
      rw [← map_segment_anchored, List.head?_map]
      exact Option.mem_map_of_mem _ hc
    rw [List.head?_map] at hhead
    obtain ⟨k, hk, hsegment⟩ := Option.mem_map.1 hhead
    rw [← hsegment]
    exact hb k hk

theorem beginsWithMove_of_read {d : String} {p : Path Float} (h : read d = .ok p) :
    BeginsWithMove p :=
  head?_of_commands (commands_of_read h)

/-- A path that was read draws the same behind any other path.  Wherever that path ends, and
wherever its last subpath begins, the move in front starts over. -/
theorem absolute_join_of_read {d : String} {q : Path Float} (hq : read d = .ok q)
    (p : Path Float) :
    (p.join q).absolute = p.absolute ++ q.absolute ∧
      ∀ current start, absoluteFrom current start q.anchored = q.absolute := by
  have hmove := beginsWithMove_of_read hq
  exact ⟨absolute_join p hmove, absoluteFrom_anchored hmove⟩

/-- A subpath that was closed, and behind it relative moves, shorthands and lines without a
letter. -/
theorem absolute_join_relative :
    ∃ p q, read "m5 5h1v2z" = .ok p ∧ read "m1 1 2 2zm1 1t3 3z" = .ok q ∧
      (p.join q).absolute = p.absolute ++ q.absolute ∧
      q.absolute = [⟨false, .moveTo ⟨1.0, 1.0⟩⟩, ⟨false, .lineTo ⟨3.0, 3.0⟩⟩,
        ⟨false, .closePath⟩, ⟨false, .moveTo ⟨2.0, 2.0⟩⟩, ⟨false, .smoothQuadTo ⟨5.0, 5.0⟩⟩,
        ⟨false, .closePath⟩] := by
  have hp : read "m5 5h1v2z" = .ok [⟨true, .moveTo ⟨5.0, 5.0⟩⟩, ⟨true, .horizontalTo 1.0⟩,
      ⟨true, .verticalTo 2.0⟩, ⟨true, .closePath⟩] := by
    decide +kernel
  have hq : read "m1 1 2 2zm1 1t3 3z" = .ok [⟨true, .moveTo ⟨1.0, 1.0⟩⟩,
      ⟨true, .lineTo ⟨2.0, 2.0⟩⟩, ⟨true, .closePath⟩, ⟨true, .moveTo ⟨1.0, 1.0⟩⟩,
      ⟨true, .smoothQuadTo ⟨3.0, 3.0⟩⟩, ⟨true, .closePath⟩] := by
    decide +kernel
  exact ⟨_, _, hp, hq, (absolute_join_of_read hq _).1, by decide⟩

/-! ## Writing and reading back -/

/-- Whether all numbers of a path are finite. -/
def IsFinite (path : Path Float) : Prop :=
  ∀ c ∈ path, FinitelyRounded none c.segment.arguments

instance (path : Path Float) : Decidable (IsFinite path) :=
  inferInstanceAs (Decidable (∀ c ∈ path, FinitelyRounded none c.segment.arguments))

theorem IsFinite.join {a b : Path Float} (ha : IsFinite a) (hb : IsFinite b) :
    IsFinite (a.join b) := by
  intro c hc
  rcases List.mem_append.1 hc with hc | hc
  · exact ha c hc
  · have hsegment : c.segment ∈ b.map (·.segment) := by
      rw [← map_segment_anchored]
      exact List.mem_map_of_mem hc
    obtain ⟨k, hk, hsame⟩ := List.mem_map.1 hsegment
    rw [← hsame]
    exact hb k hk

/-- Without rounding an argument is the same but for the sign of a zero. -/
theorem arguments_of_rounded {as bs : List (Argument Float)}
    (h : List.Forall₂ (Rounded none) as bs) (hfinite : FinitelyRounded none as) :
    bs.map Argument.unsigned = as.map Argument.unsigned ∧ FinitelyRounded none bs := by
  induction h with
  | nil => exact ⟨rfl, hfinite⟩
  | @cons a b as bs hab hrest ih =>
    obtain ⟨hunsigned, hbs⟩ := ih hfinite.of_cons
    rw [List.map_cons, List.map_cons, hunsigned]
    cases hab with
    | flag f => exact ⟨rfl, List.forall_mem_cons.2 ⟨rfl, hbs⟩⟩
    | number hxy =>
      have hx := hfinite.head
      refine ⟨?_, List.forall_mem_cons.2 ⟨isFinite_of_beq hx hxy, hbs⟩⟩
      rw [Argument.unsigned, Argument.unsigned, unsigned_eq_of_beq hx hxy]
      rfl

theorem unsigned_of_rounded {p q : Path Float} (h : List.Forall₂ (RoundedCommand none) p q)
    (hp : IsFinite p) : unsigned q = unsigned p ∧ IsFinite q := by
  induction h with
  | nil => exact ⟨rfl, fun c hc => by cases hc⟩
  | @cons c k p q hck hrest ih =>
    obtain ⟨hunsigned, hq⟩ := ih fun d hd => hp d (List.mem_cons_of_mem _ hd)
    obtain ⟨harguments, hk⟩ := arguments_of_rounded hck.arguments (hp c List.mem_cons_self)
    refine ⟨?_, fun d hd => ?_⟩
    · have hsegment : k.segment.unsigned = c.segment.unsigned := by
        refine Segment.eq_of_arguments ?_ ?_
        · rw [Segment.instruction_unsigned, Segment.instruction_unsigned, hck.instruction]
        · rw [Segment.arguments_unsigned, Segment.arguments_unsigned, harguments]
      rw [unsigned_cons, unsigned_cons, hunsigned, Command.unsigned, Command.unsigned, hsegment,
        hck.relative]
    · rcases List.mem_cons.1 hd with rfl | hd
      · exact hk
      · exact hq d hd

/-- A path that begins with a move reads back from a text that is not rounded, but for the
signs of zeros. -/
theorem read_write_unrounded {path : Path Float} (hmove : BeginsWithMove path)
    (hpath : IsFinite path) {format : PathFormat} (hformat : format.precision = none) :
    ∃ q, read (write format path) = .ok q ∧ unsigned q = unsigned path ∧ IsFinite q := by
  cases path with
  | nil => exact ⟨[], read_of_commands commands_nil, rfl, hpath⟩
  | cons c rest =>
    have hfinite : ∀ d ∈ c :: rest, FinitelyRounded format.precision d.segment.arguments := by
      rw [hformat]
      exact hpath
    have hrest : ∀ d ∈ rest, FinitelyRounded format.precision d.segment.arguments :=
      fun d hd => hfinite d (List.mem_cons_of_mem _ hd)
    obtain ⟨k, hround, hcommand, hsuffix⟩ := command_letter (hfinite c List.mem_cons_self)
      (mayFollow_writeCommands hrest) none (.inr (hmove c rfl))
    obtain ⟨q, hrounds, hq⟩ := commands_writeCommands hrest c
    rw [hformat] at hround hrounds
    refine ⟨k :: q, read_of_commands ?_, unsigned_of_rounded (.cons hround hrounds) hpath⟩
    have htext : (write format (c :: rest)).toList =
        c.letter :: (writeArguments format none c.segment.arguments ++
          writeCommands format (some c) rest) := by
      rw [write, String.toList_ofList]
      rfl
    obtain ⟨-, hspace, -⟩ := isAlpha_letter c.segment.instruction c.relative
    rw [htext, Command.letter, skipBlanks_cons hspace, ← Command.letter,
      commands_cons hcommand hsuffix, hround.instruction, hround.relative, hq]
    rfl

end Path
end SvgCompact
