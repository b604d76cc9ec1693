import SvgCompact.Geometry.Overlap
import SvgCompact.Path.Basic
import SvgCompact.Proofs.Element.Size
import SvgCompact.Proofs.Path.Alphabet
import SvgCompact.Proofs.Path.Joining

/-!
Commands as rows of numbers.

A row holds its arguments by place, and nothing but its instruction tells how many there
should be.  What is done to rows is what is done to segments: rows are joined, made
absolute and drawn by place, and where a place is empty nothing is drawn.  `IsWellFormed`
says which rows are rows of segments.

A reader that counts arguments, with a flag in two places of an arc, reads the rows of the
segments that are read.  Its loop comes to an end on every text, since a command takes a
character at least.  What it reads, and what becomes of it when rows are joined and made
absolute, stays well formed, so that every place is filled that drawing looks at.  A fault
is found behind whole characters.
-/

namespace SvgCompact

structure Row (α : Type) where
  instruction : Instruction
  relative : Bool
  arguments : List α

section Rows

variable {α : Type} [Scalar α]

/-- An argument as a number, flags as one and zero. -/
def Argument.value : Argument α → α
  | number x => x
  | flag b => if b then Scalar.one else Scalar.zero

def Command.row (c : Command α) : Row α :=
  ⟨c.segment.instruction, c.relative, c.segment.arguments.map Argument.value⟩

def Path.rows (path : Path α) : List (Row α) :=
  path.map Command.row

theorem Path.rows_cons (c : Command α) (path : Path α) : rows (c :: path) = c.row :: path.rows :=
  rfl

/-! ## Rows of segments -/

/-- Whether the arguments are as many as the instruction takes, with flags where an arc
has them. -/
structure Row.IsWellFormed (r : Row α) : Prop where
  length : r.arguments.length = r.instruction.arity
  flags : r.instruction = .arc → ∀ i, i = 3 ∨ i = 4 →
    r.arguments[i]? = some Scalar.zero ∨ r.arguments[i]? = some Scalar.one

theorem Command.isWellFormed_row (c : Command α) : c.row.IsWellFormed := by
  obtain ⟨relative, segment⟩ := c
  constructor
  · cases segment <;> rfl
  · intro harc i hi
    cases segment with
    | arc radii rotation large sweep p =>
      rcases hi with rfl | rfl
      · cases large
        · exact .inl rfl
        · exact .inr rfl
      · cases sweep
        · exact .inl rfl
        · exact .inr rfl
    | _ => cases harc

/-- A flag is read off its number. -/
theorem exists_flag {x : α} (h : some x = some Scalar.zero ∨ some x = some Scalar.one) :
    ∃ b, x = (Argument.flag b : Argument α).value := by
  rcases h with h | h
  · exact ⟨false, Option.some.inj h⟩
  · exact ⟨true, Option.some.inj h⟩

theorem Row.IsWellFormed.exists_command {r : Row α} (h : r.IsWellFormed) :
    ∃ c : Command α, r = c.row := by
  obtain ⟨instruction, relative, arguments⟩ := r
  have hlength := h.length
  have hflags := h.flags
  suffices ∃ s : Segment α, s.instruction = instruction ∧
      s.arguments.map Argument.value = arguments by
    obtain ⟨s, hinstruction, harguments⟩ := this
    exact ⟨⟨relative, s⟩, by rw [Command.row, hinstruction, harguments]⟩
  cases instruction with
  | closePath =>
    match arguments, hlength with
    | [], _ => exact ⟨.closePath, rfl, rfl⟩
  | horizontalTo =>
    match arguments, hlength with
    | [x], _ => exact ⟨.horizontalTo x, rfl, rfl⟩
  | verticalTo =>
    match arguments, hlength with
    | [y], _ => exact ⟨.verticalTo y, rfl, rfl⟩
  | moveTo =>
    match arguments, hlength with
    | [x, y], _ => exact ⟨.moveTo ⟨x, y⟩, rfl, rfl⟩
  | lineTo =>
    match arguments, hlength with
    | [x, y], _ => exact ⟨.lineTo ⟨x, y⟩, rfl, rfl⟩
  | smoothQuadTo =>
    match arguments, hlength with
    | [x, y], _ => exact ⟨.smoothQuadTo ⟨x, y⟩, rfl, rfl⟩
  | smoothCurveTo =>
    match arguments, hlength with
    | [u, v, x, y], _ => exact ⟨.smoothCurveTo ⟨u, v⟩ ⟨x, y⟩, rfl, rfl⟩
  | quadTo =>
    match arguments, hlength with
    | [u, v, x, y], _ => exact ⟨.quadTo ⟨u, v⟩ ⟨x, y⟩, rfl, rfl⟩
  | curveTo =>
    match arguments, hlength with
    | [s, t, u, v, x, y], _ => exact ⟨.curveTo ⟨s, t⟩ ⟨u, v⟩ ⟨x, y⟩, rfl, rfl⟩
  | arc =>
    match arguments, hlength, hflags with
    | [u, v, rotation, large, sweep, x, y], _, hflags =>
      obtain ⟨l, rfl⟩ := exists_flag (hflags rfl 3 (.inl rfl))
      obtain ⟨s, rfl⟩ := exists_flag (hflags rfl 4 (.inr rfl))
      exact ⟨.arc ⟨u, v⟩ rotation l s ⟨x, y⟩, rfl, rfl⟩

namespace Rows

/-- Whether rows begin with a move, if there are any, and each is well formed. -/
structure IsWellFormed (rows : List (Row α)) : Prop where
  begins : ∀ r ∈ rows.head?, r.instruction = .moveTo
  each : ∀ r ∈ rows, r.IsWellFormed

/-! ## Joining -/

/-- Rows behind others; a move in front becomes absolute. -/
def append (a : List (Row α)) : List (Row α) → List (Row α)
  | [] => a
  | first :: rest =>
    a ++ (if first.instruction = .moveTo then { first with relative := false } else first) :: rest

theorem append_rows (p q : Path α) : append p.rows q.rows = (p.join q).rows := by
  rcases q with _ | ⟨⟨relative, segment⟩, rest⟩
  · simp [Path.rows, append, Path.join, Path.anchored]
  · cases segment <;> simp [Path.rows, append, Path.join, Path.anchored, Command.row,
      Segment.instruction]

/-! ## Absolute coordinates -/

/-- Moves the points that numbers in a row stand for, and tells the last of them. -/
def shiftPairs (by_ current : Point α) : List α → List α × Point α
  | x :: y :: rest =>
    let p := Point.add ⟨x, y⟩ by_
    let (moved, last) := shiftPairs by_ p rest
    (p.x :: p.y :: moved, last)
  | rest => (rest, current)

/-- A row in absolute coordinates, where it ends, and where its subpath began. -/
def absoluteRow (current start : Point α) (r : Row α) : Row α × Point α × Point α :=
  let by_ := if r.relative then current else Point.origin
  let absolute (arguments : List α) : Row α := ⟨r.instruction, false, arguments⟩
  match r.instruction with
  | .closePath => (absolute r.arguments, start, start)
  | .horizontalTo =>
    match r.arguments with
    | x :: rest => (absolute ((x + by_.x) :: rest), ⟨x + by_.x, current.y⟩, start)
    | [] => (absolute [], current, start)
  | .verticalTo =>
    match r.arguments with
    | y :: rest => (absolute ((y + by_.y) :: rest), ⟨current.x, y + by_.y⟩, start)
    | [] => (absolute [], current, start)
  | .arc =>
    let (moved, last) := shiftPairs by_ current (r.arguments.drop 5)
    (absolute (r.arguments.take 5 ++ moved), last, start)
  | .moveTo =>
    let (moved, last) := shiftPairs by_ current r.arguments
    (absolute moved, last, last)
  | _ =>
    let (moved, last) := shiftPairs by_ current r.arguments
    (absolute moved, last, start)

def absoluteFrom (current start : Point α) : List (Row α) → List (Row α)
  | [] => []
  | r :: rest =>
    let (row, current, start) := absoluteRow current start r
    row :: absoluteFrom current start rest

def absolute (rows : List (Row α)) : List (Row α) :=
  absoluteFrom Point.origin Point.origin rows

theorem absoluteRow_row (current start : Point α) (c : Command α) :
    absoluteRow current start c.row =
      let segment := c.segment.shift (if c.relative then current else Point.origin)
      (Command.row ⟨false, segment⟩, segment.finish current start, segment.nextStart start) := by
  obtain ⟨relative, segment⟩ := c
  cases segment <;> rfl

theorem absolute_rows (p : Path α) : absolute p.rows = p.absolute.rows := by
  have hfrom (current start : Point α) :
      absoluteFrom current start p.rows = (p.absoluteFrom current start).rows := by
    induction p generalizing current start with
    | nil => rfl
    | cons c p ih =>
      rw [Path.rows_cons, absoluteFrom, absoluteRow_row]
      exact congrArg _ (ih _ _)
  exact hfrom _ _

/-! ## Drawing -/

open SvgCompact.Geometry (Pen)

/-- The point that is given from a place on, if it is there. -/
def pointAt? (arguments : List α) (place : Nat) : Option (Point α) := do
  return ⟨← arguments[place]?, ← arguments[place + 1]?⟩

/-- The points of an absolute row and the pen after it, if all arguments that are asked
for are there. -/
def draw? (pen : Pen α) (r : Row α) : Option (List (Point α) × Pen α) :=
  let a := r.arguments
  match r.instruction with
  | .moveTo => do
    let p ← pointAt? a 0
    return ([p], ⟨p, p, none, none⟩)
  | .lineTo => do
    let p ← pointAt? a 0
    return ([p], ⟨p, pen.start, none, none⟩)
  | .horizontalTo => do
    let p : Point α := ⟨← a[0]?, pen.current.y⟩
    return ([p], ⟨p, pen.start, none, none⟩)
  | .verticalTo => do
    let p : Point α := ⟨pen.current.x, ← a[0]?⟩
    return ([p], ⟨p, pen.start, none, none⟩)
  | .curveTo => do
    let b ← pointAt? a 2
    let p ← pointAt? a 4
    return ([← pointAt? a 0, b, p], ⟨p, pen.start, some b, none⟩)
  | .smoothCurveTo => do
    let b ← pointAt? a 0
    let p ← pointAt? a 2
    return ([pen.mirror pen.cubic, b, p], ⟨p, pen.start, some b, none⟩)
  | .quadTo => do
    let b ← pointAt? a 0
    let p ← pointAt? a 2
    return ([b, p], ⟨p, pen.start, none, some b⟩)
  | .smoothQuadTo => do
    let b := pen.mirror pen.quadratic
    let p ← pointAt? a 0
    return ([b, p], ⟨p, pen.start, none, some b⟩)
  | .arc => do
    let p ← pointAt? a 5
    return (pen.arcBox (← pointAt? a 0) p ++ [p], ⟨p, pen.start, none, none⟩)
  | .closePath => some ([], ⟨pen.start, pen.start, none, none⟩)

theorem draw?_row (pen : Pen α) (c : Command α) :
    draw? pen c.row = some (pen.points c.segment, pen.after c.segment) := by
  obtain ⟨relative, segment⟩ := c
  cases segment <;> rfl

/-- A line that lacks an argument is not drawn. -/
example (pen : Pen α) (x : α) : draw? pen ⟨.lineTo, false, [x]⟩ = none := rfl

/-- The points of the subpaths of absolute rows. -/
def subpathsFrom? (pen : Pen α) (begun : List (Point α)) :
    List (Row α) → Option (List (List (Point α)))
  | [] => some [begun]
  | r :: rest => do
    let (points, pen) ← draw? pen r
    if r.instruction = .moveTo then return begun :: (← subpathsFrom? pen points rest)
    else subpathsFrom? pen (begun ++ points) rest

def subpaths? (rows : List (Row α)) : Option (List (List (Point α))) := do
  return (← subpathsFrom? Pen.initial [] (absolute rows)).filter (!·.isEmpty)

/-- The box around rows, if all arguments are there, and there are points at all. -/
def boxOf? (rows : List (Row α)) : Option (Option (Box α)) := do
  return Box.around? (← subpaths? rows).flatten

def overlap? (a b : List (Row α)) : Option Bool := do
  let subpathsA ← subpaths? a
  let subpathsB ← subpaths? b
  match Box.around? subpathsA.flatten, Box.around? subpathsB.flatten with
  | some boxA, some boxB =>
    return boxA.overlaps boxB && subpathsA.any fun s => subpathsB.any fun t =>
      Geometry.hullsOverlap (Geometry.hull s) (Geometry.hull t)
  | _, _ => return false

theorem subpathsFrom?_rows (pen : Pen α) (begun : List (Point α)) (p : Path α) :
    subpathsFrom? pen begun p.rows = some (Geometry.subpathsFrom pen begun p) := by
  induction p generalizing pen begun with
  | nil => rfl
  | cons c p ih =>
    rw [Path.rows_cons, subpathsFrom?, draw?_row, Option.bind_eq_bind, Option.bind_some]
    simp only [ih]
    obtain ⟨relative, segment⟩ := c
    cases segment <;> rfl

theorem subpaths?_rows (p : Path α) : subpaths? p.rows = some (Geometry.subpaths p) := by
  rw [subpaths?, absolute_rows, subpathsFrom?_rows]
  rfl

theorem boxOf?_rows (p : Path α) : boxOf? p.rows = some (Geometry.boxOf? p) := by
  rw [boxOf?, subpaths?_rows]
  rfl

theorem overlap?_rows (p q : Path α) : overlap? p.rows q.rows = some (Geometry.overlap p q) := by
  rw [overlap?, subpaths?_rows, subpaths?_rows]
  simp only [Option.bind_eq_bind, Option.bind_some, Geometry.overlap, Geometry.boxOf?]
  cases Box.around? (Geometry.subpaths p).flatten <;>
    cases Box.around? (Geometry.subpaths q).flatten <;> rfl

end Rows
end Rows

namespace PathReader

/-! ## Arguments by place -/

/-- The argument in a place of a command, as a number. -/
def argument (i : Instruction) (place : Nat) : Step Float :=
  if i = .arc ∧ (place = 3 ∨ place = 4) then do return (Argument.flag (← flag)).value else number

/-- Arguments from a place on, with separators between them. -/
def argumentsFrom (i : Instruction) (place : Nat) : Nat → Step (List Float)
  | 0 => return []
  | left + 1 => do
    if 0 < place then separator
    let x ← argument i place
    return x :: (← argumentsFrom i (place + 1) left)

/-- Counting arguments reads those of the segment. -/
theorem argumentsFrom_arity (i : Instruction) :
    (do return (i, ← argumentsFrom i 0 i.arity)) =
      (do
        let s ← segment i
        return (s.instruction, s.arguments.map Argument.value)) := by
  cases i <;> simp [argumentsFrom, argument, segment, point, Instruction.arity,
    Segment.instruction, Segment.arguments, Point.arguments, Argument.value]

/-! ## What is left of a text -/

/-- The text after what was read, or after the fault. -/
def leftover {α : Type} : Except (Fault × List Char) (α × List Char) → List Char
  | .ok (_, t) => t
  | .error (_, t) => t

/-- Whether a step goes forward on every text, also where it fails. -/
def GoesOn {α : Type} (f : Step α) : Prop :=
  ∀ s, leftover (f s) <:+ s

section

variable {α β : Type} {f : Step α} {g : α → Step β}

theorem GoesOn.pure (x : α) : GoesOn (Pure.pure x : Step α) :=
  fun s => List.suffix_refl s

theorem GoesOn.bind (hf : GoesOn f) (hg : ∀ x, GoesOn (g x)) : GoesOn (f >>= g) := by
  intro s
  have hfirst := hf s
  cases hs : f s with
  | error e =>
    rw [hs] at hfirst
    have hfails : (f >>= g) s = .error e := by
      simp only [Bind.bind, StateT.bind, Except.bind, hs]
    rwa [hfails]
  | ok r =>
    obtain ⟨x, t⟩ := r
    rw [hs] at hfirst
    rw [bind_ok hs]
    exact (hg x t).trans hfirst

end

theorem goesOn_number : GoesOn number := by
  intro s
  have hblanks := skipBlanks_suffix s
  simp only [number]
  split
  · exact hblanks
  · split
    · exact (List.drop_suffix _ _).trans hblanks
    · exact (List.drop_suffix _ _).trans hblanks

theorem goesOn_flag : GoesOn flag := by
  intro s
  have hblanks := skipBlanks_suffix s
  simp only [flag]
  split
  · next heq => exact (List.suffix_cons _ _).trans (heq ▸ hblanks)
  · next heq => exact (List.suffix_cons _ _).trans (heq ▸ hblanks)
  · next heq => exact (List.suffix_cons _ _).trans (heq ▸ hblanks)
  · exact List.nil_suffix

theorem goesOn_argument (i : Instruction) (place : Nat) : GoesOn (argument i place) := by
  unfold argument
  split
  · exact goesOn_flag.bind fun _ => .pure _
  · exact goesOn_number

theorem goesOn_argumentsFrom (i : Instruction) (place left : Nat) :
    GoesOn (argumentsFrom i place left) := by
  induction left generalizing place with
  | zero => exact .pure _
  | succ left ih =>
    have hrest : GoesOn (do
        let x ← argument i place
        return x :: (← argumentsFrom i (place + 1) left)) :=
      (goesOn_argument i place).bind fun _ => (ih (place + 1)).bind fun _ => .pure _
    rw [argumentsFrom]
    split
    · exact GoesOn.bind skipSeparator_suffix fun _ => hrest
    · exact hrest

/-! ## One command -/

variable {before : Option (Instruction × Bool)} {s t : List Char}

/-- The row that begins with a character, and the text after it. -/
def row (before : Option (Instruction × Bool)) (c : Char) (cs : List Char) :
    Except (Fault × List Char) (Row Float × List Char) :=
  match instruction before c with
  | .error fault => .error (fault, c :: cs)
  | .ok (i, relative, lettered) =>
    (argumentsFrom i 0 i.arity (if lettered then cs else c :: cs)).map fun (arguments, rest) =>
      (⟨i, relative, arguments⟩, skipSeparator rest)

theorem row_eq_command (before : Option (Instruction × Bool)) (c : Char) (cs : List Char) :
    row before c cs = (command before c cs).map fun (k, rest) => (k.row, rest) := by
  rw [row, command]
  cases instruction before c with
  | error fault => rfl
  | ok read =>
    obtain ⟨i, relative, lettered⟩ := read
    have hread := congrFun (argumentsFrom_arity i) (if lettered then cs else c :: cs)
    simp only [Bind.bind, StateT.bind, Except.bind, Pure.pure, StateT.pure, Except.pure] at hread
    dsimp only
    cases hrow : argumentsFrom i 0 i.arity (if lettered then cs else c :: cs) with
    | error e =>
      cases hsegment : segment i (if lettered then cs else c :: cs) with
      | error e' =>
        rw [hrow, hsegment] at hread
        cases hread
        rfl
      | ok r =>
        rw [hrow, hsegment] at hread
        cases hread
    | ok r =>
      cases hsegment : segment i (if lettered then cs else c :: cs) with
      | error e =>
        rw [hrow, hsegment] at hread
        cases hread
      | ok r' =>
        rw [hrow, hsegment] at hread
        simp only [Except.ok.injEq, Prod.mk.injEq] at hread
        obtain ⟨⟨hinstruction, harguments⟩, hrest⟩ := hread
        simp only [Except.map, Command.row, hrest, harguments, ← hinstruction]

theorem goesOn_row (before : Option (Instruction × Bool)) (c : Char) (cs : List Char) :
    leftover (row before c cs) <:+ c :: cs := by
  rw [row]
  split
  · exact List.suffix_refl _
  · next i relative lettered _ =>
    have hstart : (if lettered then cs else c :: cs) <:+ c :: cs := by
      split
      · exact List.suffix_cons c cs
      · exact List.suffix_refl _
    have hread := goesOn_argumentsFrom i 0 i.arity (if lettered then cs else c :: cs)
    cases hrow : argumentsFrom i 0 i.arity (if lettered then cs else c :: cs) with
    | error e =>
      rw [hrow] at hread
      exact hread.trans hstart
    | ok r =>
      rw [hrow] at hread
      exact (skipSeparator_suffix r.2).trans (hread.trans hstart)

/-! ## The loop -/

/-- What the loop over the commands of a text comes to.  Nothing but the text stops it. -/
inductive Runs : Option (Instruction × Bool) → List Char →
    Except (Fault × List Char) (List (Row Float)) → Prop
  | done {a} : Runs a [] (.ok [])
  | fails {a x xs e} (h : row a x xs = .error e) : Runs a (x :: xs) (.error e)
  | goesOn {a x xs y u result} (h : row a x xs = .ok (y, u))
    (hrest : Runs (some (y.instruction, y.relative)) u result) :
    Runs a (x :: xs) (result.map (y :: ·))

theorem Runs.unique {result result' : Except (Fault × List Char) (List (Row Float))}
    (h : Runs before s result) (h' : Runs before s result') : result = result' := by
  induction h generalizing result' with
  | done =>
    cases h'
    rfl
  | fails h =>
    cases h' with
    | fails h' => rw [Except.error.inj (h.symm.trans h')]
    | goesOn h' => cases h.symm.trans h'
  | goesOn h _ ih =>
    cases h' with
    | fails h' => cases h.symm.trans h'
    | goesOn h' hrest =>
      cases h.symm.trans h'
      rw [ih hrest]

/-- A command takes a character at least, so the loop ends, with the rows of the path that
is read or with its fault. -/
theorem runs_commands (before : Option (Instruction × Bool)) (s : List Char) :
    Runs before s ((commands before s).map Path.rows) := by
  induction before, s using commands.induct with
  | case1 before =>
    rw [commands_nil]
    exact .done
  | case2 before c cs e hcommand =>
    rw [commands, hcommand]
    exact .fails (by rw [row_eq_command, hcommand]; rfl)
  | case3 before c cs k t hcommand ih =>
    have hsuffix := (skips_command hcommand).suffix_of_cons
    rw [← List.suffix_iff_eq_drop.1 hsuffix] at ih
    have hrow : row before c cs = .ok (k.row, t) := by
      rw [row_eq_command, hcommand]
      rfl
    have hruns := Runs.goesOn hrow ih
    rw [commands_cons hcommand hsuffix]
    cases hrest : commands (some (k.segment.instruction, k.relative)) t with
    | error e =>
      rw [hrest] at hruns
      exact hruns
    | ok path =>
      rw [hrest] at hruns
      exact hruns

theorem Runs.suffix_of_error {fault : Fault} (h : Runs before s (.error (fault, t))) :
    t <:+ s := by
  generalize hresult : (Except.error (fault, t) : Except _ (List (Row Float))) = result at h
  induction h with
  | done => cases hresult
  | @fails before c cs e h =>
    cases hresult
    have hread := goesOn_row before c cs
    rwa [h] at hread
  | @goesOn before c cs r u result h _ ih =>
    have hread := goesOn_row before c cs
    rw [h] at hread
    cases result with
    | error e =>
      cases hresult
      exact (ih rfl).trans hread
    | ok rows => cases hresult

end PathReader

namespace Rows

/-- What reading the rows of a text comes to. -/
def Reads (d : String) (result : Except PathReader.Error (List (Row Float))) : Prop :=
  ∃ found, PathReader.Runs none (PathReader.skipBlanks d.toList) found ∧
    result = found.mapError fun (fault, rest) =>
      ⟨fault, Text.byteSize d.toList - Text.byteSize rest⟩

variable {d : String}

theorem reads_iff {result : Except PathReader.Error (List (Row Float))} :
    Reads d result ↔ result = (Path.read d).map Path.rows := by
  have hruns := PathReader.runs_commands none (PathReader.skipBlanks d.toList)
  have heq : (Path.read d).map Path.rows =
      ((PathReader.commands none (PathReader.skipBlanks d.toList)).map Path.rows).mapError
        fun (fault, rest) => ⟨fault, Text.byteSize d.toList - Text.byteSize rest⟩ := by
    rw [Path.read]
    cases PathReader.commands none (PathReader.skipBlanks d.toList) <;> rfl
  constructor
  · rintro ⟨found, hfound, rfl⟩
    rw [heq, hfound.unique hruns]
  · exact fun h => ⟨_, hruns, h.trans heq⟩

/-- A fault is found behind whole characters. -/
theorem Reads.offset_of_error {e : PathReader.Error} (h : Reads d (.error e)) :
    ∃ front back, d.toList = front ++ back ∧ e.offset = Text.byteSize front := by
  obtain ⟨found, hruns, heq⟩ := h
  cases found with
  | ok rows => cases heq
  | error failed =>
    obtain ⟨fault, rest⟩ := failed
    cases heq
    obtain ⟨front, hfront⟩ := hruns.suffix_of_error.trans (PathReader.skipBlanks_suffix d.toList)
    refine ⟨front, rest, hfront.symm, ?_⟩
    show Text.byteSize d.toList - Text.byteSize rest = Text.byteSize front
    rw [← hfront, Text.byteSize_append, Nat.add_sub_cancel]

/-! ## Well-formed rows -/

variable {rows : List (Row Float)} {p q : Path Float}

theorem isWellFormed_rows (h : Path.BeginsWithMove p) : IsWellFormed p.rows where
  begins r hr := by
    rw [Path.rows, List.head?_map, Option.mem_map] at hr
    obtain ⟨c, hc, rfl⟩ := hr
    exact h c hc
  each r hr := by
    obtain ⟨c, -, rfl⟩ := List.mem_map.1 hr
    exact c.isWellFormed_row

/-- Well-formed rows are the rows of a path. -/
theorem IsWellFormed.exists_path (h : IsWellFormed rows) :
    ∃ p : Path Float, Path.BeginsWithMove p ∧ rows = p.rows := by
  have hpath : ∀ rows : List (Row Float), (∀ r ∈ rows, r.IsWellFormed) →
      ∃ p : Path Float, rows = p.rows := by
    intro rows hrows
    induction rows with
    | nil => exact ⟨[], rfl⟩
    | cons r rows ih =>
      obtain ⟨c, rfl⟩ := (hrows r List.mem_cons_self).exists_command
      obtain ⟨p, rfl⟩ := ih fun s hs => hrows s (List.mem_cons_of_mem _ hs)
      exact ⟨c :: p, rfl⟩
  obtain ⟨p, rfl⟩ := hpath rows h.each
  refine ⟨p, fun c hc => h.begins c.row ?_, rfl⟩
  rw [Path.rows, List.head?_map]
  exact Option.mem_map_of_mem _ hc

theorem beginsWithMove_absolute (h : Path.BeginsWithMove p) : Path.BeginsWithMove p.absolute := by
  cases p with
  | nil => exact h
  | cons c p =>
    intro k hk
    rw [Path.absolute, Path.absoluteFrom, List.head?_cons, Option.mem_some_iff] at hk
    have hc := h c rfl
    rw [← hk]
    cases hs : c.segment with
    | moveTo => rfl
    | _ => rw [hs] at hc; cases hc

/-- Rows that are read, joined and made absolute. -/
inductive Built : List (Row Float) → Prop
  | read {text a} (h : Reads text (.ok a)) : Built a
  | absolute {a} (h : Built a) : Built (absolute a)
  | append {a b} (ha : Built a) (hb : Built b) : Built (append a b)

theorem Built.isWellFormed (h : Built rows) : IsWellFormed rows := by
  induction h with
  | @read d a h =>
    have heq := reads_iff.1 h
    cases hread : Path.read d with
    | error e =>
      rw [hread] at heq
      cases heq
    | ok p =>
      rw [hread] at heq
      cases heq
      exact isWellFormed_rows (Path.beginsWithMove_of_read hread)
  | absolute _ ih =>
    obtain ⟨p, hp, rfl⟩ := ih.exists_path
    rw [absolute_rows]
    exact isWellFormed_rows (beginsWithMove_absolute hp)
  | append _ _ iha ihb =>
    obtain ⟨p, hp, rfl⟩ := iha.exists_path
    obtain ⟨q, hq, rfl⟩ := ihb.exists_path
    rw [append_rows]
    exact isWellFormed_rows (hp.join hq)

/-- On every text the reader ends, with the rows of the path or with a fault behind whole
characters.  Rows that are read, joined and made absolute are well formed and are those of
a path, and drawing them finds every argument it looks for. -/
theorem isWellFormed_of_built (d : String) :
    ((∃! result, Reads d result) ∧ Reads d ((Path.read d).map Path.rows) ∧
      ∀ e, Reads d (.error e) → ∃ front back, d.toList = front ++ back ∧
        e.offset = Text.byteSize front) ∧
    (∀ p q : Path Float, absolute p.rows = p.absolute.rows ∧
      append p.rows q.rows = (p.join q).rows) ∧
    ∀ a, Built a → IsWellFormed a ∧ ∃ p : Path Float, a = p.rows ∧
      subpaths? a = some (Geometry.subpaths p) ∧ boxOf? a = some (Geometry.boxOf? p) ∧
      ∀ b, Built b → ∃ q : Path Float, b = q.rows ∧
        overlap? a b = some (Geometry.overlap p q) := by
  refine ⟨⟨⟨_, reads_iff.2 rfl, fun result h => reads_iff.1 h⟩, reads_iff.2 rfl,
    fun e h => h.offset_of_error⟩, fun p q => ⟨absolute_rows p, append_rows p q⟩, fun a ha => ?_⟩
  obtain ⟨p, -, rfl⟩ := ha.isWellFormed.exists_path
  refine ⟨ha.isWellFormed, p, rfl, subpaths?_rows p, boxOf?_rows p, fun b hb => ?_⟩
  obtain ⟨q, -, rfl⟩ := hb.isWellFormed.exists_path
  exact ⟨q, rfl, overlap?_rows p q⟩

/-- An arc with flags that touch, behind its own absolute form. -/
theorem isWellFormed_of_built_arc :
    let p : Path Float :=
      [⟨true, .moveTo ⟨1.0, 1.0⟩⟩, ⟨true, .arc ⟨2.0, 2.0⟩ 0.0 false true ⟨5.0, 6.0⟩⟩]
    Path.read "m1 1a2 2 0 015 6" = .ok p ∧ Built (append (absolute p.rows) p.rows) ∧
      IsWellFormed (append (absolute p.rows) p.rows) ∧
      subpaths? (append (absolute p.rows) p.rows) ≠ none := by
  intro p
  have hread : Path.read "m1 1a2 2 0 015 6" = .ok p := by decide +kernel
  have hrows : Built p.rows := .read (reads_iff.2 (by rw [hread]; rfl))
  have hbuilt := hrows.absolute.append hrows
  obtain ⟨hformed, q, -, hdrawn, -⟩ := (isWellFormed_of_built "m1 1a2 2 0 015 6").2.2 _ hbuilt
  exact ⟨hread, hbuilt, hformed, by rw [hdrawn]; exact Option.some_ne_none _⟩

end Rows
end SvgCompact
