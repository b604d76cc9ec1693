import Mathlib.Data.List.Forall2
import SvgCompact.Path.Printer
import SvgCompact.Proofs.Decimal.ReadBack
import SvgCompact.Proofs.Path.Scanning

/-!
Written path data reads back as the same commands.

The text of an argument ends where the reader stops: what follows it is a blank, a
letter, a minus sign, or a point behind a number with a fraction.  By induction over
the arguments and then over the commands, the reader meets the arguments that were
written, rounded, and the letters that were left out are those it supplies.
-/

namespace SvgCompact
namespace Path

open Decimal PathReader

/-! ## Rounded paths -/

/-- What becomes of an argument in a text: a number is rounded, and a flag stays. -/
inductive Rounded (precision : Option Nat) : Argument Float → Argument Float → Prop
  | number {x y} (h : (y == round precision x) = true) : Rounded precision (.number x) (.number y)
  | flag (b : Bool) : Rounded precision (.flag b) (.flag b)

structure RoundedCommand (precision : Option Nat) (c k : Command Float) : Prop where
  instruction : k.segment.instruction = c.segment.instruction
  relative : k.relative = c.relative
  arguments : List.Forall₂ (Rounded precision) c.segment.arguments k.segment.arguments

/-- Whether an argument is finite when it is rounded; flags are. -/
def staysFinite (precision : Option Nat) : Argument Float → Bool
  | .number x => (round precision x).isFinite
  | .flag _ => true

def FinitelyRounded (precision : Option Nat) (as : List (Argument Float)) : Prop :=
  ∀ a ∈ as, staysFinite precision a = true

instance (precision : Option Nat) (as : List (Argument Float)) :
    Decidable (FinitelyRounded precision as) :=
  inferInstanceAs (Decidable (∀ a ∈ as, staysFinite precision a = true))

variable {format : PathFormat} {a b : Argument Float} {as bs : List (Argument Float)}
variable {rest tail : List Char}

theorem FinitelyRounded.head {precision : Option Nat} (h : FinitelyRounded precision (a :: as)) :
    staysFinite precision a = true :=
  h a List.mem_cons_self

theorem FinitelyRounded.of_cons {precision : Option Nat} (h : FinitelyRounded precision (a :: as)) :
    FinitelyRounded precision as :=
  fun b hb => h b (List.mem_cons_of_mem _ hb)

section

variable {precision : Option Nat}

theorem number_of_rounded {x : Float} (h : List.Forall₂ (Rounded precision) (.number x :: as) bs) :
    ∃ y cs, bs = .number y :: cs ∧ List.Forall₂ (Rounded precision) as cs := by
  cases h with
  | cons hx hrest =>
    cases hx with
    | number => exact ⟨_, _, rfl, hrest⟩

theorem flag_of_rounded {f : Bool} (h : List.Forall₂ (Rounded precision) (.flag f :: as) bs) :
    ∃ cs, bs = .flag f :: cs ∧ List.Forall₂ (Rounded precision) as cs := by
  cases h with
  | cons hf hrest =>
    cases hf with
    | flag => exact ⟨_, rfl, hrest⟩

theorem point_of_rounded {p : Point Float}
    (h : List.Forall₂ (Rounded precision) (p.arguments ++ as) bs) :
    ∃ q : Point Float, ∃ cs, bs = q.arguments ++ cs ∧ List.Forall₂ (Rounded precision) as cs := by
  obtain ⟨x, cs, rfl, hrest⟩ := number_of_rounded h
  obtain ⟨y, ds, rfl, hothers⟩ := number_of_rounded hrest
  exact ⟨⟨x, y⟩, ds, rfl, hothers⟩

theorem last_of_rounded {p : Point Float}
    (h : List.Forall₂ (Rounded precision) p.arguments bs) :
    ∃ q : Point Float, bs = q.arguments := by
  rw [← List.append_nil p.arguments] at h
  obtain ⟨q, cs, rfl, hnil⟩ := point_of_rounded h
  cases hnil
  exact ⟨q, List.append_nil _⟩

/-- Arguments that rounding makes of a segment's arguments are those of such a segment. -/
theorem exists_segment {seg : Segment Float}
    (h : List.Forall₂ (Rounded precision) seg.arguments bs) :
    ∃ seg' : Segment Float, seg'.instruction = seg.instruction ∧ seg'.arguments = bs := by
  cases seg with
  | moveTo p =>
    obtain ⟨q, rfl⟩ := last_of_rounded h
    exact ⟨.moveTo q, rfl, rfl⟩
  | lineTo p =>
    obtain ⟨q, rfl⟩ := last_of_rounded h
    exact ⟨.lineTo q, rfl, rfl⟩
  | horizontalTo x =>
    obtain ⟨y, cs, rfl, hnil⟩ := number_of_rounded h
    cases hnil
    exact ⟨.horizontalTo y, rfl, rfl⟩
  | verticalTo x =>
    obtain ⟨y, cs, rfl, hnil⟩ := number_of_rounded h
    cases hnil
    exact ⟨.verticalTo y, rfl, rfl⟩
  | curveTo a b p =>
    rw [Segment.arguments, List.append_assoc] at h
    obtain ⟨a', cs, rfl, hrest⟩ := point_of_rounded h
    obtain ⟨b', ds, rfl, hlast⟩ := point_of_rounded hrest
    obtain ⟨q, rfl⟩ := last_of_rounded hlast
    exact ⟨.curveTo a' b' q, rfl, List.append_assoc ..⟩
  | smoothCurveTo b p =>
    obtain ⟨b', cs, rfl, hlast⟩ := point_of_rounded h
    obtain ⟨q, rfl⟩ := last_of_rounded hlast
    exact ⟨.smoothCurveTo b' q, rfl, rfl⟩
  | quadTo a p =>
    obtain ⟨a', cs, rfl, hlast⟩ := point_of_rounded h
    obtain ⟨q, rfl⟩ := last_of_rounded hlast
    exact ⟨.quadTo a' q, rfl, rfl⟩
  | smoothQuadTo p =>
    obtain ⟨q, rfl⟩ := last_of_rounded h
    exact ⟨.smoothQuadTo q, rfl, rfl⟩
  | arc radii rotation large sweep p =>
    rw [Segment.arguments, List.append_assoc] at h
    obtain ⟨radii', cs, rfl, h₁⟩ := point_of_rounded h
    obtain ⟨rotation', ds, rfl, h₂⟩ := number_of_rounded h₁
    obtain ⟨es, rfl, h₃⟩ := flag_of_rounded h₂
    obtain ⟨fs, rfl, h₄⟩ := flag_of_rounded h₃
    obtain ⟨q, rfl⟩ := last_of_rounded h₄
    exact ⟨.arc radii' rotation' large sweep q, rfl, List.append_assoc ..⟩
  | closePath =>
    cases h
    exact ⟨.closePath, rfl, rfl⟩

end

/-! ## The text of an argument -/

/-- What may follow the text of an argument without becoming part of it. -/
def MayFollow (format : PathFormat) : Argument Float → List Char → Prop
  | .flag _, _ => True
  | .number raw, rest =>
    StopsDigits rest ∧ (∀ c ∈ rest.head?, c ≠ 'e' ∧ c ≠ 'E') ∧
      ('.' ∈ rest.head? → hasFraction (round format.precision raw) = true)

theorem exists_numeral_argumentText {raw : Float}
    (h : (round format.precision raw).isFinite = true) :
    ∃ n : Numeral, n.Denotes (round format.precision raw) ∧
      (argumentText format (.number raw)).1 = n.text := by
  obtain ⟨n, hn, htext⟩ := exists_numeral_plain h
  simp only [argumentText, htext]
  split
  · exact ⟨n.bare, hn.bare, Numeral.dropZero_text hn.wellFormed⟩
  · exact ⟨n, hn, rfl⟩

theorem head?_argumentText (h : staysFinite format.precision a = true) (rest : List Char) :
    ∃ c cs, (argumentText format a).1 ++ rest = c :: cs ∧
      (c.isDigit = true ∨ c = '.' ∨ c = '-') := by
  cases a with
  | flag b => cases b <;> exact ⟨_, _, rfl, .inl (by decide)⟩
  | number raw =>
    obtain ⟨n, hn, htext⟩ := exists_numeral_argumentText h
    rw [htext]
    exact hn.wellFormed.head?_text rest

theorem skipSeparator_argumentText (h : staysFinite format.precision a = true) (rest : List Char) :
    skipSeparator ((argumentText format a).1 ++ rest) = (argumentText format a).1 ++ rest := by
  obtain ⟨c, cs, heq, hc⟩ := head?_argumentText h rest
  obtain ⟨hspace, hcomma, -⟩ := not_blank_of_numeral hc
  rw [heq, skipSeparator_cons hspace hcomma]

/-- The text of a number below zero begins with the sign. -/
theorem head?_argumentText_of_neg (h : staysFinite format.precision a = true)
    (hneg : (argumentText format a).2 < 0.0) (rest : List Char) :
    ((argumentText format a).1 ++ rest).head? = some '-' := by
  cases a with
  | flag b =>
    have hflag : ∀ b : Bool, ¬ ((if b then 1.0 else 0.0 : Float) < 0.0) := by decide
    exact absurd hneg (hflag b)
  | number raw =>
    obtain ⟨n, hn, htext⟩ := exists_numeral_argumentText h
    rw [htext, Numeral.text, hn.negative hneg]
    rfl

theorem takes_argumentText (h : staysFinite format.precision a = true) :
    ∃ a', Rounded format.precision a a' ∧
      ∀ rest, MayFollow format a rest → Takes a' ((argumentText format a).1 ++ rest) rest := by
  cases a with
  | flag b => exact ⟨.flag b, .flag b, fun rest _ => .flag (flag_text b rest)⟩
  | number raw =>
    obtain ⟨n, hn, htext⟩ := exists_numeral_argumentText h
    refine ⟨.number n.value, .number hn.value, fun rest hrest => ?_⟩
    obtain ⟨hdigit, hletter, hpoint⟩ := hrest
    rw [htext]
    exact .number (number_text hn.wellFormed ⟨hdigit, hletter, fun hp => hn.closed (hpoint hp)⟩)

/-! ## Arguments in a row -/

/-- Behind another argument there may be a blank in front of the text. -/
theorem writeArguments_some (format : PathFormat) (b a : Argument Float)
    (as : List (Argument Float)) :
    writeArguments format (some b) (a :: as) =
      (if needsBlank format b (argumentText format a).1 (argumentText format a).2 then [' ']
        else []) ++
        ((argumentText format a).1 ++ writeArguments format (some a) as) := by
  simp only [writeArguments, List.append_assoc]

theorem skipSeparator_writeArguments (h : FinitelyRounded format.precision (a :: as))
    (before : Option (Argument Float)) (tail : List Char) :
    skipSeparator (writeArguments format before (a :: as) ++ tail) =
      (argumentText format a).1 ++ (writeArguments format (some a) as ++ tail) := by
  have htext := skipSeparator_argumentText h.head (writeArguments format (some a) as ++ tail)
  cases before with
  | none =>
    simp only [writeArguments, List.nil_append, List.append_assoc, htext]
  | some b =>
    rw [writeArguments_some, List.append_assoc, List.append_assoc]
    split
    · rw [List.singleton_append, skipSeparator_space, htext]
    · rw [List.nil_append, htext]

theorem mayFollow_of_head? {c : Char} (hhead : rest.head? = some c) (hdigit : c.isDigit = false)
    (hletter : c ≠ 'e' ∧ c ≠ 'E')
    (hpoint : ∀ x, a = .number x → c = '.' → hasFraction (round format.precision x) = true) :
    MayFollow format a rest := by
  cases a with
  | flag b => exact trivial
  | number raw =>
    refine ⟨?_, ?_, ?_⟩
    · intro d hd
      rw [hhead, Option.mem_some_iff] at hd
      rw [← hd, hdigit]
    · intro d hd
      rw [hhead, Option.mem_some_iff] at hd
      rw [← hd]
      exact hletter
    · intro hd
      rw [hhead, Option.mem_some_iff] at hd
      exact hpoint raw rfl hd

theorem parted_of_needsBlank_eq_false {raw x : Float} {text : List Char}
    (h : needsBlank format (.number raw) text x = false) :
    x < 0.0 ∨ (text.head? = some '.' ∧ hasFraction (round format.precision raw) = true) := by
  have hvalue : (argumentText format (.number raw)).2 = round format.precision raw := rfl
  simp only [needsBlank, hvalue, Bool.false_and, Bool.not_false, Bool.true_and,
    Bool.not_eq_false', Bool.and_eq_true, Bool.or_eq_true, decide_eq_true_eq, beq_iff_eq] at h
  exact h.2

/-- Where no blank is written, the next argument begins with what ends the one before. -/
theorem mayFollow_writeArguments (h : FinitelyRounded format.precision (b :: bs))
    (a : Argument Float) (tail : List Char) :
    MayFollow format a (writeArguments format (some a) (b :: bs) ++ tail) := by
  rw [writeArguments_some, List.append_assoc, List.append_assoc]
  split
  · exact mayFollow_of_head? rfl (by decide) (by decide) (by simp)
  · next hblank =>
    rw [List.nil_append]
    cases a with
    | flag f => exact trivial
    | number raw =>
      rcases parted_of_needsBlank_eq_false (by simpa using hblank) with hneg | ⟨hpoint, hfraction⟩
      · exact mayFollow_of_head? (head?_argumentText_of_neg h.head hneg _) (by decide) (by decide)
          (by simp)
      · have hhead : ((argumentText format b).1 ++
            (writeArguments format (some b) bs ++ tail)).head? = some '.' := by
          rw [List.head?_append, hpoint]
          rfl
        refine mayFollow_of_head? hhead (by decide) (by decide) ?_
        rintro x hx -
        cases hx
        exact hfraction

theorem scans_writeArguments (h : FinitelyRounded format.precision as)
    (before : Option (Argument Float)) (hlast : ∀ a ∈ as.getLast?, MayFollow format a tail) :
    ∃ as', List.Forall₂ (Rounded format.precision) as as' ∧
      Scans as' (skipSeparator (writeArguments format before as ++ tail)) (skipSeparator tail) := by
  induction as generalizing before with
  | nil => exact ⟨[], .nil, .nil⟩
  | cons a as ih =>
    rw [skipSeparator_writeArguments h]
    have hfollow : MayFollow format a (writeArguments format (some a) as ++ tail) := by
      cases as with
      | nil => exact hlast a rfl
      | cons b bs => exact mayFollow_writeArguments h.of_cons a tail
    have hlast' : ∀ b ∈ as.getLast?, MayFollow format b tail := by
      intro b hb
      exact hlast b (by rw [List.getLast?_cons, Option.mem_def.1 hb]; rfl)
    obtain ⟨a', hround, htakes⟩ := takes_argumentText h.head
    obtain ⟨as', hrounds, hscans⟩ := ih h.of_cons (some a) hlast'
    exact ⟨a' :: as', .cons hround hrounds, .cons (htakes _ hfollow) hscans⟩

/-! ## Letters -/

theorem isAlpha_letter (i : Instruction) (relative : Bool) :
    (i.letter relative).isAlpha = true ∧ Text.isSpace (i.letter relative) = false ∧
      i.letter relative ≠ ',' := by
  cases i <;> cases relative <;> decide

/-- A letter ends every argument. -/
theorem mayFollow_letter (i : Instruction) (relative : Bool) (rest : List Char) :
    MayFollow format a (i.letter relative :: rest) := by
  have hletter : (i.letter relative).isDigit = false ∧
      (i.letter relative ≠ 'e' ∧ i.letter relative ≠ 'E') ∧ i.letter relative ≠ '.' := by
    cases i <;> cases relative <;> decide
  obtain ⟨hdigit, he, hpoint⟩ := hletter
  exact mayFollow_of_head? rfl hdigit he fun x _ heq => absurd heq hpoint

theorem ofLetter?_letter (i : Instruction) (relative : Bool) :
    Instruction.ofLetter? (i.letter relative) = some (i, relative) := by
  cases i <;> cases relative <;> rfl

variable {b c : Command Float}

theorem instruction_letter {before : Option (Instruction × Bool)}
    (h : before.isSome = true ∨ c.segment.instruction = .moveTo) :
    PathReader.instruction before c.letter = .ok (c.segment.instruction, c.relative, true) := by
  have hstart : (before.isNone && c.segment.instruction != .moveTo) = false := by
    rcases h with hsome | hmove
    · simp [Option.isNone_eq_false_iff.2 hsome]
    · simp [hmove]
  unfold PathReader.instruction
  rw [Command.letter, if_pos (isAlpha_letter _ _).1, ofLetter?_letter]
  simp [hstart]

/-- Where the letter is left out the reader supplies it. -/
theorem instruction_of_implies (h : implies b c = true) {ch : Char} (hch : ch.isAlpha = false) :
    PathReader.instruction (some (b.segment.instruction, b.relative)) ch =
      .ok (c.segment.instruction, c.relative, false) := by
  rw [implies, Bool.and_eq_true, beq_iff_eq] at h
  obtain ⟨hrelative, himplied⟩ := h
  unfold PathReader.instruction
  rw [if_neg (by simp [hch]), hrelative]
  revert himplied
  generalize b.segment.instruction = i
  generalize c.segment.instruction = j
  cases i <;> cases j <;> simp

theorem not_closePath_of_implies (h : implies b c = true) : c.segment.instruction ≠ .closePath := by
  intro hc
  rw [implies, Bool.and_eq_true, hc] at h
  obtain ⟨-, himplied⟩ := h
  revert himplied
  generalize b.segment.instruction = i
  cases i <;> decide

theorem arguments_ne_nil {seg : Segment Float} (h : seg.instruction ≠ .closePath) :
    seg.arguments ≠ [] := by
  cases seg with
  | closePath => exact absurd rfl h
  | _ => exact List.cons_ne_nil _ _

/-! ## Commands in a row -/

theorem writeCommands_cons (format : PathFormat) (b c : Command Float) (path : Path Float) :
    writeCommands format (some b) (c :: path) =
      (if format.dropLetters && implies b c then
        writeArguments format b.segment.arguments.getLast? c.segment.arguments
      else c.letter :: writeArguments format none c.segment.arguments) ++
        writeCommands format (some c) path := rfl

theorem mayFollow_writeCommands {path : Path Float}
    (h : ∀ c ∈ path, FinitelyRounded format.precision c.segment.arguments) :
    ∀ a ∈ c.segment.arguments.getLast?,
      MayFollow format a (writeCommands format (some c) path) := by
  intro a ha
  cases path with
  | nil =>
    cases a with
    | flag f => exact trivial
    | number raw => exact ⟨stopsDigits_nil, by simp [writeCommands], by simp [writeCommands]⟩
  | cons d path =>
    rw [writeCommands_cons]
    split
    · next hgoes =>
      have hne := arguments_ne_nil (not_closePath_of_implies (Bool.and_eq_true_iff.1 hgoes).2)
      have hd := h d (by simp)
      rw [Option.mem_def.1 ha]
      cases hargs : d.segment.arguments with
      | nil => exact absurd hargs hne
      | cons x xs => exact mayFollow_writeArguments (hargs ▸ hd) a _
    · exact mayFollow_letter _ _ _

section

variable (h : FinitelyRounded format.precision c.segment.arguments)
  (hlast : ∀ a ∈ c.segment.arguments.getLast?, MayFollow format a tail)
include h hlast

/-- The arguments of a command are read as those of a rounded command, and something is
read. -/
theorem segment_writeArguments (before : Option (Argument Float))
    (hne : c.segment.instruction ≠ .closePath) :
    ∃ seg t, RoundedCommand format.precision c ⟨c.relative, seg⟩ ∧
      PathReader.segment c.segment.instruction
        (skipSeparator (writeArguments format before c.segment.arguments ++ tail)) =
          .ok (seg, t) ∧
      skipSeparator t = skipSeparator tail ∧
      skipSeparator tail <:+
        (skipSeparator (writeArguments format before c.segment.arguments ++ tail)).tail := by
  obtain ⟨as, hround, hscans⟩ := scans_writeArguments h before hlast
  obtain ⟨seg, hinstruction, hargs⟩ := exists_segment hround
  rw [← hargs] at hscans hround
  have hne' : seg.instruction ≠ .closePath := by
    rw [hinstruction]
    exact hne
  obtain ⟨t, hseg, ht⟩ := segment_of_scans hscans hne'
  rw [hinstruction] at hseg
  obtain ⟨hsuffix, hlt⟩ := hscans.suffix
  refine ⟨seg, t, ⟨hinstruction, rfl, hround⟩, hseg, ht, ?_⟩
  cases hs : skipSeparator (writeArguments format before c.segment.arguments ++ tail) with
  | nil =>
    rw [hs] at hsuffix
    exact hsuffix
  | cons ch cs =>
    rw [hs] at hsuffix hlt
    rcases List.suffix_cons_iff.1 hsuffix with heq | hcs
    · exact absurd (hlt (arguments_ne_nil hne')) (by rw [heq]; exact Nat.lt_irrefl _)
    · exact hcs

theorem command_letter (before : Option (Instruction × Bool))
    (hbefore : before.isSome = true ∨ c.segment.instruction = .moveTo) :
    ∃ k, RoundedCommand format.precision c k ∧
      command before c.letter (writeArguments format none c.segment.arguments ++ tail) =
        .ok (k, skipSeparator tail) ∧
      skipSeparator tail <:+ writeArguments format none c.segment.arguments ++ tail := by
  have hinstruction := instruction_letter hbefore
  by_cases hclose : c.segment.instruction = .closePath
  · have hseg : c.segment = .closePath := by
      cases hc : c.segment <;> simp_all [Segment.instruction]
    refine ⟨⟨c.relative, .closePath⟩, ⟨by rw [hseg], rfl, by rw [hseg]; exact .nil⟩, ?_, ?_⟩
    · rw [command, hinstruction, hseg]
      rfl
    · rw [hseg]
      exact skipSeparator_suffix tail
  · obtain ⟨seg, t, hround, hseg, ht, hsuffix⟩ := segment_writeArguments h hlast none hclose
    have hskip : skipSeparator (writeArguments format none c.segment.arguments ++ tail) =
        writeArguments format none c.segment.arguments ++ tail := by
      cases hargs : c.segment.arguments with
      | nil => exact absurd hargs (arguments_ne_nil hclose)
      | cons a as =>
        rw [hargs] at h
        rw [skipSeparator_writeArguments h]
        simp [writeArguments]
    rw [hskip] at hseg hsuffix
    refine ⟨⟨c.relative, seg⟩, hround, ?_, hsuffix.trans (List.tail_suffix _)⟩
    rw [command, hinstruction]
    simp only [if_true, hseg, Except.map, ht]

theorem command_of_implies (himplies : implies b c = true) (before : Option (Argument Float)) :
    ∃ k ch cs, RoundedCommand format.precision c k ∧
      skipSeparator (writeArguments format before c.segment.arguments ++ tail) = ch :: cs ∧
      command (some (b.segment.instruction, b.relative)) ch cs = .ok (k, skipSeparator tail) ∧
      skipSeparator tail <:+ cs := by
  have hclose := not_closePath_of_implies himplies
  obtain ⟨seg, t, hround, hseg, ht, hsuffix⟩ := segment_writeArguments h hlast before hclose
  have hfirst : ∃ ch cs,
      skipSeparator (writeArguments format before c.segment.arguments ++ tail) = ch :: cs ∧
        ch.isAlpha = false := by
    cases hargs : c.segment.arguments with
    | nil => exact absurd hargs (arguments_ne_nil hclose)
    | cons a as =>
      rw [hargs] at h
      rw [skipSeparator_writeArguments h]
      obtain ⟨ch, cs, heq, hch⟩ := head?_argumentText h.head
        (writeArguments format (some a) as ++ tail)
      exact ⟨ch, cs, heq, (not_blank_of_numeral hch).2.2⟩
  obtain ⟨ch, cs, heq, hch⟩ := hfirst
  rw [heq] at hseg hsuffix
  refine ⟨⟨c.relative, seg⟩, ch, cs, hround, heq, ?_, hsuffix⟩
  rw [command, instruction_of_implies himplies hch]
  simp only [Bool.false_eq_true, if_false, hseg, Except.map, ht]

end

theorem commands_writeCommands {path : Path Float}
    (h : ∀ c ∈ path, FinitelyRounded format.precision c.segment.arguments) (b : Command Float) :
    ∃ q, List.Forall₂ (RoundedCommand format.precision) path q ∧
      commands (some (b.segment.instruction, b.relative))
        (skipSeparator (writeCommands format (some b) path)) = .ok q := by
  induction path generalizing b with
  | nil => exact ⟨[], .nil, commands_nil⟩
  | cons c path ih =>
    have hpath : ∀ d ∈ path, FinitelyRounded format.precision d.segment.arguments :=
      fun d hd => h d (List.mem_cons_of_mem _ hd)
    have hc := h c List.mem_cons_self
    have hlast := mayFollow_writeCommands (c := c) hpath
    obtain ⟨q, hrounds, hq⟩ := ih hpath c
    rw [writeCommands_cons]
    split
    · next hgoes =>
      obtain ⟨k, ch, cs, hround, heq, hcommand, hsuffix⟩ := command_of_implies hc hlast
        (Bool.and_eq_true_iff.1 hgoes).2 b.segment.arguments.getLast?
      refine ⟨k :: q, .cons hround hrounds, ?_⟩
      rw [heq, commands_cons hcommand hsuffix, hround.instruction, hround.relative, hq]
      rfl
    · obtain ⟨k, hround, hcommand, hsuffix⟩ := command_letter hc hlast
        (some (b.segment.instruction, b.relative)) (.inl rfl)
      obtain ⟨-, hspace, hcomma⟩ := isAlpha_letter c.segment.instruction c.relative
      refine ⟨k :: q, .cons hround hrounds, ?_⟩
      rw [List.cons_append, Command.letter, skipSeparator_cons hspace hcomma, ← Command.letter,
        commands_cons hcommand hsuffix, hround.instruction, hround.relative, hq]
      rfl

/-! ## Whole paths -/

theorem segment_moveTo {s t : List Char} {seg : Segment Float}
    (h : PathReader.segment .moveTo s = .ok (seg, t)) : seg.instruction = .moveTo := by
  rw [PathReader.segment] at h
  cases hp : point s with
  | error e => simp [bind, StateT.bind, Except.bind, hp] at h
  | ok r =>
    obtain ⟨p, u⟩ := r
    rw [bind_ok hp] at h
    cases h
    rfl

theorem instruction_none {ch : Char} {i : Instruction} {relative lettered : Bool}
    (h : PathReader.instruction none ch = .ok (i, relative, lettered)) : i = .moveTo := by
  unfold PathReader.instruction at h
  split at h
  · split at h
    · cases h
    · split at h
      · cases h
      · next hmove =>
        cases h
        simpa using hmove
  · cases h

theorem command_none {ch : Char} {cs t : List Char} {k : Command Float}
    (h : command none ch cs = .ok (k, t)) : k.segment.instruction = .moveTo := by
  rw [command] at h
  split at h
  · cases h
  · next i relative lettered hinstruction =>
    cases instruction_none hinstruction
    cases hseg : PathReader.segment .moveTo (if lettered then cs else ch :: cs) with
    | error e =>
      rw [hseg] at h
      cases h
    | ok r =>
      obtain ⟨seg, u⟩ := r
      rw [hseg] at h
      cases h
      exact segment_moveTo hseg

/-- A path that was read begins with a move. -/
theorem head?_of_commands {s : List Char} {p : Path Float} (h : commands none s = .ok p) :
    ∀ c ∈ p.head?, c.segment.instruction = .moveTo := by
  cases s with
  | nil =>
    rw [commands_nil] at h
    cases h
    simp
  | cons ch cs =>
    rw [commands] at h
    split at h
    · cases h
    · next k t hcommand =>
      cases hrest : commands (some (k.segment.instruction, k.relative))
          (cs.drop (cs.length - t.length)) with
      | error e =>
        rw [hrest] at h
        cases h
      | ok q =>
        rw [hrest] at h
        cases h
        intro c hc
        rw [List.head?_cons, Option.mem_some_iff] at hc
        rw [← hc]
        exact command_none hcommand

theorem commands_of_read {d : String} {p : Path Float} (h : read d = .ok p) :
    commands none (skipBlanks d.toList) = .ok p := by
  rw [read] at h
  cases hc : commands none (skipBlanks d.toList) with
  | error e =>
    rw [hc] at h
    cases h
  | ok q =>
    rw [hc] at h
    cases h
    rfl

theorem read_of_commands {d : String} {p : Path Float}
    (h : commands none (skipBlanks d.toList) = .ok p) : read d = .ok p := by
  rw [read, h]
  rfl

/-- A path that was read and is written in any format reads back as the same commands,
with their numbers rounded. -/
theorem read_write {d : String} {p : Path Float} (hd : read d = .ok p) (format : PathFormat)
    (h : ∀ c ∈ p, FinitelyRounded format.precision c.segment.arguments) :
    ∃ q, read (write format p) = .ok q ∧
      List.Forall₂ (RoundedCommand format.precision) p q := by
  cases p with
  | nil => exact ⟨[], read_of_commands commands_nil, .nil⟩
  | cons c path =>
    have hmove := head?_of_commands (commands_of_read hd) c rfl
    have hpath : ∀ d ∈ path, FinitelyRounded format.precision d.segment.arguments :=
      fun d hd => h d (List.mem_cons_of_mem _ hd)
    obtain ⟨k, hround, hcommand, hsuffix⟩ := command_letter (h c List.mem_cons_self)
      (mayFollow_writeCommands hpath) none (.inr hmove)
    obtain ⟨q, hrounds, hq⟩ := commands_writeCommands hpath c
    obtain ⟨-, hspace, -⟩ := isAlpha_letter c.segment.instruction c.relative
    refine ⟨k :: q, read_of_commands ?_, .cons hround hrounds⟩
    have htext : (write format (c :: path)).toList =
        c.letter :: (writeArguments format none c.segment.arguments ++
          writeCommands format (some c) path) := by
      rw [write, String.toList_ofList]
      rfl
    rw [htext, Command.letter, skipBlanks_cons hspace, ← Command.letter,
      commands_cons hcommand hsuffix, hround.instruction, hround.relative, hq]
    rfl

/-- Letters, blanks and zeros that are left out, joined flags and an exponent. -/
theorem read_write_joined :
    ∃ p q, read "M .123456789 .5 l 1.5e-7 .5 2 -3 a 1 1 0 0 1 2.5 .5 z" = .ok p ∧
      write ⟨some 8, true, true, true, true⟩ p = "M.12345679.5l1.5e-7.5 2-3a1 1 0 012.5.5z" ∧
      read (write ⟨some 8, true, true, true, true⟩ p) = .ok q ∧
      List.Forall₂ (RoundedCommand (some 8)) p q := by
  have hread : read "M .123456789 .5 l 1.5e-7 .5 2 -3 a 1 1 0 0 1 2.5 .5 z" = .ok
      [⟨false, .moveTo ⟨0.123456789, 0.5⟩⟩, ⟨true, .lineTo ⟨1.5e-7, 0.5⟩⟩,
        ⟨true, .lineTo ⟨2.0, -3.0⟩⟩, ⟨true, .arc ⟨1.0, 1.0⟩ 0.0 false true ⟨2.5, 0.5⟩⟩,
        ⟨true, .closePath⟩] := by
    decide +kernel
  obtain ⟨q, hq, hrounded⟩ := read_write hread ⟨some 8, true, true, true, true⟩ (by decide +kernel)
  exact ⟨_, q, hread, by decide +kernel, hq, hrounded⟩

end Path
end SvgCompact
