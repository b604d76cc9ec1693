import SvgCompact.Path.Reader
import SvgCompact.Proofs.Decimal.Numeral

/-!
Scanning arguments.

A numeral is scanned up to its end where what follows cannot be part of it, and a
flag up to its one character.  `Scans` puts the arguments of a segment together, each
with the separator behind it.
-/

namespace SvgCompact
namespace PathReader

open Decimal

/-- One argument at the front of a text, and the text behind it. -/
inductive Takes : Argument Float → List Char → List Char → Prop
  | number {x s t} (h : number s = .ok (x, t)) : Takes (.number x) s t
  | flag {b s t} (h : flag s = .ok (b, t)) : Takes (.flag b) s t

/-- Arguments at the front of a text, each with the separator behind it, and the rest. -/
inductive Scans : List (Argument Float) → List Char → List Char → Prop
  | nil {s} : Scans [] s s
  | cons {a as s t u} (first : Takes a s t) (others : Scans as (skipSeparator t) u) :
    Scans (a :: as) s u

/-! ## Blanks and separators -/

variable {s t u rest : List Char} {c : Char} {cs : List Char}

theorem skipBlanks_cons (h : Text.isSpace c = false) (cs : List Char) :
    skipBlanks (c :: cs) = c :: cs := by
  rw [skipBlanks, List.dropWhile_cons_of_neg (by simp [h])]

theorem skipSeparator_cons (h : Text.isSpace c = false) (hcomma : c ≠ ',') (cs : List Char) :
    skipSeparator (c :: cs) = c :: cs := by
  rw [skipSeparator, skipBlanks_cons h]
  split
  · next heq =>
    rw [List.cons.injEq] at heq
    exact absurd heq.1 hcomma
  · rfl

theorem skipSeparator_space (s : List Char) : skipSeparator (' ' :: s) = skipSeparator s := by
  have hblanks : skipBlanks (' ' :: s) = skipBlanks s := by
    rw [skipBlanks, List.dropWhile_cons_of_pos (by decide)]
    rfl
  rw [skipSeparator, hblanks]
  rfl

theorem skipBlanks_suffix (s : List Char) : skipBlanks s <:+ s :=
  List.dropWhile_suffix _

theorem skipSeparator_suffix (s : List Char) : skipSeparator s <:+ s := by
  have hblanks := skipBlanks_suffix s
  rw [skipSeparator]
  split
  · next cs heq =>
    rw [heq] at hblanks
    exact (skipBlanks_suffix cs).trans ((List.suffix_cons ',' cs).trans hblanks)
  · exact hblanks

/-! ## Numbers -/

/-- Nothing in front of a number is skipped, and it does not look like a command. -/
theorem not_blank_of_numeral (h : c.isDigit = true ∨ c = '.' ∨ c = '-') :
    Text.isSpace c = false ∧ c ≠ ',' ∧ c.isAlpha = false := by
  rcases h with hdigit | rfl | rfl
  · have hspace : Text.isSpace c = false := by
      rw [Bool.eq_false_iff]
      intro hblank
      simp only [Text.isSpace, Text.isMarkupBlank, Bool.or_eq_true, beq_iff_eq] at hblank
      rcases hblank with (((rfl | rfl) | rfl) | rfl) | rfl <;> exact absurd hdigit (by decide)
    have hcomma : c ≠ ',' := by
      rintro rfl
      exact absurd hdigit (by decide)
    have halpha : c.isAlpha = false := by
      simp only [Char.isDigit, Bool.and_eq_true, decide_eq_true_eq] at hdigit
      have hupper : ¬ c.val ≥ 'A'.val := fun hl => absurd (Nat.le_trans hl hdigit.2) (by decide)
      have hlower : ¬ c.val ≥ 'a'.val := fun hl => absurd (Nat.le_trans hl hdigit.2) (by decide)
      simp only [Char.isAlpha, Char.isUpper, Char.isLower, hupper, hlower, false_and, decide_false,
        Bool.or_self, Bool.false_and]
    exact ⟨hspace, hcomma, halpha⟩
  · decide
  · decide

variable {n : Numeral}

theorem signLength_text (h : n.WellFormed) (rest : List Char) :
    signLength (n.text ++ rest) = (signText n.negative).length := by
  rw [Numeral.text]
  cases n.negative with
  | true => rfl
  | false =>
    obtain ⟨c, cs, heq, hc⟩ := h.head?_unsignedText rest
    change signLength (n.unsignedText ++ rest) = 0
    rw [heq]
    have hminus : c ≠ '-' := by rintro rfl; revert hc; decide
    have hplus : c ≠ '+' := by rintro rfl; revert hc; decide
    simp only [signLength]
    split <;> simp_all

theorem digitsLength_text (h : n.WellFormed) (hends : n.Ends rest) :
    digitsLength (n.unsignedText ++ rest) = (n.ahead ++ n.behindText).length := by
  have hstop := Numeral.stopsDigits_behindText (n := n) hends.digit
  have hsplit : n.unsignedText ++ rest = n.ahead ++ (n.behindText ++ (n.powerText ++ rest)) := by
    simp [Numeral.unsignedText]
  rw [hsplit, digitsLength, takeWhile_isDigit h.ahead hstop, dropWhile_isDigit h.ahead hstop,
    List.length_append, Numeral.behindText]
  cases hb : n.behind with
  | some digits =>
    have hrun := takeWhile_isDigit (h.behind digits hb).2
      (Numeral.stopsDigits_powerText (n := n) hends.digit)
    simp only [List.cons_append, hrun, List.length_cons]
    omega
  | none =>
    -- A point behind the digits would be another number's, and only an exponent lets it be.
    simp only [List.nil_append]
    split
    · next cs heq =>
      rw [Numeral.powerText] at heq
      cases hp : n.power with
      | some p => simp [hp] at heq
      | none =>
        rw [hp] at heq
        have hpoint := hends.point (by simpa using congrArg List.head? heq)
        simp [Numeral.IsClosed, hb, hp] at hpoint
    · simp

theorem exponentLength_text (h : n.WellFormed) (hends : n.Ends rest) :
    exponentLength (n.powerText ++ rest) = n.powerText.length := by
  rw [Numeral.powerText]
  cases hp : n.power with
  | none =>
    cases rest with
    | nil => rfl
    | cons c cs =>
      have hletter := hends.letter c rfl
      simp [exponentLength, hletter.1, hletter.2]
  | some p =>
    obtain ⟨negative, digits⟩ := p
    obtain ⟨hne, hall⟩ := h.power _ hp
    have hrun := takeWhile_isDigit hall hends.digit
    cases negative with
    | true =>
      simp [exponentLength, signText, signLength, hrun]
      omega
    | false =>
      cases digits with
      | nil => exact absurd rfl hne
      | cons d ds =>
        have hd := hall d (by simp)
        have hsign : signLength (d :: (ds ++ rest)) = 0 := by
          simp only [signLength]
          split <;> simp_all
        rw [List.cons_append] at hrun
        simp [exponentLength, signText, hsign, hrun]
        omega

theorem numberLength_text (h : n.WellFormed) (hends : n.Ends rest) :
    numberLength (n.text ++ rest) = n.text.length := by
  have hunsigned : (n.text ++ rest).drop (signText n.negative).length = n.unsignedText ++ rest := by
    rw [Numeral.text, List.append_assoc, List.drop_left]
  have hpower : (n.unsignedText ++ rest).drop (n.ahead ++ n.behindText).length =
      n.powerText ++ rest := by
    rw [Numeral.unsignedText, ← List.append_assoc, List.append_assoc, List.drop_left]
  simp only [numberLength, signLength_text h, hunsigned, digitsLength_text h hends, hpower,
    exponentLength_text h hends]
  simp only [Numeral.text, Numeral.unsignedText, List.length_append]
  omega

theorem number_text (h : n.WellFormed) (hends : n.Ends rest) :
    number (n.text ++ rest) = .ok (n.value, rest) := by
  obtain ⟨c, cs, heq, hc⟩ := h.head?_text rest
  have hskip : skipBlanks (n.text ++ rest) = n.text ++ rest := by
    rw [heq, skipBlanks_cons (not_blank_of_numeral hc).1]
  have hne : n.text.isEmpty = false := by
    obtain ⟨d, ds, htext, -⟩ := h.head?_text []
    rw [List.append_nil] at htext
    rw [htext]
    rfl
  simp only [number, hskip, numberLength_text h hends, List.take_left, List.drop_left, hne,
    Numeral.read?_text h]
  rfl

theorem flag_text (b : Bool) (rest : List Char) :
    flag ((if b then ['1'] else ['0']) ++ rest) = .ok (b, rest) := by
  cases b <;> rfl

/-! ## Arguments -/

theorem number_suffix {x : Float} (h : number s = .ok (x, t)) : t <:+ s ∧ t.length < s.length := by
  have hblanks := skipBlanks_suffix s
  simp only [number] at h
  split at h
  · cases h
  · next hne =>
    split at h
    · cases h
      refine ⟨(List.drop_suffix _ _).trans hblanks, ?_⟩
      have hpos : 0 < min (numberLength (skipBlanks s)) (skipBlanks s).length := by
        rw [← List.length_take]
        exact List.length_pos_iff.2 (by simpa using hne)
      have hle := hblanks.length_le
      rw [List.length_drop]
      omega
    · cases h

theorem flag_suffix {b : Bool} (h : flag s = .ok (b, t)) : t <:+ s ∧ t.length < s.length := by
  have hblanks := skipBlanks_suffix s
  have hcons : ∀ c, skipBlanks s = c :: t → t <:+ s ∧ t.length < s.length := by
    intro c heq
    rw [heq] at hblanks
    exact ⟨(List.suffix_cons c t).trans hblanks, hblanks.length_le⟩
  simp only [flag] at h
  split at h
  · next heq => cases h; exact hcons _ heq
  · next heq => cases h; exact hcons _ heq
  · cases h
  · cases h

theorem Takes.suffix {a : Argument Float} (h : Takes a s t) : t <:+ s ∧ t.length < s.length := by
  cases h with
  | number h => exact number_suffix h
  | flag h => exact flag_suffix h

theorem Scans.suffix {as : List (Argument Float)} (h : Scans as s u) :
    u <:+ s ∧ (as ≠ [] → u.length < s.length) := by
  induction h with
  | nil => exact ⟨List.suffix_refl _, fun hne => absurd rfl hne⟩
  | @cons a as s t u first _ ih =>
    obtain ⟨hts, hlt⟩ := first.suffix
    have hut := ih.1.trans (skipSeparator_suffix t)
    exact ⟨hut.trans hts, fun _ => Nat.lt_of_le_of_lt hut.length_le hlt⟩

/-! ## Segments -/

section

variable {α β : Type} {f : Step α} {g : α → Step β} {a : α}

theorem bind_ok (h : f s = .ok (a, t)) : (f >>= g) s = g a t := by
  simp [bind, StateT.bind, Except.bind, h]

theorem separator_bind (g : Unit → Step β) (s : List Char) :
    (separator >>= g) s = g () (skipSeparator s) := rfl

end

theorem Scans.number_cons {x : Float} {as : List (Argument Float)}
    (h : Scans (.number x :: as) s u) :
    ∃ t, number s = .ok (x, t) ∧ Scans as (skipSeparator t) u := by
  cases h with
  | cons first others =>
    cases first with
    | number h => exact ⟨_, h, others⟩

theorem Scans.flag_cons {b : Bool} {as : List (Argument Float)}
    (h : Scans (.flag b :: as) s u) : ∃ t, flag s = .ok (b, t) ∧ Scans as (skipSeparator t) u := by
  cases h with
  | cons first others =>
    cases first with
    | flag h => exact ⟨_, h, others⟩

theorem Scans.eq_of_nil (h : Scans [] s u) : s = u := by
  cases h
  rfl

theorem Scans.point_append {p : Point Float} {as : List (Argument Float)}
    (h : Scans (p.arguments ++ as) s u) :
    ∃ t, point s = .ok (p, t) ∧ Scans as (skipSeparator t) u := by
  obtain ⟨t, hx, hrest⟩ := h.number_cons
  obtain ⟨v, hy, hothers⟩ := hrest.number_cons
  refine ⟨v, ?_, hothers⟩
  rw [point, bind_ok hx, separator_bind, bind_ok hy]
  rfl

theorem Scans.point_last {p : Point Float} (h : Scans p.arguments s u) :
    ∃ t, point s = .ok (p, t) ∧ skipSeparator t = u := by
  rw [← List.append_nil p.arguments] at h
  obtain ⟨t, hp, hnil⟩ := h.point_append
  exact ⟨t, hp, hnil.eq_of_nil⟩

/-- A segment with arguments is read from a text that its arguments scan. -/
theorem segment_of_scans {seg : Segment Float} (h : Scans seg.arguments s u)
    (hne : seg.instruction ≠ .closePath) :
    ∃ t, segment seg.instruction s = .ok (seg, t) ∧ skipSeparator t = u := by
  cases seg with
  | moveTo p =>
    obtain ⟨t, hp, hu⟩ := h.point_last
    exact ⟨t, by rw [Segment.instruction, segment, bind_ok hp]; rfl, hu⟩
  | lineTo p =>
    obtain ⟨t, hp, hu⟩ := h.point_last
    exact ⟨t, by rw [Segment.instruction, segment, bind_ok hp]; rfl, hu⟩
  | horizontalTo x =>
    obtain ⟨t, hx, hnil⟩ := h.number_cons
    exact ⟨t, by rw [Segment.instruction, segment, bind_ok hx]; rfl, hnil.eq_of_nil⟩
  | verticalTo y =>
    obtain ⟨t, hy, hnil⟩ := h.number_cons
    exact ⟨t, by rw [Segment.instruction, segment, bind_ok hy]; rfl, hnil.eq_of_nil⟩
  | curveTo a b p =>
    rw [Segment.arguments, List.append_assoc] at h
    obtain ⟨t, ha, hrest⟩ := h.point_append
    obtain ⟨v, hb, hlast⟩ := hrest.point_append
    obtain ⟨w, hp, hu⟩ := hlast.point_last
    refine ⟨w, ?_, hu⟩
    rw [Segment.instruction, segment, bind_ok ha, separator_bind, bind_ok hb, separator_bind,
      bind_ok hp]
    rfl
  | smoothCurveTo b p =>
    obtain ⟨t, hb, hlast⟩ := h.point_append
    obtain ⟨v, hp, hu⟩ := hlast.point_last
    refine ⟨v, ?_, hu⟩
    rw [Segment.instruction, segment, bind_ok hb, separator_bind, bind_ok hp]
    rfl
  | quadTo a p =>
    obtain ⟨t, ha, hlast⟩ := h.point_append
    obtain ⟨v, hp, hu⟩ := hlast.point_last
    refine ⟨v, ?_, hu⟩
    rw [Segment.instruction, segment, bind_ok ha, separator_bind, bind_ok hp]
    rfl
  | smoothQuadTo p =>
    obtain ⟨t, hp, hu⟩ := h.point_last
    exact ⟨t, by rw [Segment.instruction, segment, bind_ok hp]; rfl, hu⟩
  | arc radii rotation large sweep p =>
    rw [Segment.arguments, List.append_assoc] at h
    obtain ⟨t₁, hradii, h₁⟩ := h.point_append
    obtain ⟨t₂, hrotation, h₂⟩ := h₁.number_cons
    obtain ⟨t₃, hlarge, h₃⟩ := h₂.flag_cons
    obtain ⟨t₄, hsweep, h₄⟩ := h₃.flag_cons
    obtain ⟨t₅, hp, hu⟩ := Scans.point_last h₄
    refine ⟨t₅, ?_, hu⟩
    rw [Segment.instruction, segment, bind_ok hradii, separator_bind, bind_ok hrotation,
      separator_bind, bind_ok hlarge, separator_bind, bind_ok hsweep, separator_bind, bind_ok hp]
    rfl
  | closePath => exact absurd rfl hne

/-! ## Commands -/

section

variable {before : Option (Instruction × Bool)} {k : Command Float} {path : Path Float}

theorem commands_nil : commands before [] = .ok [] := by
  rw [commands]

theorem commands_cons (h : command before c cs = .ok (k, rest)) (hrest : rest <:+ cs) :
    commands before (c :: cs) =
      (commands (some (k.segment.instruction, k.relative)) rest).map (k :: ·) := by
  rw [commands, h]
  simp only
  rw [← List.suffix_iff_eq_drop.1 hrest]

end

end PathReader
end SvgCompact
