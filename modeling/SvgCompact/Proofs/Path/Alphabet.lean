import SvgCompact.Proofs.Decimal.Bits
import SvgCompact.Proofs.Path.RoundTrip

/-!
The characters of path data.

What the reader takes of a text is blanks, commas, the letters of commands and the characters
that numbers are written with.  A number that is not finite is written as a word, and in each
of these words there is a character that the reader takes nowhere.  So written path data can
be read if and only if its numbers are finite when they are rounded.
-/

namespace SvgCompact
namespace PathReader

/-- Whether a character may stand in path data. -/
def isLegible (c : Char) : Bool :=
  Text.isSpace c || c.isDigit || [',', '+', '-', '.', 'e', 'E'].contains c ||
    (Instruction.ofLetter? c).isSome

theorem isLegible_of_isSpace {c : Char} (h : Text.isSpace c = true) : isLegible c = true := by
  rw [isLegible, h, Bool.true_or, Bool.true_or, Bool.true_or]

theorem isLegible_of_isDigit {c : Char} (h : c.isDigit = true) : isLegible c = true := by
  rw [isLegible, h, Bool.or_true, Bool.true_or, Bool.true_or]

theorem isLegible_of_ofLetter? {c : Char} {i : Instruction × Bool}
    (h : Instruction.ofLetter? c = some i) : isLegible c = true := by
  rw [isLegible, h, Option.isSome_some, Bool.or_true]

/-! ## What is taken from the front -/

/-- A text without some characters in front of it, all of them legible and at least `n`. -/
def Skips (n : Nat) (s t : List Char) : Prop :=
  ∃ front, s = front ++ t ∧ n ≤ front.length ∧ ∀ c ∈ front, isLegible c = true

namespace Skips

variable {m n : Nat} {s t u cs : List Char} {c : Char}

theorem refl (s : List Char) : Skips 0 s s :=
  ⟨[], rfl, Nat.le_refl 0, List.forall_mem_nil _⟩

theorem trans (h : Skips m s t) (h' : Skips n t u) : Skips (m + n) s u := by
  obtain ⟨front, rfl, hm, hfront⟩ := h
  obtain ⟨back, rfl, hn, hback⟩ := h'
  refine ⟨front ++ back, (List.append_assoc ..).symm, ?_, List.forall_mem_append.2 ⟨hfront, hback⟩⟩
  rw [List.length_append]
  omega

theorem cons (h : isLegible c = true) (hcs : Skips n cs t) : Skips (1 + n) (c :: cs) t :=
  trans ⟨[c], rfl, Nat.le_refl 1, List.forall_mem_singleton.2 h⟩ hcs

theorem mono (h : Skips n s t) (hm : m ≤ n) : Skips m s t := by
  obtain ⟨front, heq, hn, hfront⟩ := h
  exact ⟨front, heq, hm.trans hn, hfront⟩

theorem of_length_lt (h : Skips n s t) (hlt : t.length < s.length) : Skips 1 s t := by
  obtain ⟨front, rfl, -, hfront⟩ := h
  rw [List.length_append] at hlt
  exact ⟨front, rfl, by omega, hfront⟩

theorem suffix_of_cons (h : Skips 1 (c :: cs) t) : t <:+ cs := by
  obtain ⟨front, heq, hpos, -⟩ := h
  cases front with
  | nil => exact absurd hpos (by decide)
  | cons a front => exact ⟨front, (List.cons.inj heq).2.symm⟩

theorem forall_mem (h : Skips n s t) (ht : ∀ c ∈ t, isLegible c = true) :
    ∀ c ∈ s, isLegible c = true := by
  obtain ⟨front, rfl, -, hfront⟩ := h
  exact List.forall_mem_append.2 ⟨hfront, ht⟩

theorem dropWhile {p : Char → Bool} (hp : ∀ c, p c = true → isLegible c = true) (s : List Char) :
    Skips 0 s (s.dropWhile p) :=
  ⟨s.takeWhile p, List.takeWhile_append_dropWhile.symm, Nat.zero_le _,
    fun c hc => hp c (List.mem_takeWhile_imp hc)⟩

end Skips

/-! ## Numbers -/

theorem drop_length_takeWhile (p : Char → Bool) (s : List Char) :
    s.drop (s.takeWhile p).length = s.dropWhile p :=
  List.append_cancel_left ((List.prefix_iff_eq_append.1 (List.takeWhile_prefix p)).trans
    List.takeWhile_append_dropWhile.symm)

theorem skips_isDigit (s : List Char) : Skips 0 s (s.drop (s.takeWhile Char.isDigit).length) :=
  drop_length_takeWhile Char.isDigit s ▸ .dropWhile (fun _ => isLegible_of_isDigit) s

theorem skips_skipBlanks (s : List Char) : Skips 0 s (skipBlanks s) :=
  .dropWhile (fun _ => isLegible_of_isSpace) s

theorem skips_skipSeparator (s : List Char) : Skips 0 s (skipSeparator s) := by
  have hblanks := skips_skipBlanks s
  rw [skipSeparator]
  split
  · next cs heq =>
    rw [heq] at hblanks
    exact (hblanks.trans (.cons rfl (skips_skipBlanks cs))).mono (Nat.zero_le _)
  · exact hblanks

theorem skips_sign (s : List Char) : Skips 0 s (s.drop (signLength s)) := by
  unfold signLength
  split
  · exact (Skips.cons rfl (.refl _)).mono (Nat.zero_le _)
  · exact (Skips.cons rfl (.refl _)).mono (Nat.zero_le _)
  · exact .refl s

theorem skips_digits (s : List Char) : Skips 0 s (s.drop (digitsLength s)) := by
  have hahead := skips_isDigit s
  rw [drop_length_takeWhile] at hahead
  rw [digitsLength]
  split
  · next cs heq =>
    rw [← List.drop_drop, ← List.drop_drop, drop_length_takeWhile, heq, List.drop_one]
    rw [heq] at hahead
    exact (hahead.trans (.cons rfl (skips_isDigit cs))).mono (Nat.zero_le _)
  · exact skips_isDigit s

theorem skips_exponent (s : List Char) : Skips 0 s (s.drop (exponentLength s)) := by
  cases s with
  | nil => exact .refl _
  | cons c cs =>
    rw [exponentLength]
    split
    · next hletter =>
      have hc : isLegible c = true := by
        rcases Bool.or_eq_true_iff.1 hletter with h | h <;> rw [eq_of_beq h] <;> rfl
      rw [← List.drop_drop, ← List.drop_drop, List.drop_one]
      exact (Skips.cons hc ((skips_sign cs).trans (skips_isDigit _))).mono (Nat.zero_le _)
    · exact .refl _

theorem skips_number (s : List Char) : Skips 0 s (s.drop (numberLength s)) := by
  simp only [numberLength, ← List.drop_drop]
  exact ((skips_sign s).trans (skips_digits _)).trans (skips_exponent _)

/-! ## Steps -/

/-- A step that takes legible characters only, and at least `n`. -/
def Consumes {α : Type} (n : Nat) (f : Step α) : Prop :=
  ∀ s x t, f s = .ok (x, t) → Skips n s t

section

variable {α β : Type} {m n : Nat} {f : Step α} {g : α → Step β}

theorem Consumes.pure (x : α) : Consumes 0 (Pure.pure x : Step α) := by
  intro s y t h
  cases h
  exact .refl s

theorem Consumes.bind (hf : Consumes m f) (hg : ∀ x, Consumes n (g x)) :
    Consumes (m + n) (f >>= g) := by
  intro s y u h
  cases hs : f s with
  | error e => simp [Bind.bind, StateT.bind, Except.bind, hs] at h
  | ok r =>
    obtain ⟨x, t⟩ := r
    rw [bind_ok hs] at h
    exact (hf s x t hs).trans (hg x t y u h)

end

theorem consumes_number : Consumes 1 number := by
  intro s x t h
  have hlt := (number_suffix h).2
  have hskips := (skips_skipBlanks s).trans (skips_number _)
  simp only [number] at h
  split at h
  · cases h
  · split at h
    · cases h
      exact hskips.of_length_lt hlt
    · cases h

theorem consumes_flag : Consumes 1 flag := by
  intro s b t h
  have hblanks := skips_skipBlanks s
  simp only [flag] at h
  split at h
  · next heq =>
    cases h
    rw [heq] at hblanks
    exact hblanks.trans (.cons rfl (.refl t))
  · next heq =>
    cases h
    rw [heq] at hblanks
    exact hblanks.trans (.cons rfl (.refl t))
  · cases h
  · cases h

theorem consumes_separator : Consumes 0 separator := by
  intro s _ t h
  cases h
  exact skips_skipSeparator s

theorem consumes_point : Consumes 2 point :=
  consumes_number.bind fun _ => consumes_separator.bind fun _ =>
    consumes_number.bind fun _ => .pure _

/-- A segment takes a character at least for each of its arguments. -/
theorem consumes_segment (i : Instruction) : Consumes i.arity (segment i) := by
  cases i with
  | moveTo => exact consumes_point.bind fun _ => .pure _
  | lineTo => exact consumes_point.bind fun _ => .pure _
  | horizontalTo => exact consumes_number.bind fun _ => .pure _
  | verticalTo => exact consumes_number.bind fun _ => .pure _
  | curveTo =>
    exact consumes_point.bind fun _ => consumes_separator.bind fun _ =>
      consumes_point.bind fun _ => consumes_separator.bind fun _ =>
        consumes_point.bind fun _ => .pure _
  | smoothCurveTo =>
    exact consumes_point.bind fun _ => consumes_separator.bind fun _ =>
      consumes_point.bind fun _ => .pure _
  | quadTo =>
    exact consumes_point.bind fun _ => consumes_separator.bind fun _ =>
      consumes_point.bind fun _ => .pure _
  | smoothQuadTo => exact consumes_point.bind fun _ => .pure _
  | arc =>
    exact consumes_point.bind fun _ => consumes_separator.bind fun _ =>
      consumes_number.bind fun _ => consumes_separator.bind fun _ =>
        consumes_flag.bind fun _ => consumes_separator.bind fun _ =>
          consumes_flag.bind fun _ => consumes_separator.bind fun _ =>
            consumes_point.bind fun _ => .pure _
  | closePath => exact .pure _

/-! ## Commands -/

section

variable {before : Option (Instruction × Bool)} {c : Char} {cs s t : List Char}

/-- A command begins with its letter, or with an argument where it goes on. -/
theorem instruction_cases {i : Instruction} {relative lettered : Bool}
    (h : PathReader.instruction before c = .ok (i, relative, lettered)) :
    (lettered = true ∧ isLegible c = true) ∨ (lettered = false ∧ 0 < i.arity) := by
  unfold PathReader.instruction at h
  split at h
  · split at h
    · cases h
    · next hletter =>
      split at h
      · cases h
      · cases h
        exact .inl ⟨rfl, isLegible_of_ofLetter? hletter⟩
  · split at h
    · cases h
      exact .inr ⟨rfl, by decide⟩
    · cases h
    · next _ _ _ hclose =>
      cases h
      refine .inr ⟨rfl, ?_⟩
      cases i with
      | closePath => exact absurd rfl hclose
      | _ => decide
    · cases h

theorem skips_command {k : Command Float} (h : command before c cs = .ok (k, t)) :
    Skips 1 (c :: cs) t := by
  rw [command] at h
  split at h
  · cases h
  · next i relative lettered hinstruction =>
    cases hsegment : PathReader.segment i (if lettered then cs else c :: cs) with
    | error e =>
      rw [hsegment] at h
      cases h
    | ok r =>
      obtain ⟨segment, u⟩ := r
      rw [hsegment] at h
      cases h
      have hskips := (consumes_segment i _ _ _ hsegment).trans (skips_skipSeparator u)
      rcases instruction_cases hinstruction with ⟨rfl, hlegible⟩ | ⟨rfl, harity⟩
      · exact (Skips.cons hlegible hskips).mono (by omega)
      · exact hskips.mono harity

/-- Commands are read from legible characters only. -/
theorem isLegible_of_commands {path : Path Float} (h : commands before s = .ok path) :
    ∀ c ∈ s, isLegible c = true := by
  induction before, s using commands.induct generalizing path with
  | case1 before => exact List.forall_mem_nil _
  | case2 before c cs e hcommand =>
    rw [commands, hcommand] at h
    cases h
  | case3 before c cs k t hcommand ih =>
    have hskips := skips_command hcommand
    -- a command takes its first character, so the reader goes on with all that it left
    rw [← List.suffix_iff_eq_drop.1 hskips.suffix_of_cons] at ih
    rw [commands_cons hcommand hskips.suffix_of_cons] at h
    cases hrest : commands (some (k.segment.instruction, k.relative)) t with
    | error e =>
      rw [hrest] at h
      cases h
    | ok rest => exact hskips.forall_mem (ih hrest)

end

end PathReader

/-! ## Numbers that are not finite -/

namespace Decimal

open PathReader

theorem ofFloat_of_not_isFinite {x : Float} (h : x.isFinite = false) :
    Binary.ofFloat x = .nan ∨ ∃ negative, Binary.ofFloat x = .infinite negative := by
  have hunpacked : x.toModel.unpack.isFinite = false := h
  rw [unpack_toModel] at hunpacked
  cases hx : Binary.ofFloat x with
  | nan => exact .inl rfl
  | infinite negative => exact .inr ⟨negative, rfl⟩
  | finite negative mantissa exponent =>
    rw [hx, Binary.unpacked] at hunpacked
    split at hunpacked <;> cases hunpacked

/-- A number that is not finite is written as one of three words. -/
theorem plain_of_not_isFinite {x : Float} (h : x.isFinite = false) :
    plain x = ['N', 'a', 'N'] ∨ ∃ negative, plain x = signText negative ++ ['i', 'n', 'f'] := by
  have hzero : ¬ (x == 0.0) = true := by
    rw [Double.beq_zero_iff_unpack, unpack_toModel]
    rintro ⟨s, hs⟩
    rcases ofFloat_of_not_isFinite h with hx | ⟨negative, hx⟩ <;> rw [hx] at hs <;> cases hs
  rw [plain, if_neg hzero, write, Layout.write]
  rcases ofFloat_of_not_isFinite h with hx | ⟨negative, hx⟩
  · rw [hx]
    exact .inl rfl
  · rw [hx]
    cases negative
    · exact .inr ⟨false, rfl⟩
    · exact .inr ⟨true, rfl⟩

/-- No zero is dropped from these words, and one of their letters is no command. -/
theorem exists_illegible_plain {x : Float} (h : x.isFinite = false) :
    dropZero (plain x) = plain x ∧ ∃ c ∈ plain x, isLegible c = false := by
  rcases plain_of_not_isFinite h with hword | ⟨negative, hword⟩
  · rw [hword]
    exact ⟨rfl, 'N', List.mem_cons_self, rfl⟩
  · rw [hword]
    refine ⟨by cases negative <;> rfl, 'n', List.mem_append_right _ ?_, rfl⟩
    exact List.mem_cons_of_mem _ List.mem_cons_self

end Decimal

namespace Path

open PathReader

variable {format : PathFormat} {a : Argument Float} {as : List (Argument Float)}

theorem exists_illegible_argumentText (h : staysFinite format.precision a = false) :
    ∃ c ∈ (argumentText format a).1, isLegible c = false := by
  cases a with
  | flag b => cases h
  | number raw =>
    obtain ⟨hdrop, hillegible⟩ := Decimal.exists_illegible_plain h
    rw [argumentText]
    dsimp only
    rwa [hdrop, ite_self]

theorem argumentText_subset_writeArguments (ha : a ∈ as) (before : Option (Argument Float)) :
    (argumentText format a).1 ⊆ writeArguments format before as := by
  induction as generalizing before with
  | nil => cases ha
  | cons b as ih =>
    rw [writeArguments]
    rcases List.mem_cons.1 ha with rfl | ha
    · exact List.subset_append_of_subset_left _ (List.subset_append_right _ _)
    · exact List.subset_append_of_subset_right _ (ih ha _)

theorem argumentText_subset_writeCommands {path : Path Float} {c : Command Float} (hc : c ∈ path)
    (ha : a ∈ c.segment.arguments) (before : Option (Command Float)) :
    (argumentText format a).1 ⊆ writeCommands format before path := by
  induction path generalizing before with
  | nil => cases hc
  | cons k path ih =>
    unfold writeCommands
    rcases List.mem_cons.1 hc with rfl | hc
    · refine List.subset_append_of_subset_left _ ?_
      have hlettered : (argumentText format a).1 ⊆
          c.letter :: writeArguments format none c.segment.arguments :=
        List.subset_cons_of_subset _ (argumentText_subset_writeArguments ha none)
      cases before with
      | none => exact hlettered
      | some b =>
        dsimp only
        split
        · exact argumentText_subset_writeArguments ha _
        · exact hlettered
    · exact List.subset_append_of_subset_right _ (ih hc _)

theorem isLegible_of_read {d : String} {p : Path Float} (h : read d = .ok p) :
    ∀ c ∈ d.toList, isLegible c = true :=
  (skips_skipBlanks d.toList).forall_mem (isLegible_of_commands (commands_of_read h))

/-- What can be read of a written path was written of finite numbers. -/
theorem finitelyRounded_of_read_write {p q : Path Float} (h : read (write format p) = .ok q) :
    ∀ c ∈ p, FinitelyRounded format.precision c.segment.arguments := by
  intro c hc a ha
  have hlegible := isLegible_of_read h
  rw [write, String.toList_ofList] at hlegible
  by_contra hnot
  obtain ⟨x, hx, hillegible⟩ := exists_illegible_argumentText (Bool.eq_false_iff.2 hnot)
  have hwritten := hlegible x (argumentText_subset_writeCommands hc ha none hx)
  rw [hillegible] at hwritten
  cases hwritten

/-- A path that was read and is written can be read again if and only if its numbers are
finite when they are rounded. -/
theorem exists_read_write_iff {d : String} {p : Path Float} (hd : read d = .ok p)
    (format : PathFormat) :
    (∃ q, read (write format p) = .ok q) ↔
      ∀ c ∈ p, FinitelyRounded format.precision c.segment.arguments := by
  constructor
  · rintro ⟨q, hq⟩
    exact finitelyRounded_of_read_write hq
  · intro hfinite
    obtain ⟨q, hq, -⟩ := read_write hd format hfinite
    exact ⟨q, hq⟩

/-! ## The commands without their numbers -/

/-- What the commands of a path do, and which of them are relative. -/
def kinds (p : Path Float) : List (Instruction × Bool) :=
  p.map fun c => (c.segment.instruction, c.relative)

theorem kinds_of_rounded {precision : Option Nat} {p q : Path Float}
    (h : List.Forall₂ (RoundedCommand precision) p q) : q.kinds = p.kinds := by
  induction h with
  | nil => rfl
  | cons hck _ ih =>
    rw [kinds, kinds, List.map_cons, List.map_cons, hck.instruction, hck.relative]
    exact congrArg _ ih

/-- Where the written path can be read, it has the commands that it had. -/
theorem kinds_of_read_write {d : String} {p q : Path Float} (hd : read d = .ok p)
    (hq : read (write format p) = .ok q) : q.kinds = p.kinds := by
  obtain ⟨q', hread, hrounded⟩ := read_write hd format (finitelyRounded_of_read_write hq)
  rw [hread] at hq
  cases hq
  exact kinds_of_rounded hrounded

end Path
end SvgCompact
