import Mathlib
import SvgCompact.Decimal.Reader
import SvgCompact.Decimal.Rounding

/-!
Numbers as they are written.

A numeral is a sign, the digits ahead of the point, the digits behind it and an
exponent.  The reader accepts every well-formed numeral.  Dropping the zero in
front of a point keeps the numeral well formed and its digits the same number.
-/

namespace SvgCompact
namespace Decimal

/-! ## Runs of digits -/

def AllDigits (s : List Char) : Prop := ∀ c ∈ s, c.isDigit = true

/-- Whether a run of digits ends in front of the text. -/
def StopsDigits (s : List Char) : Prop := ∀ c ∈ s.head?, c.isDigit = false

theorem stopsDigits_cons {c : Char} (h : c.isDigit = false) (s : List Char) :
    StopsDigits (c :: s) := by
  intro d hd
  rw [List.head?_cons, Option.mem_some_iff] at hd
  rw [← hd, h]

theorem stopsDigits_nil : StopsDigits [] := by
  intro d hd
  exact absurd hd (by simp)

variable {digits rest : List Char}

theorem takeWhile_isDigit (hd : AllDigits digits) (hr : StopsDigits rest) :
    (digits ++ rest).takeWhile Char.isDigit = digits := by
  rw [List.takeWhile_append_of_pos hd]
  cases rest with
  | nil => simp
  | cons c cs => rw [List.takeWhile_cons_of_neg (by simp [hr c rfl]), List.append_nil]

theorem dropWhile_isDigit (hd : AllDigits digits) (hr : StopsDigits rest) :
    (digits ++ rest).dropWhile Char.isDigit = rest := by
  rw [List.dropWhile_append_of_pos hd]
  cases rest with
  | nil => rfl
  | cons c cs => rw [List.dropWhile_cons_of_neg (by simp [hr c rfl])]

theorem ofDigits_cons_zero (digits : List Char) : ofDigits ('0' :: digits) = ofDigits digits := rfl

/-! ## Numerals -/

structure Numeral where
  negative : Bool
  ahead : List Char
  behind : Option (List Char)
  /-- Whether the exponent is negative, and its digits. -/
  power : Option (Bool × List Char)

def signText (negative : Bool) : List Char :=
  if negative then ['-'] else []

namespace Numeral

def behindText (n : Numeral) : List Char :=
  match n.behind with
  | none => []
  | some digits => '.' :: digits

def powerText (n : Numeral) : List Char :=
  match n.power with
  | none => []
  | some (negative, digits) => 'e' :: (signText negative ++ digits)

def unsignedText (n : Numeral) : List Char :=
  n.ahead ++ (n.behindText ++ n.powerText)

def text (n : Numeral) : List Char :=
  signText n.negative ++ n.unsignedText

/-- The digits without the point, as a number. -/
def mantissa (n : Numeral) : Nat :=
  ofDigits (n.ahead ++ n.behind.getD [])

def powerValue (n : Numeral) : Int :=
  match n.power with
  | none => 0
  | some (negative, digits) => if negative then -(ofDigits digits : Int) else ofDigits digits

/-- The exponent of the last digit. -/
def exponent (n : Numeral) : Int :=
  n.powerValue - (n.behind.getD []).length

def value (n : Numeral) : Float :=
  let x := scientific n.mantissa n.exponent
  if n.negative then -x else x

/-- Whether a point behind the numeral cannot be part of it. -/
def IsClosed (n : Numeral) : Prop := n.behind.isSome = true ∨ n.power.isSome = true

structure WellFormed (n : Numeral) : Prop where
  ahead : AllDigits n.ahead
  behind : ∀ digits ∈ n.behind, digits ≠ [] ∧ AllDigits digits
  power : ∀ p ∈ n.power, p.2 ≠ [] ∧ AllDigits p.2
  /-- There is a digit on one side of the point. -/
  some_digit : n.ahead ≠ [] ∨ n.behind.isSome = true

variable {n : Numeral}

/-- What may follow a numeral without becoming part of it. -/
structure Ends (n : Numeral) (rest : List Char) : Prop where
  digit : StopsDigits rest
  letter : ∀ c ∈ rest.head?, c ≠ 'e' ∧ c ≠ 'E'
  point : '.' ∈ rest.head? → n.IsClosed

/-! ## The first character -/

theorem WellFormed.head?_unsignedText (h : n.WellFormed) (rest : List Char) :
    ∃ c cs, n.unsignedText ++ rest = c :: cs ∧ (c.isDigit = true ∨ c = '.') := by
  rw [unsignedText]
  cases hahead : n.ahead with
  | cons c cs => exact ⟨c, _, rfl, .inl (h.ahead c (by simp [hahead]))⟩
  | nil =>
    obtain ⟨digits, hbehind⟩ := Option.isSome_iff_exists.1
      (h.some_digit.resolve_left (by simp [hahead]))
    exact ⟨'.', digits ++ (n.powerText ++ rest), by simp [behindText, hbehind], .inr rfl⟩

theorem WellFormed.head?_text (h : n.WellFormed) (rest : List Char) :
    ∃ c cs, n.text ++ rest = c :: cs ∧ (c.isDigit = true ∨ c = '.' ∨ c = '-') := by
  rw [text]
  cases hn : n.negative with
  | true => exact ⟨'-', _, rfl, .inr (.inr rfl)⟩
  | false =>
    obtain ⟨c, cs, heq, hc⟩ := h.head?_unsignedText rest
    exact ⟨c, cs, heq, hc.imp_right .inl⟩

theorem stopsDigits_powerText (hrest : StopsDigits rest) : StopsDigits (n.powerText ++ rest) := by
  rw [powerText]
  split
  · exact hrest
  · exact stopsDigits_cons (by decide) _

theorem stopsDigits_behindText (hrest : StopsDigits rest) :
    StopsDigits (n.behindText ++ (n.powerText ++ rest)) := by
  rw [behindText]
  split
  · exact stopsDigits_powerText hrest
  · exact stopsDigits_cons (by decide) _

/-! ## Reading -/

theorem takeSign_text (h : n.WellFormed) : takeSign n.text = (n.negative, n.unsignedText) := by
  rw [text]
  cases n.negative with
  | true => rfl
  | false =>
    obtain ⟨c, cs, heq, hc⟩ := h.head?_unsignedText []
    rw [List.append_nil] at heq
    change takeSign n.unsignedText = _
    rw [heq]
    have hminus : c ≠ '-' := by rintro rfl; revert hc; decide
    have hplus : c ≠ '+' := by rintro rfl; revert hc; decide
    simp only [takeSign]
    split <;> simp_all

theorem toLower_of_isDigit {c : Char} (h : c.isDigit = true ∨ c = '.') : c.toLower = c := by
  have hupper : ¬ (c.val ≥ 'A'.val ∧ c.val ≤ 'Z'.val) := by
    rcases h with hdigit | rfl
    · simp only [Char.isDigit, Bool.and_eq_true, decide_eq_true_eq] at hdigit
      intro hletter
      exact absurd (Nat.le_trans hletter.1 hdigit.2) (by decide)
    · decide
  rw [Char.toLower, dif_neg hupper]

theorem readWord?_unsignedText (h : n.WellFormed) : readWord? n.unsignedText = none := by
  obtain ⟨c, cs, heq, hc⟩ := h.head?_unsignedText []
  rw [List.append_nil] at heq
  have hlower : Text.lower n.unsignedText = c :: Text.lower cs := by
    rw [heq, Text.lower, List.map_cons, toLower_of_isDigit hc]
    rfl
  have hword : ∀ word : String, (∀ d ∈ word.toList.head?, d.isDigit = false ∧ d ≠ '.') →
      word ≠ "" → String.ofList (c :: Text.lower cs) ≠ word := by
    intro word hfirst hne hword
    have hhead := hfirst c (by rw [← hword]; simp)
    simp [hhead] at hc
  simp only [readWord?, hlower, beq_iff_eq]
  rw [if_neg, if_neg]
  · exact hword _ (by simp) (by decide)
  · rw [Bool.or_eq_true, beq_iff_eq, beq_iff_eq]
    exact not_or.2 ⟨hword _ (by simp) (by decide), hword _ (by simp) (by decide)⟩

theorem readExponent?_powerText (h : n.WellFormed) :
    readExponent? n.powerText = some n.powerValue := by
  rw [powerText, powerValue]
  cases hp : n.power with
  | none => rfl
  | some p =>
    obtain ⟨negative, digits⟩ := p
    obtain ⟨hne, hall⟩ := h.power _ hp
    have hsign : takeSign (signText negative ++ digits) = (negative, digits) := by
      cases negative with
      | true => rfl
      | false =>
        cases digits with
        | nil => exact absurd rfl hne
        | cons d ds =>
          have hd := hall d (by simp)
          simp only [signText, takeSign]
          split <;> simp_all
    have hdigits : digits.all Char.isDigit = true := List.all_eq_true.2 hall
    simp [readExponent?, hsign, hdigits, List.isEmpty_iff, hne]

theorem readUnsigned?_unsignedText (h : n.WellFormed) :
    readUnsigned? n.unsignedText = some (scientific n.mantissa n.exponent) := by
  have hpower := readExponent?_powerText h
  have hstop : StopsDigits n.powerText := by
    simpa using stopsDigits_powerText (n := n) stopsDigits_nil
  have hstop' : StopsDigits (n.behindText ++ n.powerText) := by
    simpa using stopsDigits_behindText (n := n) stopsDigits_nil
  rw [readUnsigned?, unsignedText, takeWhile_isDigit h.ahead hstop',
    dropWhile_isDigit h.ahead hstop', mantissa, exponent]
  cases hb : n.behind with
  | none =>
    have hahead : n.ahead ≠ [] := h.some_digit.resolve_right (by simp [hb])
    have hcases : n.powerText = [] ∨ ∃ cs, n.powerText = 'e' :: cs := by
      rw [powerText]
      cases n.power with
      | none => exact .inl rfl
      | some p => exact .inr ⟨_, rfl⟩
    rcases hcases with hnil | ⟨cs, hcons⟩
    · rw [hnil] at hpower ⊢
      simp [behindText, hb, hahead, hpower, List.isEmpty_iff]
    · rw [hcons] at hpower ⊢
      simp [behindText, hb, hahead, hpower, List.isEmpty_iff]
  | some digits =>
    obtain ⟨hne, hall⟩ := h.behind _ hb
    simp [behindText, hb, takeWhile_isDigit hall hstop, dropWhile_isDigit hall hstop, hne, hpower,
      List.isEmpty_iff]

theorem read?_text (h : n.WellFormed) : read? n.text = some n.value := by
  rw [read?, takeSign_text h]
  simp [readWord?_unsignedText h, readUnsigned?_unsignedText h, value]

/-! ## The zero in front of a point -/

/-- The numeral without the zero in front of its point. -/
def bare (n : Numeral) : Numeral :=
  if n.ahead = ['0'] ∧ n.behind.isSome = true then ⟨n.negative, [], n.behind, n.power⟩ else n

theorem WellFormed.bare (h : n.WellFormed) : n.bare.WellFormed := by
  rw [Numeral.bare]
  split
  · next hzero => exact ⟨by simp [AllDigits], h.behind, h.power, .inr hzero.2⟩
  · exact h

theorem bare_value : n.bare.value = n.value := by
  rw [bare]
  split
  · next hzero =>
    have hmantissa : mantissa ⟨n.negative, [], n.behind, n.power⟩ = n.mantissa := by
      rw [mantissa, mantissa, hzero.1, List.cons_append, ofDigits_cons_zero]
    simp only [value, hmantissa]
    rfl
  · rfl

theorem bare_negative : n.bare.negative = n.negative := by
  rw [bare]
  split <;> rfl

theorem IsClosed.bare (h : n.IsClosed) : n.bare.IsClosed := by
  rw [Numeral.bare]
  split
  · exact h
  · exact h

theorem dropZero_signText {u : List Char} (hzero : ∀ cs, u ≠ '0' :: '.' :: cs)
    (hminus : ∀ cs, u ≠ '-' :: cs) (negative : Bool) :
    dropZero (signText negative ++ u) = signText negative ++ u := by
  cases negative with
  | true =>
    simp only [signText, if_true, List.cons_append, List.nil_append, dropZero]
    split <;> simp_all
  | false =>
    simp only [signText, Bool.false_eq_true, if_false, List.nil_append, dropZero]
    split <;> simp_all

theorem dropZero_text (h : n.WellFormed) : dropZero n.text = n.bare.text := by
  by_cases hzero : n.ahead = ['0'] ∧ n.behind.isSome = true
  · obtain ⟨digits, hb⟩ := Option.isSome_iff_exists.1 hzero.2
    rw [bare, if_pos hzero]
    simp only [text, unsignedText, behindText, powerText, hzero.1, hb]
    cases n.negative <;> rfl
  · rw [bare, if_neg hzero, text]
    apply dropZero_signText
    · intro cs heq
      apply hzero
      rw [unsignedText] at heq
      cases ha : n.ahead with
      | nil =>
        obtain ⟨digits, hb⟩ := Option.isSome_iff_exists.1
          (h.some_digit.resolve_left (by simp [ha]))
        simp [ha, behindText, hb] at heq
      | cons a as =>
        rw [ha, List.cons_append, List.cons.injEq] at heq
        cases as with
        | cons b bs =>
          have hb := h.ahead b (by simp [ha])
          rw [List.cons_append, List.cons.injEq] at heq
          exact absurd hb (by rw [heq.2.1]; decide)
        | nil =>
          refine ⟨by rw [heq.1], ?_⟩
          cases hb : n.behind with
          | some digits => rfl
          | none =>
            cases hp : n.power <;> simp [behindText, hb, powerText, hp] at heq
    · intro cs heq
      obtain ⟨c, ds, hcons, hc⟩ := h.head?_unsignedText []
      rw [List.append_nil, heq, List.cons.injEq] at hcons
      rw [← hcons.1] at hc
      exact absurd hc (by decide)

/-! ## Numerals for numbers -/

/-- A numeral that reads back as a number.  The equality is that of numbers, so both
zeros may be written the same way. -/
structure Denotes (n : Numeral) (x : Float) : Prop where
  wellFormed : n.WellFormed
  negative : x < 0.0 → n.negative = true
  closed : hasFraction x = true → n.IsClosed
  value : (n.value == x) = true

theorem Denotes.bare {x : Float} (h : n.Denotes x) : n.bare.Denotes x where
  wellFormed := h.wellFormed.bare
  negative hx := by rw [bare_negative, h.negative hx]
  closed hx := (h.closed hx).bare
  value := by rw [bare_value, h.value]

end Numeral
end Decimal
end SvgCompact
