import SvgCompact.Selector.Nth
import SvgCompact.Proofs.Css.Tokens
import SvgCompact.Proofs.Decimal.ReadBack
import SvgCompact.Proofs.Selector.Equations

/-!
Positions `an+b` are read back from their texts.

The step and the sign of an offset belong to one token when the offset is negative, since a
hyphen goes on with the name `n`; a plus sign begins a number of its own.  Both parts are
integers of 32 bits, and those that were read always are.
-/

namespace SvgCompact
namespace Css

open Decimal (AllDigits StopsDigits)

section

variable {s digits unit rest x : List Char} {negative signed : Bool} {k : Int}

/-! ## Whole numbers -/

/-- Whether a whole number ends in front of the text. -/
def StopsWhole (rest : List Char) : Prop :=
  rest.head?.any (fun c => c.isDigit || c == '.' || c == 'e' || c == 'E') = false

theorem stopsWhole_of_isTail (h : IsTail rest) : StopsWhole rest := by
  rcases h.cases with rfl | ⟨c, rest, rfl, rfl | rfl | rfl | rfl | rfl⟩ <;> rfl

theorem not_continues_of_isTail (h : IsTail rest) : continuesName rest = false := by
  rcases h.cases with rfl | ⟨c, rest, rfl, rfl | rfl | rfl | rfl | rfl⟩ <;> rfl

theorem takeNumeral_digits (hs : readSign s = ((negative, signed), digits ++ rest))
    (hdigits : AllDigits digits) (hrest : StopsWhole rest) :
    takeNumeral s = ((Figures.mk negative signed digits [] none).numeral, rest) := by
  have hstops : StopsDigits rest := by
    intro c hc
    rw [StopsWhole, hc] at hrest
    simp only [Option.any_some, Bool.or_eq_false_iff] at hrest
    exact hrest.1.1.1
  have hfraction : readFraction rest = ([], rest) := by
    cases rest with
    | nil => rfl
    | cons c rest =>
      refine readFraction_of_ne ?_ rest
      rintro rfl
      cases hrest
  have hexponent : readExponent rest = (none, rest) := by
    refine readExponent_of_not ?_
    cases rest with
    | nil => rfl
    | cons c rest =>
      simp only [StopsWhole, List.head?_cons, Option.any_some, Bool.or_eq_false_iff] at hrest
      rw [startsExponent, hrest.1.2, hrest.2]
      rfl
  rw [takeNumeral_eq, readFigures, hs]
  simp only [readDigits, Decimal.takeWhile_isDigit hdigits hstops,
    Decimal.dropWhile_isDigit hdigits hstops, hfraction, hexponent]

theorem startsNumber_digits (hs : readSign s = ((negative, signed), digits ++ rest))
    (hdigits : AllDigits digits) (hne : digits ≠ []) : startsNumber s = true := by
  obtain ⟨d, ds, rfl⟩ := List.exists_cons_of_ne_nil hne
  have hd : d.isDigit = true := hdigits d (by simp)
  have hpoint : d ≠ '.' := by
    rintro rfl
    cases hd
  rw [startsNumber_eq, show (Decimal.takeSign s).2 = d :: ds ++ rest from congrArg Prod.snd hs,
    List.cons_append, List.head?_cons, Option.any_some, if_neg hpoint, hd]

theorem readSign_signText (hdigits : AllDigits digits) (hne : digits ≠ []) (rest : List Char) :
    readSign (Decimal.signText negative ++ digits ++ rest) =
      ((negative, negative), digits ++ rest) := by
  cases negative with
  | true => rw [readSign_eq]; rfl
  | false =>
    obtain ⟨d, ds, rfl⟩ := List.exists_cons_of_ne_nil hne
    have hd : d.isDigit = true := hdigits d (by simp)
    have hminus : d ≠ '-' := by rintro rfl; cases hd
    have hplus : d ≠ '+' := by rintro rfl; cases hd
    change readSign (d :: (ds ++ rest)) = _
    rw [readSign_cons, if_neg hminus, if_neg hplus]
    rfl

/-- The number that a text of an integer is read as. -/
def wholeNumeral (signed : Bool) (k : Int) : Numeral :=
  (Figures.mk (k < 0) signed (Nat.toDigits 10 k.natAbs) [] none).numeral

theorem exists_wholeNumeral (hk : IsWord k) (signed : Bool) :
    ∃ v, wholeNumeral signed k = ⟨signed, v, some k⟩ := by
  have hwhole : clamp32 (if decide (k < 0) = true then
      -(Decimal.ofDigits (Nat.toDigits 10 k.natAbs) : Int)
      else Decimal.ofDigits (Nat.toDigits 10 k.natAbs)) = k := by
    rw [Decimal.ofDigits_toDigits]
    have hvalue : (if decide (k < 0) = true then -(k.natAbs : Int) else k.natAbs) = k := by
      split
      · next hneg => rw [decide_eq_true_eq] at hneg; omega
      · next hneg => rw [decide_eq_true_eq] at hneg; omega
    rw [hvalue, clamp32_eq_self hk]
  exact ⟨(wholeNumeral signed k).value,
    congrArg (fun n => Numeral.mk signed (wholeNumeral signed k).value (some n)) hwhole⟩

theorem readSign_toString (k : Int) (rest : List Char) :
    readSign ((toString k).toList ++ rest) =
      ((decide (k < 0), decide (k < 0)), Nat.toDigits 10 k.natAbs ++ rest) := by
  rw [Decimal.toList_toString]
  exact readSign_signText (Decimal.allDigits_toDigits _) Nat.toDigits_ne_nil rest

/-- An integer that is not negative, behind a plus sign. -/
theorem readSign_plus (hk : 0 ≤ k) (rest : List Char) :
    readSign ('+' :: (toString k).toList ++ rest) =
      ((decide (k < 0), true), Nat.toDigits 10 k.natAbs ++ rest) := by
  have hsign : decide (k < 0) = false := by simpa using hk
  rw [Decimal.toList_toString, hsign]
  change readSign ('+' :: (Nat.toDigits 10 k.natAbs ++ rest)) = _
  rw [readSign_cons, if_neg (by decide), if_pos rfl]

theorem lexemes_numeric {token : Token} (hx : x ≠ []) (hstart : startsNumber (x ++ rest) = true)
    (h : takeNumeric (x ++ rest) = (token, rest)) :
    lexemes (x ++ rest) = ⟨token, x⟩ :: lexemes rest := by
  obtain ⟨c, x, rfl⟩ := List.exists_cons_of_ne_nil hx
  exact lexemes_of_start_append ((start_number hstart).trans h)

theorem takeName_word (hunit : ∀ c ∈ unit, isNameChar c = true)
    (hrest : continuesName rest = false) : takeName (unit ++ rest) = (unit, rest) := by
  induction unit with
  | nil => exact takeName_of_not_continues hrest
  | cons c unit ih =>
    obtain ⟨hc, hunit⟩ := List.forall_mem_cons.1 hunit
    rw [List.cons_append, takeName, if_pos hc, ih hunit]

/-- A whole number that ends at a mark. -/
theorem lexemes_whole (hs : readSign (x ++ rest) =
      ((decide (k < 0), signed), Nat.toDigits 10 k.natAbs ++ rest))
    (hx : x ≠ []) (hrest : IsTail rest) :
    lexemes (x ++ rest) = ⟨.number (wholeNumeral signed k), x⟩ :: lexemes rest := by
  have hdigits := Decimal.allDigits_toDigits k.natAbs
  refine lexemes_numeric hx (startsNumber_digits hs hdigits Nat.toDigits_ne_nil) ?_
  rw [takeNumeric_eq, takeNumeral_digits hs hdigits (stopsWhole_of_isTail hrest)]
  rcases hrest.cases with rfl | ⟨c, rest, rfl, rfl | rfl | rfl | rfl | rfl⟩ <;> rfl

/-- A number with a unit that begins with `n`. -/
theorem lexemes_step (k : Int) (hunit : ∀ c ∈ unit, isNameChar c = true)
    (hrest : continuesName rest = false) :
    lexemes ((toString k).toList ++ 'n' :: unit ++ rest) =
      ⟨.dimension (wholeNumeral (k < 0) k) (String.ofList ('n' :: unit)),
        (toString k).toList ++ 'n' :: unit⟩ :: lexemes rest := by
  have hdigits := Decimal.allDigits_toDigits k.natAbs
  have hs := readSign_toString k ('n' :: unit ++ rest)
  rw [← List.append_assoc] at hs
  refine lexemes_numeric (by simp) (startsNumber_digits hs hdigits Nat.toDigits_ne_nil) ?_
  have hname : takeName ('n' :: unit ++ rest) = ('n' :: unit, rest) :=
    takeName_word (List.forall_mem_cons.2 ⟨by decide, hunit⟩) hrest
  rw [takeNumeric_eq, takeNumeral_digits hs hdigits rfl, List.cons_append,
    takeUnit_cons (by decide), if_pos (show startsIdent ('n' :: _) = true from rfl), ← List.cons_append, hname]
  rfl

end

end Css

namespace Nth

open Css

variable {nth : Nth} {cs rest : List Component} {k step : Int}

structure IsProper (nth : Nth) : Prop where
  step : IsWord nth.step
  offset : IsWord nth.offset

/-! ## Positions that were read -/

theorem isProper_of_readUnsigned {sign : Int} (hsign : sign = 1 ∨ sign = -1)
    (hcs : ∀ c ∈ cs, c.IsProper) (hstep : IsWord step)
    (h : readUnsigned step sign cs = .ok (nth, rest)) : nth.IsProper := by
  unfold readUnsigned at h
  split at h
  · cases h
  · next n _ _ hc =>
    cases h
    have hproper : Numeral.IsProper _ := (isProper_of_dropWhile hcs hc).1.of_token
    have hword := hproper.isWord n rfl
    have hpos := hproper.unsigned rfl n rfl
    refine ⟨hstep, ?_⟩
    rw [IsWord] at hword ⊢
    rcases hsign with rfl | rfl <;> simp only <;> omega
  · cases h

theorem isProper_of_readOffset (hcs : ∀ c ∈ cs, c.IsProper) (hstep : IsWord step)
    (h : readOffset step cs = .ok (nth, rest)) : nth.IsProper := by
  unfold readOffset at h
  split at h
  · next hc =>
    exact isProper_of_readUnsigned (.inl rfl) (isProper_of_dropWhile hcs hc).2 hstep h
  · next hc =>
    exact isProper_of_readUnsigned (.inr rfl) (isProper_of_dropWhile hcs hc).2 hstep h
  · next n _ _ hc =>
    cases h
    have hproper : Numeral.IsProper _ := (isProper_of_dropWhile hcs hc).1.of_token
    exact ⟨hstep, hproper.isWord n rfl⟩
  · cases h
    exact ⟨hstep, (by decide : IsWord 0)⟩

theorem isProper_of_readName {name full : List Char} (hcs : ∀ c ∈ cs, c.IsProper)
    (hstep : IsWord step) (h : readName step name full cs = .ok (nth, rest)) : nth.IsProper := by
  unfold readName at h
  split at h
  · exact isProper_of_readOffset hcs hstep h
  · split at h
    · exact isProper_of_readUnsigned (.inr rfl) hcs hstep h
    · split at h
      · next offset hdash =>
        cases h
        refine ⟨hstep, ?_⟩
        unfold dashDigits? at hdash
        split at hdash
        · split at hdash
          · cases hdash
            exact isWord_clamp32 _
          · cases hdash
        · cases hdash
      · cases h

theorem isProper_of_readKeyword {name : List Char} (hcs : ∀ c ∈ cs, c.IsProper)
    (h : readKeyword name cs = .ok (nth, rest)) : nth.IsProper := by
  unfold readKeyword at h
  split at h
  · cases h
    exact ⟨(by decide : IsWord 2), (by decide : IsWord 0)⟩
  · split at h
    · cases h
      exact ⟨(by decide : IsWord 2), (by decide : IsWord 1)⟩
    · split at h
      · exact isProper_of_readName hcs (by decide) h
      · exact isProper_of_readName hcs (by decide) h

theorem isProper_of_readFront (hcs : ∀ c ∈ cs, c.IsProper)
    (h : readFront cs = .ok (nth, rest)) : nth.IsProper := by
  unfold readFront at h
  split at h
  · cases h
  · next n _ _ hc =>
    cases h
    have hproper : Numeral.IsProper _ := (isProper_of_dropWhile hcs hc).1.of_token
    exact ⟨(by decide : IsWord 0), hproper.isWord n rfl⟩
  · next n _ _ _ hc =>
    have hproper : Numeral.IsProper _ := (isProper_of_dropWhile hcs hc).1.of_token
    exact isProper_of_readName (isProper_of_dropWhile hcs hc).2
      (hproper.isWord n rfl) h
  · next hc =>
    exact isProper_of_readKeyword (isProper_of_dropWhile hcs hc).2 h
  · next hc =>
    have hbehind := (isProper_of_dropWhile hcs hc).2
    split at h
    · cases h
    · next hm =>
      exact isProper_of_readName (isProper_of_dropWhile hbehind hm).2 (by decide) h
    · cases h
  · cases h

theorem isProper_of_read (hcs : ∀ c ∈ cs, c.IsProper) (h : read cs = .ok nth) :
    nth.IsProper := by
  obtain ⟨⟨front, rest⟩, hfront, h⟩ := SelectorReader.bind_eq_ok h
  dsimp only at h
  split at h
  · cases h
    exact isProper_of_readFront hcs hfront
  · cases h

/-! ## Positions that are written -/

/-- The lexemes of a written position, in front of a mark. -/
structure Writes (nth : Nth) (ls : List Lexeme) : Prop where
  lexemes : ∀ rest, IsTail rest → lexemes (nth.write ++ rest) = ls ++ Css.lexemes rest
  flat : ∀ l ∈ ls, l.token.isFlat = true
  read : read (ls.map .token) = .ok nth

/-- The offset behind the hyphen of `n-3`. -/
theorem readName_dash {offset : Int} (hoffset : IsWord offset) (hneg : offset < 0)
    (step : Int) (full : List Char) :
    readName step ('n' :: '-' :: Nat.toDigits 10 offset.natAbs) full [] =
      .ok (⟨step, offset⟩, []) := by
  have hdigits := Decimal.allDigits_toDigits offset.natAbs
  obtain ⟨d, ds, hds⟩ := List.exists_cons_of_ne_nil
    (Nat.toDigits_ne_nil (b := 10) (n := offset.natAbs))
  have hall : (Nat.toDigits 10 offset.natAbs).all Char.isDigit = true := List.all_eq_true.2 hdigits
  have hdash : dashDigits? ('n' :: '-' :: Nat.toDigits 10 offset.natAbs) = some offset := by
    have hcond : (Char.toLower 'n' == 'n' && !(Nat.toDigits 10 offset.natAbs).isEmpty &&
        (Nat.toDigits 10 offset.natAbs).all Char.isDigit) = true := by
      rw [hall, hds]
      rfl
    have hvalue : -(offset.natAbs : Int) = offset := by omega
    rw [dashDigits?, if_pos hcond, Decimal.ofDigits_toDigits, hvalue, clamp32_eq_self hoffset]
  have hplain : Text.sameLetters ('n' :: '-' :: Nat.toDigits 10 offset.natAbs) ['n'] = false := by
    simp [Text.sameLetters, Text.lower]
  have hhyphen :
      Text.sameLetters ('n' :: '-' :: Nat.toDigits 10 offset.natAbs) ['n', '-'] = false := by
    simp [Text.sameLetters, Text.lower, hds]
  rw [readName, hplain, hhyphen, hdash]
  rfl

theorem exists_writes (h : nth.IsProper) : ∃ ls, nth.Writes ls := by
  obtain ⟨step, offset⟩ := nth
  have hstep : IsWord step := h.step
  have hoffset : IsWord offset := h.offset
  obtain ⟨v, hv⟩ := exists_wholeNumeral hstep (step < 0)
  have htext (k : Int) : (toString k).toList ≠ [] := by
    rw [Decimal.toList_toString]
    simp [Nat.toDigits_ne_nil]
  by_cases hzero : step = 0
  · subst hzero
    obtain ⟨w, hw⟩ := exists_wholeNumeral hoffset (offset < 0)
    refine ⟨[⟨.number (wholeNumeral (offset < 0) offset), (toString offset).toList⟩],
      fun rest hrest => lexemes_whole (readSign_toString offset rest) (htext offset) hrest,
      by simp [Token.isFlat], ?_⟩
    rw [hw]
    rfl
  by_cases hnone : offset = 0
  · subst hnone
    refine ⟨[⟨.dimension (wholeNumeral (step < 0) step) "n", (toString step).toList ++ ['n']⟩],
      fun rest hrest => ?_, by simp [Token.isFlat], ?_⟩
    · rw [write, if_neg hzero, if_pos rfl]
      exact lexemes_step step (by simp) (not_continues_of_isTail hrest)
    · rw [hv]
      rfl
  by_cases hpos : 0 < offset
  · obtain ⟨w, hw⟩ := exists_wholeNumeral hoffset true
    refine ⟨[⟨.dimension (wholeNumeral (step < 0) step) "n", (toString step).toList ++ ['n']⟩,
        ⟨.number (wholeNumeral true offset), '+' :: (toString offset).toList⟩],
      fun rest hrest => ?_, by simp [Token.isFlat], ?_⟩
    · have hfront : lexemes ((toString step).toList ++ ['n'] ++
          ('+' :: (toString offset).toList ++ rest)) =
          ⟨.dimension (wholeNumeral (step < 0) step) "n", (toString step).toList ++ ['n']⟩ ::
            Css.lexemes ('+' :: (toString offset).toList ++ rest) :=
        lexemes_step step (by simp) rfl
      have hbehind := lexemes_whole (readSign_plus hpos.le rest) (List.cons_ne_nil _ _) hrest
      rw [write, if_neg hzero, if_neg hnone, if_pos hpos]
      rw [hbehind] at hfront
      simpa using hfront
    · rw [hv, hw]
      rfl
  · have hneg : offset < 0 := by omega
    have hdigits := Decimal.allDigits_toDigits offset.natAbs
    have htext : (toString offset).toList = '-' :: Nat.toDigits 10 offset.natAbs := by
      rw [Decimal.toList_toString, decide_eq_true hneg]
      rfl
    have hunit : ∀ c ∈ '-' :: Nat.toDigits 10 offset.natAbs, Css.isNameChar c = true :=
      List.forall_mem_cons.2 ⟨by decide, fun c hc => by
        simp [Css.isNameChar, Char.isAlphanum, hdigits c hc]⟩
    refine ⟨[⟨.dimension (wholeNumeral (step < 0) step)
        (String.ofList ('n' :: '-' :: Nat.toDigits 10 offset.natAbs)),
        (toString step).toList ++ 'n' :: '-' :: Nat.toDigits 10 offset.natAbs⟩],
      fun rest hrest => ?_, by simp [Token.isFlat], ?_⟩
    · rw [write, if_neg hzero, if_neg hnone, if_neg hpos, htext]
      exact lexemes_step step hunit (not_continues_of_isTail hrest)
    · have hread := readName_dash hoffset hneg step
        ('n' :: '-' :: Nat.toDigits 10 offset.natAbs)
      have hfront : readFront [.token ⟨.dimension ⟨step < 0, v, some step⟩
          (String.ofList ('n' :: '-' :: Nat.toDigits 10 offset.natAbs)),
          (toString step).toList ++ 'n' :: '-' :: Nat.toDigits 10 offset.natAbs⟩] =
          .ok (⟨step, offset⟩, []) := by
        rw [← hread]
        change readName step (String.ofList _).toList (String.ofList _).toList [] = _
        rw [String.toList_ofList]
      rw [hv, List.map_singleton, read, hfront]
      rfl

end Nth
end SvgCompact
