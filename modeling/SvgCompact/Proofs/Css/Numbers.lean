import SvgCompact.Proofs.Css.Lookahead

/-!
Numbers and their units, in front of texts that show no more of them.

A number is read figure by figure: its sign, its digits, its fraction and its exponent, one
reader after another.
-/

namespace SvgCompact
namespace Css

/-! ## Numbers, figure by figure -/

/-- What a number is made of. -/
structure Figures where
  negative : Bool
  signed : Bool
  ahead : List Char
  behind : List Char
  exponent : Option (Bool × List Char)

/-- The sign in front, and whether it is written. -/
def readSign (s : List Char) : (Bool × Bool) × List Char :=
  (((Decimal.takeSign s).1, decide ((Decimal.takeSign s).2.length < s.length)),
    (Decimal.takeSign s).2)

def readDigits (s : List Char) : List Char × List Char :=
  (s.takeWhile Char.isDigit, s.dropWhile Char.isDigit)

def readFraction (s : List Char) : List Char × List Char :=
  (takeFraction? s).getD ([], s)

def readExponent (s : List Char) : Option (Bool × List Char) × List Char :=
  match takeExponent? s with
  | some (negative, digits, rest) => (some (negative, digits), rest)
  | none => (none, s)

def readFigures (s : List Char) : Figures × List Char :=
  let (sign, s) := readSign s
  let (ahead, s) := readDigits s
  let (behind, s) := readFraction s
  let (exponent, s) := readExponent s
  (⟨sign.1, sign.2, ahead, behind, exponent⟩, s)

def Figures.numeral (f : Figures) : Numeral :=
  let sign : Float := if f.negative then -1.0 else 1.0
  let plain := sign * (wholeValue f.ahead + fractionValue f.behind)
  let whole : Int := Decimal.ofDigits f.ahead
  match f.exponent with
  | some (down, digits) => ⟨f.signed, plain * powerOfTen down digits, none⟩
  | none =>
    ⟨f.signed, plain,
      if f.behind.isEmpty then some (clamp32 (if f.negative then -whole else whole)) else none⟩

theorem takeNumeral_eq (s : List Char) :
    takeNumeral s = ((readFigures s).1.numeral, (readFigures s).2) := by
  simp only [takeNumeral, readFigures, readSign, readDigits, readExponent, readFraction,
    Figures.numeral]
  cases takeExponent? _ <;> rfl

theorem startsNumber_eq_figures (s : List Char) :
    startsNumber s = (!(readFigures s).1.ahead.isEmpty || !(readFigures s).1.behind.isEmpty) := by
  rw [startsNumber_eq]
  simp only [readFigures, readSign, readDigits, readFraction]
  cases h : (Decimal.takeSign s).2 with
  | nil => rfl
  | cons c cs =>
    rw [List.head?_cons, Option.any_some]
    by_cases hdigit : c.isDigit = true
    · have hpoint : c ≠ '.' := by
        rintro rfl
        cases hdigit
      simp [hpoint, hdigit]
    · by_cases hpoint : c = '.'
      · subst hpoint
        have hdot : Char.isDigit '.' = false := by decide
        rw [if_pos rfl, List.takeWhile_cons_of_neg hdigit, List.dropWhile_cons_of_neg hdigit]
        cases cs with
        | nil => rfl
        | cons d ds =>
          by_cases hd : d.isDigit = true
          · simp [takeFraction?, hd]
          · simp [takeFraction?, hd]
      · rw [if_neg hpoint, List.takeWhile_cons_of_neg hdigit, List.dropWhile_cons_of_neg hdigit]
        simp [takeFraction?, hpoint, hdigit]

theorem readSign_cons (c : Char) (s : List Char) :
    readSign (c :: s) = if c = '-' then ((true, true), s) else if c = '+' then ((false, true), s)
      else ((false, false), c :: s) := by
  rw [readSign, takeSign_cons]
  split
  · simp
  · split <;> simp

theorem readFraction_point (s : List Char) :
    readFraction ('.' :: s) =
      if (readDigits s).1 = [] then ([], '.' :: s) else readDigits s := by
  rw [readFraction, takeFraction?]
  by_cases h : (readDigits s).1 = []
  · rw [if_pos h]
    have hempty : (s.takeWhile Char.isDigit).isEmpty = true := List.isEmpty_iff.2 h
    simp [hempty]
  · rw [if_neg h]
    have hempty : (s.takeWhile Char.isDigit).isEmpty = false := by
      rw [Bool.eq_false_iff]
      exact fun hempty => h (List.isEmpty_iff.1 hempty)
    simp [hempty, readDigits]

theorem readFraction_of_ne {c : Char} (hc : c ≠ '.') (s : List Char) :
    readFraction (c :: s) = ([], c :: s) := by
  simp [readFraction, takeFraction?, hc]

/-- The sign and the digits of an exponent. -/
def readPower (s : List Char) : (Bool × List Char) × List Char :=
  (((readSign s).1.1, (readDigits (readSign s).2).1), (readDigits (readSign s).2).2)

theorem readExponent_cons (c : Char) (s : List Char) :
    readExponent (c :: s) =
      if startsExponent (c :: s) then (some (readPower s).1, (readPower s).2)
      else (none, c :: s) := by
  have hdigits : ((Decimal.takeSign s).2.takeWhile Char.isDigit).isEmpty = !startsDigits s := by
    rw [startsDigits]
    cases (Decimal.takeSign s).2 with
    | nil => rfl
    | cons d ds => by_cases hd : d.isDigit = true <;> simp [hd]
  rw [readExponent, takeExponent?, startsExponent]
  by_cases hc : (c == 'e' || c == 'E') = true
  · cases hstart : startsDigits s <;>
      simp [hc, hdigits, hstart, readPower, readSign, readDigits]
  · rw [if_neg hc, Bool.eq_false_iff.2 hc]
    rfl

theorem readSign_suffix (s : List Char) : (readSign s).2 <:+ s := by
  cases s with
  | nil => exact List.suffix_refl []
  | cons c cs =>
    rw [readSign_cons]
    split
    · exact List.suffix_cons c cs
    · split
      · exact List.suffix_cons c cs
      · exact List.suffix_refl (c :: cs)

theorem readDigits_suffix (s : List Char) : (readDigits s).2 <:+ s :=
  List.dropWhile_suffix _

theorem readPower_suffix (s : List Char) : (readPower s).2 <:+ s :=
  (readDigits_suffix _).trans (readSign_suffix s)

theorem readFraction_suffix (s : List Char) : (readFraction s).2 <:+ s := by
  cases s with
  | nil => exact List.suffix_refl []
  | cons c cs =>
    by_cases hc : c = '.'
    · subst hc
      rw [readFraction_point]
      split
      · exact List.suffix_refl _
      · exact (readDigits_suffix cs).trans (List.suffix_cons '.' cs)
    · rw [readFraction_of_ne hc]

theorem readExponent_suffix (s : List Char) : (readExponent s).2 <:+ s := by
  cases s with
  | nil => exact List.suffix_refl []
  | cons c cs =>
    rw [readExponent_cons]
    split
    · exact (readPower_suffix cs).trans (List.suffix_cons c cs)
    · exact List.suffix_refl (c :: cs)

theorem readFigures_suffix (s : List Char) : (readFigures s).2 <:+ s :=
  (readExponent_suffix _).trans <| (readFraction_suffix _).trans <|
    (readDigits_suffix _).trans (readSign_suffix s)

theorem takeUnit_suffix (n : Numeral) (s : List Char) : (takeUnit n s).2 <:+ s := by
  unfold takeUnit
  split
  · exact List.suffix_cons _ _
  · split
    · exact takeName_suffix s
    · exact List.suffix_refl s

section

variable {s t u r : List Char}

/-! ## Numbers that stop -/

theorem head?_any_eq_false {p : Char → Bool} (hp : breaks.any p = false) (h : StopsLike t u)
    (ht : t.head?.any p = false) : u.head?.any p = false := by
  rw [Bool.eq_false_iff] at ht ⊢
  exact fun hu => ht (h.head hp hu)

theorem readSign_eq (s : List Char) :
    readSign s = if s.head?.any (fun c => c == '-' || c == '+') then
      ((s.head?.any (· == '-'), true), s.tail) else ((false, false), s) := by
  cases s with
  | nil => rfl
  | cons c cs =>
    rw [readSign_cons]
    by_cases hminus : c = '-'
    · simp [hminus]
    · by_cases hplus : c = '+' <;> simp [hminus, hplus]

theorem readSign_stays (s : List Char) : Stays readSign s := by
  cases s with
  | nil =>
    refine .nil readSign_suffix fun t u h a hread => ?_
    rw [readSign_eq] at hread ⊢
    split at hread
    · next hsign =>
      cases t with
      | nil => cases hsign
      | cons c t => simp at hread
    · next hsign =>
      cases hread
      rw [head?_any_eq_false (by decide) h (Bool.eq_false_iff.2 hsign)]
      rfl
  | cons c cs =>
    by_cases hminus : c = '-'
    · exact .of_forall (a := (true, true)) (q := cs) fun t => by
        rw [List.cons_append, readSign_cons, if_pos hminus]
    · by_cases hplus : c = '+'
      · exact .of_forall (a := (false, true)) (q := cs) fun t => by
          rw [List.cons_append, readSign_cons, if_neg hminus, if_pos hplus]
      · exact .of_forall (a := (false, false)) (q := c :: cs) fun t => by
          rw [List.cons_append, readSign_cons, if_neg hminus, if_neg hplus]

theorem readDigits_of_not (h : s.head?.any Char.isDigit = false) : readDigits s = ([], s) := by
  cases s with
  | nil => rfl
  | cons c cs =>
    have hc : ¬ c.isDigit = true := by simpa using h
    rw [readDigits, List.takeWhile_cons_of_neg hc, List.dropWhile_cons_of_neg hc]

theorem readDigits_stays (s : List Char) : Stays readDigits s := by
  induction s with
  | nil =>
    refine .nil readDigits_suffix fun t u h digits hread => ?_
    have ht : t.head?.any Char.isDigit = false := by
      rw [readDigits, Prod.mk.injEq] at hread
      cases t with
      | nil => rfl
      | cons c t =>
        rw [List.head?_cons, Option.any_some]
        have hdrop := hread.2
        rw [List.dropWhile_eq_self_iff] at hdrop
        simpa using hdrop
    rw [readDigits_of_not ht] at hread
    cases hread
    exact readDigits_of_not (head?_any_eq_false (by decide) h ht)
  | cons c cs ih =>
    by_cases hc : c.isDigit = true
    · refine (ih.map (c :: ·)).of_eq fun t => ?_
      rw [List.cons_append, readDigits, List.takeWhile_cons_of_pos hc,
        List.dropWhile_cons_of_pos hc]
      rfl
    · exact .of_forall (a := []) (q := c :: cs) fun t => readDigits_of_not (by simpa using hc)

theorem readDigits_eq_nil_iff : (readDigits s).1 = [] ↔ s.head?.any Char.isDigit = false := by
  cases s with
  | nil => simp [readDigits]
  | cons c cs => by_cases hc : c.isDigit = true <;> simp [readDigits, hc]

theorem takeFraction?_of_stops (h : (readFraction s).2 = s) : takeFraction? s = none := by
  unfold takeFraction?
  split
  · next cs =>
    rw [readFraction_point] at h
    split at h
    · next hdigits =>
      have hempty : (cs.takeWhile Char.isDigit).isEmpty = true := List.isEmpty_iff.2 hdigits
      simp [hempty]
    · have hlength := (readDigits_suffix cs).length_le
      rw [h] at hlength
      simp at hlength
  · rfl

theorem readFraction_stays (s : List Char) : Stays readFraction s := by
  cases s with
  | nil =>
    refine .nil readFraction_suffix fun t u h digits hread => ?_
    have ht := takeFraction?_of_stops (s := t) (congrArg Prod.snd hread)
    have hu : takeFraction? u = none := by
      rw [← Option.not_isSome_iff_eq_none]
      intro hsome
      have hfraction := h.takeFraction? hsome
      rw [ht] at hfraction
      cases hfraction
    rw [readFraction, ht] at hread
    rw [readFraction, hu]
    cases hread
    rfl
  | cons c cs =>
    by_cases hc : c = '.'
    · subst hc
      intro t u h digits r hread
      rw [List.cons_append, readFraction_point] at hread ⊢
      split at hread
      · next ht =>
        have hu : (readDigits (cs ++ u)).1 = [] := by
          rw [readDigits_eq_nil_iff] at ht ⊢
          cases cs with
          | nil => exact head?_any_eq_false (by decide) h ht
          | cons d ds => exact ht
        rw [if_pos hu]
        obtain ⟨rfl, hr⟩ := Prod.mk.inj hread
        rw [← List.cons_append] at hr ⊢
        rw [List.append_cancel_right hr]
      · next ht =>
        rw [hread] at ht
        have hu := readDigits_stays cs h digits r hread
        rw [hu, if_neg ht]
    · exact .of_forall (a := []) (q := c :: cs) fun t => readFraction_of_ne hc _

theorem readPower_stays (s : List Char) : Stays readPower s :=
  (readSign_stays s).bind readSign_suffix
    (g := fun sign s => ((sign.1, (readDigits s).1), (readDigits s).2))
    (fun _ => readDigits_suffix) fun sign q _ => (readDigits_stays q).map (sign.1, ·)

theorem startsDigits_iff : startsDigits s = true ↔ (readPower s).1.2 ≠ [] := by
  rw [readPower, ne_eq, readDigits_eq_nil_iff, Bool.not_eq_false]
  rfl

theorem startsExponent_of_stops {a : Option (Bool × List Char)}
    (h : readExponent s = (a, s)) : startsExponent s = false := by
  cases s with
  | nil => rfl
  | cons c cs =>
    rw [readExponent_cons] at h
    split at h
    · have hlength := (readPower_suffix cs).length_le
      rw [(Prod.mk.inj h).2] at hlength
      simp at hlength
    · next hstart => exact Bool.eq_false_iff.2 hstart

theorem readExponent_of_not (h : startsExponent s = false) : readExponent s = (none, s) := by
  cases s with
  | nil => rfl
  | cons c cs => rw [readExponent_cons, if_neg (Bool.eq_false_iff.1 h)]

theorem readExponent_stays (hs : IsFirm s) : Stays readExponent s := by
  cases s with
  | nil =>
    refine .nil readExponent_suffix fun t u h a hread => ?_
    have ht := startsExponent_of_stops hread
    have hu : startsExponent u = false := by
      rw [Bool.eq_false_iff] at ht ⊢
      exact fun hu => ht (h.startsExponent hu)
    rw [readExponent_of_not ht] at hread
    cases hread
    exact readExponent_of_not hu
  | cons c cs =>
    by_cases hc : (c == 'e' || c == 'E') = true
    · intro t u h a r hread
      rw [List.cons_append, readExponent_cons, startsExponent, hc, Bool.true_and] at hread ⊢
      split at hread
      · next ht =>
        obtain ⟨rfl, hr⟩ := Prod.mk.inj hread
        have hu := readPower_stays cs h _ r (Prod.ext rfl hr)
        rw [startsDigits_iff] at ht
        have hstart : startsDigits (cs ++ u) = true := by
          rw [startsDigits_iff, hu]
          exact ht
        rw [if_pos hstart, hu]
      · next ht =>
        have hu : ¬ startsDigits (cs ++ u) = true :=
          fun hu => ht ((h.append hs.tail.getLast?_ne).startsDigits hu)
        rw [if_neg hu]
        obtain ⟨rfl, hr⟩ := Prod.mk.inj hread
        rw [← List.cons_append] at hr ⊢
        rw [List.append_cancel_right hr]
    · refine .of_forall (a := none) (q := c :: cs) fun t => readExponent_of_not ?_
      rw [List.cons_append, startsExponent, Bool.eq_false_iff.2 hc]
      rfl

theorem readFigures_stays (hs : IsFirm s) : Stays readFigures s := by
  -- each reader goes on where the one before it stopped, so the last is taken first
  have hfraction := fun (sign : Bool × Bool) (ahead q : List Char) (hq : q <:+ s) =>
    (readFraction_stays q).bind readFraction_suffix
      (g := fun behind s => (Figures.mk sign.1 sign.2 ahead behind (readExponent s).1,
        (readExponent s).2))
      (fun _ => readExponent_suffix) fun behind q' hq' =>
        (readExponent_stays (hs.of_suffix (hq'.trans hq))).map _
  have hdigits := fun (sign : Bool × Bool) (q : List Char) (hq : q <:+ s) =>
    (readDigits_stays q).bind readDigits_suffix
      (g := fun ahead s => (Figures.mk sign.1 sign.2 ahead (readFraction s).1
        (readExponent (readFraction s).2).1, (readExponent (readFraction s).2).2))
      (fun _ s => (readExponent_suffix _).trans (readFraction_suffix s))
      fun ahead q' hq' => hfraction sign ahead q' (hq'.trans hq)
  exact (readSign_stays s).bind readSign_suffix
    (g := fun sign s => (Figures.mk sign.1 sign.2 (readDigits s).1
      (readFraction (readDigits s).2).1 (readExponent (readFraction (readDigits s).2).2).1,
        (readExponent (readFraction (readDigits s).2).2).2))
    (fun _ s => ((readExponent_suffix _).trans (readFraction_suffix _)).trans
      (readDigits_suffix s))
    fun sign q hq => hdigits sign q hq

theorem startsNumber_exchange (hs : IsFirm s) (h : StopsLike t u)
    (hread : startsNumber (s ++ t) = true → ∃ r, (readFigures (s ++ t)).2 = r ++ t) :
    startsNumber (s ++ u) = startsNumber (s ++ t) := by
  cases ht : startsNumber (s ++ t) with
  | true =>
    obtain ⟨r, hr⟩ := hread ht
    rw [startsNumber_eq_figures] at ht ⊢
    rw [readFigures_stays hs h _ r (Prod.ext rfl hr), ht]
  | false =>
    rw [Bool.eq_false_iff] at ht ⊢
    exact fun hu => ht ((h.append hs.getLast?_ne).startsNumber hu)

/-! ## Identifiers and units -/

theorem continuesName_of_startsIdent (h : startsIdent s = true) : continuesName s = true := by
  cases s with
  | nil => cases h
  | cons c cs =>
    rw [startsIdent_cons] at h
    rw [continuesName]
    split at h
    · next hhyphen =>
      rw [hhyphen]
      rfl
    · split at h
      · next hslash => simp [hslash, h]
      · rw [isNameStart, Bool.or_eq_true, Bool.or_eq_true, Bool.or_eq_true] at h
        rcases h with ((h | h) | h) | h
        · simp [isNameChar, Char.isAlphanum, h]
        · simp [isNameChar, h]
        · simp [h]
        · simp [isNameChar, h]

theorem StopsLike.backslash (h : StopsLike t u) (ht : t.head? = some '\\') :
    u.head? = some '\\' := by
  cases h with
  | ends hne => exact absurd ht hne
  | opens => cases ht
  | escapes => rfl
  | same hc => exact ht

theorem startsIdent_exchange (hs : IsFirm s) (h : StopsLike t u)
    (hread : startsIdent (s ++ t) = true → ∃ r, (takeName (s ++ t)).2 = r ++ t) :
    startsIdent (s ++ u) = startsIdent (s ++ t) := by
  cases ht : startsIdent (s ++ t) with
  | false =>
    rw [Bool.eq_false_iff] at ht ⊢
    exact fun hu => ht ((h.append hs.getLast?_ne).startsIdent hu)
  | true =>
    obtain ⟨r, hr⟩ := hread ht
    cases s with
    | nil =>
      have hstop := not_continues_of_takeName (s := t) hr
      exact absurd (continuesName_of_startsIdent ht) (Bool.eq_false_iff.1 hstop)
    | cons c cs =>
      rw [List.cons_append, startsIdent_cons] at ht ⊢
      by_cases hhyphen : c = '-'
      · rw [if_pos hhyphen] at ht ⊢
        cases cs with
        | cons d ds => exact ht
        | nil =>
          -- the name is the hyphen alone, so that an escape that is broken off follows
          subst hhyphen
          have hrest : (takeName t).2 = r ++ t := by
            rw [List.cons_append, takeName, if_pos (by decide)] at hr
            exact hr
          have hstop := not_continues_of_takeName (s := t) hrest
          cases t with
          | nil => cases ht
          | cons d ds =>
            have hd : d = '\\' := by
              rw [continuesName, Bool.or_eq_false_iff, Bool.or_eq_false_iff] at hstop
              rw [List.nil_append, List.head?_cons, Option.any_some, isNameStart] at ht
              rw [isNameChar] at hstop
              simp only [Bool.or_eq_true, Bool.or_eq_false_iff] at ht hstop
              obtain ⟨⟨⟨⟨⟨halpha, hline⟩, hhyphen⟩, hbig⟩, hnull⟩, -⟩ := hstop
              rw [Char.isAlphanum, Bool.or_eq_false_iff] at halpha
              simpa [halpha.1, hline, hhyphen, hbig, hnull] using ht
            have hu := h.backslash (by rw [hd]; rfl)
            rw [List.nil_append, hu]
            rfl
      · rw [if_neg hhyphen] at ht ⊢
        by_cases hslash : c = '\\'
        · subst hslash
          rw [if_pos rfl, startsLine_append_of_ne_nil hs.ne_nil] at ht ⊢
          exact ht
        · rw [if_neg hslash] at ht ⊢
          exact ht

theorem takeUnit_of_not {n : Numeral} (hpercent : s.head?.any (· == '%') = false)
    (hident : startsIdent s = false) : takeUnit n s = (.number n, s) := by
  unfold takeUnit
  split
  · cases hpercent
  · rw [if_neg (Bool.eq_false_iff.1 hident)]

theorem takeUnit_cons {n : Numeral} {c : Char} (hc : c ≠ '%') (cs : List Char) :
    takeUnit n (c :: cs) = if startsIdent (c :: cs) then
      (.dimension n (String.ofList (takeName (c :: cs)).1), (takeName (c :: cs)).2)
      else (.number n, c :: cs) := by
  rw [takeUnit]
  simp [hc]

theorem takeUnit_stays (n : Numeral) (hs : IsFirm s) : Stays (takeUnit n) s := by
  cases s with
  | nil =>
    refine .nil (takeUnit_suffix n) fun t u h token hread => ?_
    have hstops : t.head?.any (· == '%') = false ∧ startsIdent t = false := by
      cases t with
      | nil => exact ⟨rfl, rfl⟩
      | cons c t =>
        by_cases hc : c = '%'
        · subst hc
          have hlength := congrArg List.length (Prod.mk.inj hread).2
          simp at hlength
        · refine ⟨by simpa using hc, Bool.eq_false_iff.2 fun hident => ?_⟩
          rw [takeUnit_cons hc, if_pos hident] at hread
          have hstop := not_continues_of_takeName (r := []) (Prod.mk.inj hread).2
          exact absurd (continuesName_of_startsIdent hident) (Bool.eq_false_iff.1 hstop)
    rw [takeUnit_of_not hstops.1 hstops.2] at hread
    cases hread
    refine takeUnit_of_not (head?_any_eq_false (by decide) h hstops.1) ?_
    exact Bool.eq_false_iff.2 fun hu => Bool.eq_false_iff.1 hstops.2 (h.startsIdent hu)
  | cons c cs =>
    by_cases hc : c = '%'
    · subst hc
      exact .of_forall fun t => rfl
    · intro t u h token r hread
      have hident := startsIdent_exchange hs h fun hident => by
        rw [List.cons_append] at hident
        rw [List.cons_append, takeUnit_cons hc, if_pos hident] at hread
        exact ⟨r, (Prod.mk.inj hread).2⟩
      rw [List.cons_append, List.cons_append] at hident
      rw [List.cons_append, takeUnit_cons hc] at hread ⊢
      rw [hident]
      split at hread
      · next hstart =>
        obtain ⟨rfl, hr⟩ := Prod.mk.inj hread
        rw [if_pos hstart]
        have hname := takeName_stays hs h _ r (Prod.ext rfl hr)
        rw [List.cons_append] at hname
        rw [hname]
        rfl
      · next hstart =>
        obtain ⟨rfl, hr⟩ := Prod.mk.inj hread
        rw [← List.cons_append] at hr
        rw [if_neg hstart, ← List.cons_append, List.append_cancel_right hr]

theorem takeNumeric_stays (hs : IsFirm s) : Stays takeNumeric s := by
  have hnumeral := (readFigures_stays hs).map Figures.numeral
  refine (hnumeral.bind readFigures_suffix takeUnit_suffix
    fun n q hq => takeUnit_stays n (hs.of_suffix hq)).of_eq fun t => ?_
  rw [takeNumeric_eq, takeNumeral_eq]

end

/-! ## What is taken -/

section

variable {c : Char} {s cs : List Char}

theorem suffix_of_suffix_cons (h : s <:+ c :: cs) (hne : s ≠ c :: cs) : s <:+ cs :=
  (List.suffix_cons_iff.1 h).resolve_left hne

theorem suffix_antisymm (h : s <:+ cs) (h' : cs <:+ s) : s = cs :=
  h.eq_of_length (Nat.le_antisymm h.length_le h'.length_le)

theorem takeIdentLike_suffix_of_startsIdent (h : startsIdent (c :: cs) = true) :
    (takeIdentLike (c :: cs)).2 <:+ cs := by
  refine (afterName_suffix _ _).trans (suffix_of_suffix_cons (takeName_suffix _) fun heq => ?_)
  have hstop := not_continues_of_takeName (r := []) (s := c :: cs) heq
  exact absurd (continuesName_of_startsIdent h) (Bool.eq_false_iff.1 hstop)

/-- A number takes a character. -/
theorem startsNumber_of_readFigures (h : (readFigures s).2 = s) : startsNumber s = false := by
  have hexponent : s <:+ (readFraction (readDigits (readSign s).2).2).2 := by
    have hsuffix := readExponent_suffix (readFraction (readDigits (readSign s).2).2).2
    rwa [show (readExponent (readFraction (readDigits (readSign s).2).2).2).2 = s from h] at hsuffix
  have hfraction := hexponent.trans (readFraction_suffix _)
  have hdigits := hfraction.trans (readDigits_suffix _)
  have hsign : (readSign s).2 = s := suffix_antisymm (readSign_suffix s) hdigits
  rw [hsign] at hexponent hfraction
  have hahead : (readDigits s).2 = s := suffix_antisymm (readDigits_suffix s) hfraction
  rw [hahead] at hexponent
  have hbehind : (readFraction s).2 = s := suffix_antisymm (readFraction_suffix s) hexponent
  have hnone := takeFraction?_of_stops hbehind
  have hempty : (readDigits s).1 = [] := by
    have happend := List.takeWhile_append_dropWhile (p := Char.isDigit) (l := s)
    change (readDigits s).1 ++ (readDigits s).2 = s at happend
    rw [hahead] at happend
    exact List.append_left_eq_self.1 happend
  rw [startsNumber_eq_figures]
  change (!(readDigits (readSign s).2).1.isEmpty ||
    !(readFraction (readDigits (readSign s).2).2).1.isEmpty) = false
  rw [hsign, hempty, hahead, readFraction, hnone]
  rfl

theorem takeNumeric_suffix_of_startsNumber (h : startsNumber (c :: cs) = true) :
    (takeNumeric (c :: cs)).2 <:+ cs := by
  rw [takeNumeric_eq, takeNumeral_eq]
  refine (takeUnit_suffix _ _).trans (suffix_of_suffix_cons (readFigures_suffix _) fun heq => ?_)
  exact absurd h (Bool.eq_false_iff.1 (startsNumber_of_readFigures heq))

end

end Css
end SvgCompact
