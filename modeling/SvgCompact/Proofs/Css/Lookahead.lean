import SvgCompact.Proofs.Css.Cutting

/-!
How far the readers of tokens look ahead.

A reader that stops in front of a text has looked at the beginning of that text only to see
that nothing of the token stands there.  So it stops just as well in front of another text
that shows it nothing more: `StopsLike`.  The one condition on the token itself is that it
ends in no escape and in no blank, since an escape takes a blank behind it: `IsFirm`.
-/

namespace SvgCompact
namespace Css

/-! ## What breaks a token off -/

/-- The characters that belong to no token behind its first character, unless they are escaped
or quoted or stand in an address. -/
def breaks : List Char :=
  [' ', '\t', '\n', '\r', '\x0c', '"', '\'', ',', ':', ';', '!', '[', ']', '\x7b', '\x7d', ')']

def isBreak (c : Char) : Bool :=
  breaks.contains c

theorem forall_break {p : Char → Bool} (h : breaks.any p = false) {c : Char}
    (hc : isBreak c = true) : p c = false := by
  rw [List.any_eq_false] at h
  simpa using h c (List.contains_iff_mem.1 hc)

theorem isBreak_eq_false {p : Char → Bool} (hp : breaks.any p = false) {c : Char}
    (hc : p c = true) : isBreak c = false := by
  rw [Bool.eq_false_iff]
  intro hbreak
  exact Bool.false_ne_true ((forall_break hp hbreak).symm.trans hc)

theorem isBreak_of_isSpace {c : Char} (h : Text.isSpace c = true) : isBreak c = true := by
  simp only [Text.isSpace, Text.isMarkupBlank, Bool.or_eq_true, beq_iff_eq, or_assoc] at h
  rcases h with rfl | rfl | rfl | rfl | rfl <;> decide

/-- Whether a quote stands behind the blanks at the front. -/
def opensQuoted (s : List Char) : Bool :=
  (s.dropWhile Text.isSpace).head?.any fun c => c == '"' || c == '\''

/-- A reader that stops before `t` sees nothing more in `u`: both texts are the same up to a
point at which the second ends or breaks any token off, or from which on no reader looks
further. -/
inductive StopsLike : List Char → List Char → Prop
  | ends {t u : List Char} (ht : t.head? ≠ some '\\') (hu : ∀ c ∈ u.head?, isBreak c = true)
      (hquoted : opensQuoted t = true → opensQuoted u = true) : StopsLike t u
  | opens (t u : List Char) : StopsLike ('(' :: t) ('(' :: u)
  | escapes (c : Char) (t u : List Char) : StopsLike ('\\' :: c :: t) ('\\' :: c :: u)
  | same {c : Char} {t u : List Char} (hc : c ≠ '\\') (h : StopsLike t u) :
      StopsLike (c :: t) (c :: u)

namespace StopsLike

variable {c : Char} {t u : List Char}

theorem of_cons (h : StopsLike t (c :: u)) (hc : isBreak c = false) :
    ∃ rest, t = c :: rest ∧ (c ≠ '(' → c ≠ '\\' → StopsLike rest u) := by
  cases h with
  | ends ht hu => rw [hu c (by simp)] at hc; cases hc
  | opens t => exact ⟨t, rfl, fun hne => absurd rfl hne⟩
  | escapes d t => exact ⟨d :: t, rfl, fun _ hne => absurd rfl hne⟩
  | same hne h => exact ⟨_, rfl, fun _ _ => h⟩

theorem of_backslash (h : StopsLike t ('\\' :: u)) :
    ∃ rest, t = '\\' :: rest ∧ startsLine rest = startsLine u := by
  cases h with
  | ends ht hu => exact absurd (hu '\\' (by simp)) (by decide)
  | escapes d t u => exact ⟨d :: t, rfl, rfl⟩
  | same hne h => exact absurd rfl hne

theorem head (h : StopsLike t u) {p : Char → Bool} (hp : breaks.any p = false)
    (hu : u.head?.any p = true) : t.head?.any p = true := by
  cases u with
  | nil => cases hu
  | cons c u =>
    obtain ⟨rest, rfl, -⟩ := h.of_cons (isBreak_eq_false hp hu)
    exact hu

theorem opensQuoted (h : StopsLike t u) (ht : opensQuoted t = true) :
    Css.opensQuoted u = true := by
  induction h with
  | ends _ _ hquoted => exact hquoted ht
  | opens t u => cases ht
  | escapes c t u => cases ht
  | @same c t u hc h ih =>
    by_cases hspace : Text.isSpace c = true
    · rw [Css.opensQuoted, List.dropWhile_cons_of_pos hspace] at ht ⊢
      exact ih ht
    · rw [Css.opensQuoted, List.dropWhile_cons_of_neg hspace] at ht ⊢
      exact ht

/-- The texts may have the same characters in front. -/
theorem append (h : StopsLike t u) {s : List Char} (hs : s.getLast? ≠ some '\\') :
    StopsLike (s ++ t) (s ++ u) := by
  induction s with
  | nil => exact h
  | cons c s ih =>
    cases s with
    | nil => exact .same (fun hc => hs (by rw [hc]; rfl)) h
    | cons d s =>
      have hrest := ih (by rwa [List.getLast?_cons_cons] at hs)
      by_cases hc : c = '\\'
      · subst hc
        exact .escapes d (s ++ t) (s ++ u)
      · exact .same hc hrest

end StopsLike

/-! ## What readers look for -/

/-- Whether a name goes on. -/
def continuesName : List Char → Bool
  | c :: cs => isNameChar c || c == '\x00' || (c == '\\' && !startsLine cs)
  | [] => false

/-- Whether the sign and the digits of an exponent are there. -/
def startsDigits (s : List Char) : Bool :=
  (Decimal.takeSign s).2.head?.any Char.isDigit

def startsExponent : List Char → Bool
  | c :: cs => (c == 'e' || c == 'E') && startsDigits cs
  | [] => false

theorem takeSign_cons (c : Char) (s : List Char) :
    Decimal.takeSign (c :: s) =
      if c = '-' then (true, s) else if c = '+' then (false, s) else (false, c :: s) := by
  unfold Decimal.takeSign
  split <;> rename_i heq <;> simp_all

namespace StopsLike

variable {c : Char} {t u : List Char} (h : StopsLike t u)
include h

theorem continuesName (hu : continuesName u = true) : Css.continuesName t = true := by
  cases u with
  | nil => cases hu
  | cons c u =>
    rw [Css.continuesName, Bool.or_eq_true] at hu
    rcases hu with hu | hu
    · obtain ⟨rest, rfl, -⟩ := h.of_cons
        (isBreak_eq_false (p := fun c => isNameChar c || c == '\x00') (by decide) hu)
      rw [Css.continuesName, hu, Bool.true_or]
    · rw [Bool.and_eq_true, beq_iff_eq] at hu
      obtain ⟨rfl, hline⟩ := hu
      obtain ⟨rest, rfl, heq⟩ := h.of_backslash
      rw [Css.continuesName, heq, hline]
      rfl

theorem startsIdent (hu : startsIdent u = true) : Css.startsIdent t = true := by
  cases u with
  | nil => cases hu
  | cons c u =>
    rw [startsIdent_cons] at hu
    split at hu
    · next hc =>
      subst hc
      obtain ⟨rest, rfl, hrest⟩ := h.of_cons (by decide)
      rw [startsIdent_cons, if_pos rfl]
      exact (hrest (by decide) (by decide)).head (by decide) hu
    · split at hu
      · next hc =>
        subst hc
        obtain ⟨rest, rfl, heq⟩ := h.of_backslash
        rw [startsIdent_cons, if_neg (by decide), if_pos rfl, heq, hu]
      · next hhyphen hslash =>
        obtain ⟨rest, rfl, -⟩ := h.of_cons (isBreak_eq_false (p := isNameStart) (by decide) hu)
        rw [startsIdent_cons, if_neg hhyphen, if_neg hslash, hu]

theorem startsDigits (hu : startsDigits u = true) : Css.startsDigits t = true := by
  cases u with
  | nil => cases hu
  | cons c u =>
    rw [Css.startsDigits, takeSign_cons] at hu
    by_cases hsign : c = '-' ∨ c = '+'
    · have hrest : u.head?.any Char.isDigit = true := by
        rcases hsign with rfl | rfl <;> exact hu
      have hbreak : isBreak c = false := by rcases hsign with rfl | rfl <;> decide
      obtain ⟨rest, rfl, hlike⟩ := h.of_cons hbreak
      have hne : c ≠ '(' ∧ c ≠ '\\' := by rcases hsign with rfl | rfl <;> decide
      have hhead := (hlike hne.1 hne.2).head (by decide) hrest
      rw [Css.startsDigits, takeSign_cons]
      rcases hsign with rfl | rfl <;> exact hhead
    · rw [not_or] at hsign
      rw [if_neg hsign.1, if_neg hsign.2] at hu
      obtain ⟨rest, rfl, -⟩ := h.of_cons (isBreak_eq_false (p := Char.isDigit) (by decide) hu)
      rw [Css.startsDigits, takeSign_cons, if_neg hsign.1, if_neg hsign.2]
      exact hu

theorem startsExponent (hu : startsExponent u = true) : Css.startsExponent t = true := by
  cases u with
  | nil => cases hu
  | cons c u =>
    rw [Css.startsExponent, Bool.and_eq_true] at hu
    obtain ⟨rest, rfl, hrest⟩ := h.of_cons
      (isBreak_eq_false (p := fun c => c == 'e' || c == 'E') (by decide) hu.1)
    have hne : c ≠ '(' ∧ c ≠ '\\' := by
      constructor <;> (rintro rfl; exact absurd hu.1 (by decide))
    rw [Css.startsExponent, hu.1, (hrest hne.1 hne.2).startsDigits hu.2]
    rfl

/-- A point that begins a fraction. -/
theorem takeFraction? (hu : (takeFraction? u).isSome = true) :
    (Css.takeFraction? t).isSome = true := by
  unfold Css.takeFraction? at hu
  split at hu
  · next u =>
    have hdigit : u.head?.any Char.isDigit = true := by
      cases u with
      | nil => cases hu
      | cons d u =>
        by_cases hd : d.isDigit = true
        · exact hd
        · simp [List.takeWhile_cons_of_neg hd] at hu
    obtain ⟨rest, rfl, hrest⟩ := h.of_cons (by decide)
    have hhead := (hrest (by decide) (by decide)).head (by decide) hdigit
    cases rest with
    | nil => cases hhead
    | cons d rest =>
      have hd : d.isDigit = true := hhead
      simp [Css.takeFraction?, List.takeWhile_cons_of_pos hd]
  · cases hu

theorem startsNumber (hu : startsNumber u = true) : Css.startsNumber t = true := by
  have hunsigned : ∀ {t u : List Char}, StopsLike t u →
      (u.head?.any fun c => if c = '.' then u.tail.head?.any Char.isDigit else c.isDigit) = true →
      (t.head?.any fun c => if c = '.' then t.tail.head?.any Char.isDigit else c.isDigit) = true ∧
        ∃ c rest, t = c :: rest ∧ c ≠ '-' ∧ c ≠ '+' := by
    intro t u h hu
    cases u with
    | nil => cases hu
    | cons c u =>
      rw [List.head?_cons, Option.any_some] at hu
      split at hu
      · next hc =>
        subst hc
        obtain ⟨rest, rfl, hrest⟩ := h.of_cons (by decide)
        exact ⟨(hrest (by decide) (by decide)).head (by decide) hu, _, _, rfl, by decide, by decide⟩
      · next hc =>
        obtain ⟨rest, rfl, -⟩ := h.of_cons (isBreak_eq_false (p := Char.isDigit) (by decide) hu)
        refine ⟨by simpa [hc] using hu, _, _, rfl, ?_, ?_⟩
        · rintro rfl
          cases hu
        · rintro rfl
          cases hu
  rw [startsNumber_eq] at hu ⊢
  -- the characters that decide stand in front, or behind a sign
  cases u with
  | nil => cases hu
  | cons c u =>
    rw [takeSign_cons] at hu
    by_cases hsign : c = '-' ∨ c = '+'
    · have hbreak : isBreak c = false := by rcases hsign with rfl | rfl <;> decide
      have hne : c ≠ '(' ∧ c ≠ '\\' := by rcases hsign with rfl | rfl <;> decide
      obtain ⟨rest, rfl, hlike⟩ := h.of_cons hbreak
      rw [takeSign_cons]
      rcases hsign with rfl | rfl
      · exact (hunsigned (hlike hne.1 hne.2) hu).1
      · exact (hunsigned (hlike hne.1 hne.2) hu).1
    · rw [not_or] at hsign
      rw [if_neg hsign.1, if_neg hsign.2] at hu
      obtain ⟨ht, d, rest, rfl, hminus, hplus⟩ := hunsigned h hu
      rw [takeSign_cons, if_neg hminus, if_neg hplus]
      exact ht

end StopsLike

/-! ## What readers leave -/

theorem takeName_suffix (s : List Char) : (takeName s).2 <:+ s := by
  induction s using takeName.induct with
  | case1 => rw [takeName]
  | case2 c cs hc name rest _ ih =>
    rw [takeName, if_pos hc]
    exact ih.trans (List.suffix_cons c cs)
  | case3 c cs hc hnull name rest _ ih =>
    rw [takeName, if_neg hc, if_pos hnull]
    exact ih.trans (List.suffix_cons c cs)
  | case4 c cs hc hnull hslash name rest _ ih =>
    rw [takeName, if_neg hc, if_neg hnull, if_pos hslash]
    exact (ih.trans (List.drop_suffix _ cs)).trans (List.suffix_cons c cs)
  | case5 c cs hc hnull hslash =>
    rw [takeName, if_neg hc, if_neg hnull, if_neg hslash]

theorem takeQuoted_suffix (quote : Char) (s : List Char) : (takeQuoted quote s).2.2 <:+ s := by
  induction s using takeQuoted.induct quote with
  | case1 => rw [takeQuoted]
  | case2 c cs hc =>
    rw [takeQuoted, if_pos hc]
    exact List.suffix_cons c cs
  | case3 c cs hc hline => rw [takeQuoted, if_neg hc, if_pos hline]
  | case4 c cs hc hline hslash hcs =>
    rw [takeQuoted, if_neg hc, if_neg hline, if_pos hslash, if_pos hcs]
    exact List.nil_suffix
  | case5 c cs hc hline hslash hcs hbreak ih =>
    rw [takeQuoted, if_neg hc, if_neg hline, if_pos hslash, if_neg hcs, if_pos hbreak]
    exact (ih.trans (List.drop_suffix _ cs)).trans (List.suffix_cons c cs)
  | case6 c cs hc hline hslash hcs hbreak whole text rest _ ih =>
    rw [takeQuoted, if_neg hc, if_neg hline, if_pos hslash, if_neg hcs, if_neg hbreak]
    exact (ih.trans (List.drop_suffix _ cs)).trans (List.suffix_cons c cs)
  | case7 c cs hc hline hslash whole text rest _ ih =>
    rw [takeQuoted, if_neg hc, if_neg hline, if_neg hslash]
    exact ih.trans (List.suffix_cons c cs)

theorem takeComment_suffix (s : List Char) : (takeComment s).2 <:+ s := by
  induction s using takeComment.induct with
  | case1 => exact List.suffix_refl []
  | case2 cs => exact ⟨['*', '/'], rfl⟩
  | case3 c cs hend text rest heq ih =>
    rw [takeComment]
    · exact ih.trans (List.suffix_cons c cs)
    · exact hend

theorem takeBadUrl_suffix (s : List Char) : (takeBadUrl s).2 <:+ s := by
  induction s using takeBadUrl.induct with
  | case1 => exact List.suffix_refl []
  | case2 cs => exact List.suffix_cons _ cs
  | case3 cs text rest heq ih =>
    rw [takeBadUrl]
    exact ih.trans ⟨['\\', ')'], rfl⟩
  | case4 cs text rest heq ih =>
    rw [takeBadUrl]
    exact ih.trans ⟨['\\', '\\'], rfl⟩
  | case5 c cs hc hbracket hslash text rest heq ih =>
    rw [takeBadUrl]
    · exact ih.trans (List.suffix_cons c cs)
    · exact hc
    · exact hbracket
    · exact hslash

theorem takeUrlEnd_suffix (s : List Char) : (takeUrlEnd s).split.2 <:+ s := by
  induction s using takeUrlEnd.induct with
  | case1 => exact List.suffix_refl []
  | case2 c cs hc =>
    rw [takeUrlEnd, if_pos hc]
    exact List.suffix_cons c cs
  | case3 c cs hc hspace ih =>
    rw [takeUrlEnd, if_neg hc, if_pos hspace]
    exact ih.trans (List.suffix_cons c cs)
  | case4 c cs hc hspace =>
    rw [takeUrlEnd, if_neg hc, if_neg hspace]
    exact List.suffix_cons c cs

theorem takeUrl_suffix (s : List Char) : (takeUrl s).split.2 <:+ s := by
  induction s using takeUrl.induct with
  | case1 =>
    rw [takeUrl]
    exact List.suffix_refl []
  | case2 c cs hc =>
    rw [takeUrl, if_pos hc]
    exact List.suffix_cons c cs
  | case3 c cs hc hspace =>
    rw [takeUrl, if_neg hc, if_pos hspace]
    exact (takeUrlEnd_suffix cs).trans (List.suffix_cons c cs)
  | case4 c cs hc hspace hbad =>
    rw [takeUrl, if_neg hc, if_neg hspace, if_pos hbad]
    exact List.suffix_cons c cs
  | case5 c cs hc hspace hbad hslash hline =>
    rw [takeUrl, if_neg hc, if_neg hspace, if_neg hbad, if_pos hslash, if_pos hline]
    exact List.suffix_cons c cs
  | case6 c cs hc hspace hbad hslash hline ih =>
    rw [takeUrl, if_neg hc, if_neg hspace, if_neg hbad, if_pos hslash, if_neg hline]
    have hrest := (ih.trans (List.drop_suffix _ cs)).trans (List.suffix_cons c cs)
    cases htake : takeUrl (cs.drop (escape cs).2) <;> rw [htake] at hrest <;> exact hrest
  | case7 c cs hc hspace hbad hslash ih =>
    rw [takeUrl, if_neg hc, if_neg hspace, if_neg hbad, if_neg hslash]
    have hrest := ih.trans (List.suffix_cons c cs)
    cases htake : takeUrl cs <;> rw [htake] at hrest <;> exact hrest

theorem takeAddress_suffix (name s : List Char) : (takeAddress name s).2 <:+ s := by
  have hdrop := List.dropWhile_suffix (l := s) Text.isSpace
  rw [takeAddress, urlToken?]
  cases h : s.dropWhile Text.isSpace with
  | nil => exact List.suffix_refl s
  | cons c cs =>
    rw [h] at hdrop
    dsimp only
    split
    · exact List.suffix_refl s
    · split
      · exact (List.suffix_cons c cs).trans hdrop
      · have hurl := (takeUrl_suffix (c :: cs)).trans hdrop
        cases htake : takeUrl (c :: cs) with
        | whole text rest =>
          rw [htake] at hurl
          exact hurl
        | spoiled after =>
          rw [htake] at hurl
          exact (takeBadUrl_suffix after).trans hurl

theorem afterName_suffix (name s : List Char) : (afterName name s).2 <:+ s := by
  unfold afterName
  split
  · next rest =>
    split
    · exact (takeAddress_suffix name rest).trans (List.suffix_cons '(' rest)
    · exact List.suffix_cons '(' rest
  · exact List.suffix_refl s

/-! ## Escapes -/

/-- Whether an escape may go on behind the text. -/
def endsEscaped : List Char → Bool
  | [] => false
  | c :: cs => c == '\\' && cs.all isHexDigit || endsEscaped cs

/-- A text that ends in no escape and in no blank. -/
structure IsFirm (s : List Char) : Prop where
  escaped : endsEscaped s = false
  last : ∀ c ∈ s.getLast?, Text.isSpace c = false

namespace IsFirm

variable {c : Char} {s t : List Char}

theorem tail (h : IsFirm (c :: s)) : IsFirm s where
  escaped := by
    have hescaped := h.escaped
    rw [endsEscaped, Bool.or_eq_false_iff] at hescaped
    exact hescaped.2
  last d hd := by
    refine h.last d ?_
    rw [List.getLast?_cons, Option.mem_def.1 hd]
    rfl

theorem of_suffix (h : IsFirm s) (ht : t <:+ s) : IsFirm t := by
  induction s with
  | nil => rwa [List.suffix_nil.1 ht]
  | cons c s ih =>
    rcases List.suffix_cons_iff.1 ht with rfl | ht
    · exact h
    · exact ih h.tail ht

theorem not_all_hex (h : IsFirm ('\\' :: s)) : s.all isHexDigit = false := by
  have hescaped := h.escaped
  rw [endsEscaped, Bool.or_eq_false_iff] at hescaped
  simpa using hescaped.1

theorem ne_nil (h : IsFirm ('\\' :: s)) : s ≠ [] := by
  rintro rfl
  cases h.not_all_hex

theorem getLast?_ne (h : IsFirm s) : s.getLast? ≠ some '\\' := by
  intro hlast
  obtain ⟨front, rfl⟩ := List.getLast?_eq_some_iff.1 hlast
  exact (h.of_suffix (List.suffix_append front ['\\'])).ne_nil rfl

end IsFirm

theorem startsLine_append_of_ne_nil {s : List Char} (hs : s ≠ []) (t : List Char) :
    startsLine (s ++ t) = startsLine s := by
  obtain ⟨c, cs, rfl⟩ := List.exists_cons_of_ne_nil hs
  rfl

/-- The digits of an escape that are followed by something else in `s`. -/
theorem takeWhile_take_append {s : List Char} {p : Char → Bool} (n : Nat) (hs : s.all p = false)
    (t : List Char) : ((s ++ t).take n).takeWhile p = (s.take n).takeWhile p := by
  induction s generalizing n with
  | nil => cases hs
  | cons c cs ih =>
    cases n with
    | zero => rfl
    | succ n =>
      rw [List.cons_append, List.take_succ_cons, List.take_succ_cons, List.takeWhile_cons,
        List.takeWhile_cons]
      split
      · next hc =>
        rw [ih n]
        rwa [List.all_cons, hc, Bool.true_and] at hs
      · rfl

theorem blankLength_append_of_firm {s : List Char} (hs : s ≠ [])
    (hlast : ∀ c ∈ s.getLast?, Text.isSpace c = false) (t : List Char) :
    blankLength (s ++ t) = blankLength s := by
  obtain ⟨c, cs, rfl⟩ := List.exists_cons_of_ne_nil hs
  rw [List.cons_append, blankLength_cons, blankLength_cons]
  cases cs with
  | nil =>
    have hc : Text.isSpace c = false := hlast c rfl
    have hreturn : c ≠ '\r' := by
      rintro rfl
      cases hc
    simp [hreturn, hc]
  | cons d ds => rfl

/-- A firm text holds the whole escape. -/
theorem escape_append_of_firm {s : List Char} (h : IsFirm ('\\' :: s)) (t : List Char) :
    escape (s ++ t) = escape s := by
  obtain ⟨c, cs, rfl⟩ := List.exists_cons_of_ne_nil h.ne_nil
  have hall := h.not_all_hex
  have hdigits := takeWhile_take_append (p := isHexDigit) 6 hall t
  rw [List.cons_append] at hdigits
  rw [List.cons_append, escape, escape, hdigits]
  have hlt : (((c :: cs).take 6).takeWhile isHexDigit).length < (c :: cs).length := by
    refine Nat.lt_of_le_of_ne ((List.takeWhile_prefix _).length_le.trans
      (List.length_take_le' 6 _)) fun heq => ?_
    have htake : ((c :: cs).take 6).takeWhile isHexDigit = c :: cs :=
      ((List.takeWhile_prefix _).trans (List.take_prefix 6 _)).eq_of_length heq
    have hhex := List.all_takeWhile (p := isHexDigit) (l := (c :: cs).take 6)
    rw [htake, hall] at hhex
    cases hhex
  have hblank := blankLength_append_of_firm (s := (c :: cs).drop
    (((c :: cs).take 6).takeWhile isHexDigit).length) (by simpa using hlt)
    (h.tail.of_suffix (List.drop_suffix _ _)).last t
  rw [← List.drop_append_of_le_length hlt.le, List.cons_append] at hblank
  simp only [hblank]

theorem drop_escape_append_of_firm {s : List Char} (h : IsFirm ('\\' :: s)) (t : List Char) :
    (s ++ t).drop (escape (s ++ t)).2 = s.drop (escape s).2 ++ t := by
  rw [escape_append_of_firm h, List.drop_append_of_le_length (escape_le s)]

/-! ## Readers that stop -/

/-- A reader that stops in front of what follows `s` does so whatever follows in its place. -/
def Stays {α : Type} (f : List Char → α × List Char) (s : List Char) : Prop :=
  ∀ ⦃t u : List Char⦄, StopsLike t u →
    ∀ a r, f (s ++ t) = (a, r ++ t) → f (s ++ u) = (a, r ++ u)

section

variable {α β : Type} {f : List Char → α × List Char} {s t u r : List Char}

theorem eq_nil_of_append_suffix (h : r ++ t <:+ t) : r = [] := by
  have hlength := h.length_le
  rw [List.length_append] at hlength
  exact List.length_eq_zero_iff.1 (by omega)

theorem exists_of_append_suffix {q : List Char} (hq : q <:+ s ++ t) (hr : r ++ t <:+ q) :
    ∃ mid, q = mid ++ t ∧ mid <:+ s := by
  obtain ⟨front, rfl⟩ := hr
  rw [← List.append_assoc] at hq ⊢
  exact ⟨_, rfl, ((List.suffix_append_inj_of_length_eq rfl).1 hq).1⟩

/-- A reader that stops within `s`. -/
theorem Stays.of_forall {a : α} {q : List Char} (h : ∀ t, f (s ++ t) = (a, q ++ t)) :
    Stays f s := by
  intro t u _ b r hread
  rw [h] at hread
  obtain ⟨rfl, hr⟩ := Prod.mk.inj hread
  rw [h, List.append_cancel_right hr]

/-- A reader that takes nothing. -/
theorem Stays.nil (hfs : ∀ s, (f s).2 <:+ s)
    (h : ∀ ⦃t u⦄, StopsLike t u → ∀ a, f t = (a, t) → f u = (a, u)) : Stays f [] := by
  intro t u hlike a r hread
  rw [List.nil_append] at hread ⊢
  have hr : r ++ t <:+ t := by
    have hrest := hfs t
    rwa [hread] at hrest
  obtain rfl := eq_nil_of_append_suffix hr
  exact h hlike a hread

/-- One reader after another: what the first leaves ends with what the second leaves. -/
theorem Stays.bind {g : α → List Char → β × List Char} (hf : Stays f s)
    (hfs : ∀ s, (f s).2 <:+ s) (hgs : ∀ a s, (g a s).2 <:+ s)
    (hg : ∀ a q, q <:+ s → Stays (g a) q) : Stays (fun s => g (f s).1 (f s).2) s := by
  intro t u h b r heq
  dsimp only at heq ⊢
  have hr : r ++ t <:+ (f (s ++ t)).2 := by
    have hrest := hgs (f (s ++ t)).1 (f (s ++ t)).2
    rwa [heq] at hrest
  obtain ⟨q, hq, hqs⟩ := exists_of_append_suffix (hfs (s ++ t)) hr
  rw [hf h (f (s ++ t)).1 q (Prod.ext rfl hq)]
  rw [hq] at heq
  exact hg _ q hqs h b r heq

/-- A result that is shown in another form. -/
theorem Stays.map (hf : Stays f s) (k : α → β) : Stays (fun s => (k (f s).1, (f s).2)) s := by
  intro t u h b r heq
  obtain ⟨rfl, hr⟩ := Prod.mk.inj heq
  dsimp only
  rw [hf h (f (s ++ t)).1 r (Prod.ext rfl hr)]

theorem Stays.of_eq {g : List Char → α × List Char} (hf : Stays f s)
    (heq : ∀ t, g (r ++ t) = f (s ++ t)) : Stays g r := by
  intro t u h a q hread
  rw [heq] at hread ⊢
  exact hf h a q hread

theorem takeName_of_not_continues (h : continuesName s = false) : takeName s = ([], s) := by
  cases s with
  | nil => rw [takeName]
  | cons c cs =>
    rw [continuesName, Bool.or_eq_false_iff, Bool.or_eq_false_iff] at h
    rw [takeName, if_neg (by simp [h.1.1]), if_neg (by simp [h.1.2]), if_neg (by simp [h.2])]

/-- A name that goes on takes a character. -/
theorem not_continues_of_takeName (h : (takeName s).2 = r ++ s) : continuesName s = false := by
  cases s with
  | nil => rfl
  | cons c cs =>
    rw [Bool.eq_false_iff]
    intro hcontinues
    have hrest : (takeName (c :: cs)).2 <:+ cs := by
      rw [takeName]
      split
      · exact takeName_suffix cs
      · next hname =>
        split
        · exact takeName_suffix cs
        · next hnull =>
          split
          · exact (takeName_suffix _).trans (List.drop_suffix _ cs)
          · next hslash =>
            rw [continuesName, Bool.eq_false_iff.2 hname, Bool.eq_false_iff.2 hnull,
              Bool.eq_false_iff.2 hslash] at hcontinues
            cases hcontinues
    rw [h] at hrest
    have hlength := hrest.length_le
    simp at hlength
    omega

theorem takeName_stays (hs : IsFirm s) : Stays takeName s := by
  -- along the name: only its escapes and its end depend on more than one character
  induction s using takeName.induct with
  | case1 =>
    refine .nil takeName_suffix fun t u h name hread => ?_
    have ht := not_continues_of_takeName (r := []) (s := t) (congrArg Prod.snd hread)
    rw [takeName_of_not_continues ht] at hread
    cases hread
    refine takeName_of_not_continues (Bool.eq_false_iff.2 fun hu => ?_)
    rw [h.continuesName hu] at ht
    cases ht
  | case2 c cs hc _ _ _ ih =>
    refine ((ih hs.tail).map (c :: ·)).of_eq fun t => ?_
    rw [List.cons_append, takeName, if_pos hc]
  | case3 c cs hc hnull _ _ _ ih =>
    refine ((ih hs.tail).map (replacement :: ·)).of_eq fun t => ?_
    rw [List.cons_append, takeName, if_neg hc, if_pos hnull]
  | case4 c cs hc hnull hslash _ _ _ ih =>
    obtain rfl : c = '\\' := by
      rw [Bool.and_eq_true, beq_iff_eq] at hslash
      exact hslash.1
    refine ((ih (hs.tail.of_suffix (List.drop_suffix _ cs))).map ((escape cs).1 :: ·)).of_eq
      fun t => ?_
    rw [List.cons_append, takeName, if_neg hc, if_neg hnull,
      startsLine_append_of_ne_nil hs.ne_nil, if_pos hslash, drop_escape_append_of_firm hs,
      escape_append_of_firm hs]
  | case5 c cs hc hnull hslash =>
    refine .of_forall (a := []) (q := c :: cs) fun t => ?_
    have hstop : (c == '\\' && !startsLine (cs ++ t)) = false := by
      by_cases hcs : cs = []
      · have hne : c ≠ '\\' := by
          rintro rfl
          exact hs.ne_nil hcs
        simp [hne]
      · rw [startsLine_append_of_ne_nil hcs]
        exact Bool.eq_false_iff.2 hslash
    rw [List.cons_append, takeName, if_neg hc, if_neg hnull, hstop]
    rfl

end

end Css
end SvgCompact
