import Mathlib
import SvgCompact.Css.Lexer
import SvgCompact.Proofs.Text.Search

/-!
What the readers of tokens do with a text that is cut off.

Curly brackets, semicolons and commas stand between the pieces of a sheet that is
written, and a round bracket behind the argument of a function.  They are marks: no token
but a string, a comment, an address or an escape reaches across one, and what stands behind
a text is not looked at beyond its first mark.  So each reader either stops before the
mark, whatever mark it is, or takes a bracket in its place: it settles.
-/

namespace SvgCompact
namespace Css

def isMark (c : Char) : Bool :=
  c == '\x7b' || c == '\x7d' || c == ';' || c == ',' || c == ')'

/-- Nothing, or a text that begins with a mark. -/
def IsTail (tail : List Char) : Prop :=
  ∀ c ∈ tail.head?, isMark c = true

/-- The text behind a reader's result stands as it is when the reader stops before the
mark; otherwise it takes a bracket that follows. -/
def Settles {α : Type} (f : List Char → α × List Char) (s : List Char) : Prop :=
  (∀ tail, IsTail tail → f (s ++ tail) = ((f s).1, (f s).2 ++ tail)) ∨
    (f (s ++ ['\x7d'])).2 = []

theorem isTail_nil : IsTail [] := by
  simp [IsTail]

theorem isTail_cons {c : Char} (hc : isMark c = true) (rest : List Char) : IsTail (c :: rest) := by
  simpa [IsTail] using hc

theorem isTail_bracket : IsTail ['\x7d'] :=
  isTail_cons (by decide) []

namespace Settles

variable {α β : Type} {f : List Char → α × List Char} {s : List Char}

theorem of_forall (h : ∀ tail, IsTail tail → f (s ++ tail) = ((f s).1, (f s).2 ++ tail)) :
    Settles f s :=
  .inl h

/-- A reader that goes on as another one does from a later place. -/
theorem of_step {g : List Char → β × List Char} {t : List Char} (k : α → β) (h : Settles f t)
    (hstep : ∀ tail, IsTail tail → g (s ++ tail) = (k (f (t ++ tail)).1, (f (t ++ tail)).2)) :
    Settles g s := by
  rcases h with h | h
  · left
    intro tail htail
    have hs := hstep [] isTail_nil
    rw [List.append_nil, List.append_nil] at hs
    rw [hstep tail htail, h tail htail, hs]
  · right
    rw [hstep _ isTail_bracket]
    exact h

/-- One reader after another. -/
theorem bind {g : α → List Char → β × List Char} (hf : Settles f s)
    (hg : ∀ a r, Settles (g a) r) (hnil : ∀ a, (g a []).2 = []) :
    Settles (fun s => g (f s).1 (f s).2) s := by
  rcases hf with hf | hf
  · rcases hg (f s).1 (f s).2 with hg | hg
    · left
      intro tail htail
      simp only [hf tail htail, hg tail htail]
    · right
      simp only [hf _ isTail_bracket, hg]
  · right
    simp only [hf, hnil]

end Settles

/-! ## What is not looked at -/

section

variable {tail : List Char}

theorem IsTail.cases (h : IsTail tail) :
    tail = [] ∨ ∃ c rest, tail = c :: rest ∧
      (c = '\x7b' ∨ c = '\x7d' ∨ c = ';' ∨ c = ',' ∨ c = ')') := by
  cases tail with
  | nil => exact .inl rfl
  | cons c rest =>
    have hc := h c (by simp)
    simp only [isMark, Bool.or_eq_true, beq_iff_eq, or_assoc] at hc
    exact .inr ⟨c, rest, rfl, hc⟩

theorem IsTail.take (h : IsTail tail) (n : Nat) : IsTail (tail.take n) := by
  intro c hc
  rw [List.head?_take] at hc
  split at hc
  · cases hc
  · exact h c hc

theorem dropWhile_tail (h : IsTail tail) {p : Char → Bool}
    (hp : ∀ c, isMark c = true → p c = false) : tail.dropWhile p = tail := by
  cases tail with
  | nil => rfl
  | cons c rest => rw [List.dropWhile_cons_of_neg (by simp [hp c (h c (by simp))])]

theorem takeWhile_tail (h : IsTail tail) {p : Char → Bool}
    (hp : ∀ c, isMark c = true → p c = false) : tail.takeWhile p = [] := by
  cases tail with
  | nil => rfl
  | cons c rest => rw [List.takeWhile_cons_of_neg (by simp [hp c (h c (by simp))])]

theorem takeWhile_append_tail (h : IsTail tail) {p : Char → Bool}
    (hp : ∀ c, isMark c = true → p c = false) (s : List Char) :
    (s ++ tail).takeWhile p = s.takeWhile p := by
  induction s with
  | nil => exact takeWhile_tail h hp
  | cons c cs ih =>
    rw [List.cons_append, List.takeWhile_cons, List.takeWhile_cons, ih]

theorem dropWhile_append_tail (h : IsTail tail) {p : Char → Bool}
    (hp : ∀ c, isMark c = true → p c = false) (s : List Char) :
    (s ++ tail).dropWhile p = s.dropWhile p ++ tail := by
  induction s with
  | nil => exact dropWhile_tail h hp
  | cons c cs ih =>
    rw [List.cons_append, List.dropWhile_cons, List.dropWhile_cons, ih]
    split <;> rfl

/-- A property of single characters that no mark has. -/
theorem forall_mark {p : Char → Bool}
    (h : (p '\x7b' || p '\x7d' || p ';' || p ',' || p ')') = false) (c : Char)
    (hc : isMark c = true) : p c = false := by
  simp only [Bool.or_eq_false_iff, and_assoc] at h
  simp only [isMark, Bool.or_eq_true, beq_iff_eq, or_assoc] at hc
  rcases hc with rfl | rfl | rfl | rfl | rfl
  · exact h.1
  · exact h.2.1
  · exact h.2.2.1
  · exact h.2.2.2.1
  · exact h.2.2.2.2

theorem not_isDigit_mark (c : Char) (hc : isMark c = true) : c.isDigit = false :=
  forall_mark (p := Char.isDigit) (by decide) c hc

theorem not_isSpace_mark (c : Char) (hc : isMark c = true) : Text.isSpace c = false :=
  forall_mark (p := Text.isSpace) (by decide) c hc

theorem head?_append_tail (h : IsTail tail) {p : Char → Bool}
    (hp : ∀ c, isMark c = true → p c = false) (s : List Char) :
    (s ++ tail).head?.any p = s.head?.any p := by
  cases s with
  | cons c cs => rfl
  | nil =>
    cases tail with
    | nil => rfl
    | cons c rest => exact hp c (h c (by simp))

theorem startsLine_eq (s : List Char) : startsLine s = s.head?.any Text.isLineEnd := by
  cases s <;> rfl

theorem startsIdent_cons (c : Char) (cs : List Char) :
    startsIdent (c :: cs) =
      if c = '-' then cs.head?.any fun d => isNameStart d || d == '-' || d == '\\'
      else if c = '\\' then !startsLine cs
      else isNameStart c := by
  by_cases hhyphen : c = '-'
  · subst hhyphen
    cases cs <;> rfl
  · by_cases hslash : c = '\\'
    · subst hslash
      rfl
    · simp [startsIdent, hhyphen, hslash]

theorem blankLength_cons (c : Char) (cs : List Char) :
    blankLength (c :: cs) =
      if c = '\r' ∧ cs.head?.any (· == '\n') then 2 else if Text.isSpace c then 1 else 0 := by
  unfold blankLength
  split
  · next heq =>
    cases heq
    rfl
  · next hne heq =>
    cases heq
    have hpair : ¬ (c = '\r' ∧ cs.head?.any (· == '\n') = true) := by
      rintro ⟨rfl, hline⟩
      cases cs with
      | nil => simp at hline
      | cons d ds =>
        rw [List.head?_cons, Option.any_some, beq_iff_eq] at hline
        exact hne ds rfl (by rw [hline])
    rw [if_neg hpair]
  · next heq => cases heq

theorem startsLine_append (h : IsTail tail) (s : List Char) :
    startsLine (s ++ tail) = startsLine s := by
  rw [startsLine_eq, startsLine_eq, head?_append_tail h (forall_mark (by decide))]

theorem startsIdent_append (h : IsTail tail) (s : List Char) :
    startsIdent (s ++ tail) = startsIdent s := by
  cases s with
  | nil => rcases h.cases with rfl | ⟨c, rest, rfl, rfl | rfl | rfl | rfl | rfl⟩ <;> rfl
  | cons c cs =>
    rw [List.cons_append, startsIdent_cons, startsIdent_cons, startsLine_append h,
      head?_append_tail h (forall_mark (by decide))]

theorem blankLength_append (h : IsTail tail) (s : List Char) :
    blankLength (s ++ tail) = blankLength s := by
  cases s with
  | nil => rcases h.cases with rfl | ⟨c, rest, rfl, rfl | rfl | rfl | rfl | rfl⟩ <;> rfl
  | cons c cs =>
    rw [List.cons_append, blankLength_cons, blankLength_cons,
      head?_append_tail h (forall_mark (by decide))]

theorem blankLength_le (s : List Char) : blankLength s ≤ s.length := by
  cases s with
  | nil => exact Nat.le_refl 0
  | cons c cs =>
    rw [blankLength_cons, List.length_cons]
    split
    · next h =>
      cases cs with
      | nil => simp at h
      | cons d ds => simp
    · split <;> omega

/-- A backslash with something behind it takes no mark. -/
theorem escape_append (h : IsTail tail) {s : List Char} (hs : s ≠ []) :
    escape (s ++ tail) = escape s := by
  obtain ⟨c, cs, rfl⟩ := List.exists_cons_of_ne_nil hs
  have htake : ((c :: cs ++ tail).take 6).takeWhile isHexDigit =
      ((c :: cs).take 6).takeWhile isHexDigit := by
    rw [List.take_append]
    exact takeWhile_append_tail (h.take _) (forall_mark (by decide)) _
  have hlen : (((c :: cs).take 6).takeWhile isHexDigit).length ≤ (c :: cs).length :=
    ((List.takeWhile_prefix _).length_le).trans (List.length_take_le' 6 _)
  have hblank := blankLength_append h
    ((c :: cs).drop (((c :: cs).take 6).takeWhile isHexDigit).length)
  rw [← List.drop_append_of_le_length hlen] at hblank
  rw [List.cons_append] at htake hblank ⊢
  rw [escape, escape, htake]
  simp only [hblank]

theorem escape_le (s : List Char) : (escape s).2 ≤ s.length := by
  cases s with
  | nil => exact Nat.le_refl 0
  | cons c cs =>
    have hlen : (((c :: cs).take 6).takeWhile isHexDigit).length ≤ (c :: cs).length :=
      ((List.takeWhile_prefix _).length_le).trans (List.length_take_le' 6 _)
    have hblank := blankLength_le
      ((c :: cs).drop (((c :: cs).take 6).takeWhile isHexDigit).length)
    rw [List.length_drop] at hblank
    rw [escape]
    split
    · simp only
      omega
    · split <;> simp

theorem drop_escape_append (h : IsTail tail) {s : List Char} (hs : s ≠ []) :
    (s ++ tail).drop (escape (s ++ tail)).2 = s.drop (escape s).2 ++ tail := by
  rw [escape_append h hs, List.drop_append_of_le_length (escape_le s)]

end

/-! ## Names, strings, comments -/

theorem takeName_tail {tail : List Char} (h : IsTail tail) : takeName tail = ([], tail) := by
  rcases h.cases with rfl | ⟨c, rest, rfl, rfl | rfl | rfl | rfl | rfl⟩ <;>
    simp [takeName, isNameChar]

theorem settles_takeName (s : List Char) : Settles takeName s := by
  induction s using takeName.induct with
  | case1 =>
    refine .of_forall fun tail htail => ?_
    rw [List.nil_append, takeName_tail htail, takeName_tail isTail_nil]
    rfl
  | case2 c cs hc name rest _ ih =>
    refine ih.of_step (c :: ·) fun tail htail => ?_
    rw [List.cons_append, takeName, if_pos hc]
  | case3 c cs hc hnull name rest _ ih =>
    refine ih.of_step (replacement :: ·) fun tail htail => ?_
    rw [List.cons_append, takeName, if_neg hc, if_pos hnull]
  | case4 c cs hc hnull hslash name rest _ ih =>
    by_cases hcs : cs = []
    · right
      subst hcs
      simp only [Bool.and_eq_true, beq_iff_eq] at hslash
      obtain ⟨rfl, -⟩ := hslash
      cbv
    · refine ih.of_step ((escape cs).1 :: ·) fun tail htail => ?_
      rw [List.cons_append, takeName, if_neg hc, if_neg hnull, startsLine_append htail,
        if_pos hslash, drop_escape_append htail hcs, escape_append htail hcs]
  | case5 c cs hc hnull hslash =>
    refine .of_forall fun tail htail => ?_
    rw [List.cons_append, takeName, if_neg hc, if_neg hnull, startsLine_append htail,
      if_neg hslash, takeName, if_neg hc, if_neg hnull, if_neg hslash]
    rfl

/-- A string with the flag and the text that were found of it. -/
def takeString (quote : Char) (s : List Char) : (Bool × List Char) × List Char :=
  (((takeQuoted quote s).1, (takeQuoted quote s).2.1), (takeQuoted quote s).2.2)

theorem settles_takeString {quote : Char} (hquote : quote ≠ '\x7d') (s : List Char) :
    Settles (takeString quote) s := by
  induction s using takeQuoted.induct quote with
  | case1 =>
    right
    simp [takeString, takeQuoted, hquote.symm, Text.isLineEnd]
  | case2 c cs hc =>
    refine .of_forall fun tail htail => ?_
    simp only [takeString, List.cons_append]
    rw [takeQuoted, takeQuoted, if_pos hc, if_pos hc]
  | case3 c cs hc hline =>
    refine .of_forall fun tail htail => ?_
    simp only [takeString, List.cons_append]
    rw [takeQuoted, takeQuoted, if_neg hc, if_neg hc, if_pos hline, if_pos hline]
    rfl
  | case4 c cs hc hline hslash hcs =>
    right
    obtain rfl := List.isEmpty_iff.1 hcs
    simp only [takeString, List.cons_append, List.nil_append]
    rw [takeQuoted, if_neg hc, if_neg hline, if_pos hslash, if_neg (by simp),
      if_neg (by decide)]
    simp [escape, isHexDigit, takeQuoted]
  | case5 c cs hc hline hslash hcs hbreak ih =>
    refine ih.of_step id fun tail htail => ?_
    have hne : ¬ (cs ++ tail).isEmpty = true := by simp_all
    simp only [takeString, List.cons_append]
    rw [takeQuoted, if_neg hc, if_neg hline, if_pos hslash, if_neg hne,
      startsLine_append htail, if_pos hbreak, blankLength_append htail,
      List.drop_append_of_le_length (blankLength_le cs)]
    rfl
  | case6 c cs hc hline hslash hcs hbreak whole text rest _ ih =>
    refine ih.of_step (fun x => (x.1, (escape cs).1 :: x.2)) fun tail htail => ?_
    have hne : ¬ (cs ++ tail).isEmpty = true := by simp_all
    have hcs : cs ≠ [] := by simpa using hcs
    simp only [takeString, List.cons_append]
    rw [takeQuoted, if_neg hc, if_neg hline, if_pos hslash, if_neg hne,
      startsLine_append htail, if_neg hbreak, drop_escape_append htail hcs,
      escape_append htail hcs]
  | case7 c cs hc hline hslash whole text rest _ ih =>
    refine ih.of_step (fun x => (x.1, (if c == '\x00' then replacement else c) :: x.2))
      fun tail htail => ?_
    simp only [takeString, List.cons_append]
    rw [takeQuoted, if_neg hc, if_neg hline, if_neg hslash]

theorem takeComment_cons {c : Char} {cs : List Char}
    (h : ¬ (c = '*' ∧ cs.head?.any (· == '/') = true)) :
    takeComment (c :: cs) = (c :: (takeComment cs).1, (takeComment cs).2) := by
  rw [takeComment]
  rintro rest rfl rfl
  exact h ⟨rfl, rfl⟩

theorem settles_takeComment (s : List Char) : Settles takeComment s := by
  induction s using takeComment.induct with
  | case1 => exact .inr rfl
  | case2 cs => exact .of_forall fun tail htail => by simp [takeComment]
  | case3 c cs hend text rest heq ih =>
    refine ih.of_step (c :: ·) fun tail htail => ?_
    rw [List.cons_append]
    refine takeComment_cons ?_
    rw [head?_append_tail htail (forall_mark (by decide))]
    rintro ⟨rfl, hslash⟩
    cases cs with
    | nil => simp at hslash
    | cons d ds =>
      rw [List.head?_cons, Option.any_some, beq_iff_eq] at hslash
      exact hend ds rfl (by rw [hslash])

/-! ## Addresses -/

/-- What is found of an address, its text unless it is spoiled. -/
def UrlEnd.split : UrlEnd → Option (List Char) × List Char
  | .whole text rest => (some text, rest)
  | .spoiled rest => (none, rest)

theorem settles_takeUrlEnd (s : List Char) : Settles (fun s => (takeUrlEnd s).split) s := by
  induction s using takeUrlEnd.induct with
  | case1 => exact .inr rfl
  | case2 c cs hc =>
    refine .of_forall fun tail htail => ?_
    simp only [List.cons_append]
    rw [takeUrlEnd, takeUrlEnd, if_pos hc, if_pos hc]
    rfl
  | case3 c cs hc hspace ih =>
    refine ih.of_step id fun tail htail => ?_
    simp only [List.cons_append]
    rw [takeUrlEnd, if_neg hc, if_pos hspace]
    rfl
  | case4 c cs hc hspace =>
    refine .of_forall fun tail htail => ?_
    simp only [List.cons_append]
    rw [takeUrlEnd, takeUrlEnd, if_neg hc, if_neg hc, if_neg hspace, if_neg hspace]
    rfl

theorem settles_takeUrl (s : List Char) : Settles (fun s => (takeUrl s).split) s := by
  induction s using takeUrl.induct with
  | case1 => exact .inr (by cbv)
  | case2 c cs hc =>
    refine .of_forall fun tail htail => ?_
    simp only [List.cons_append]
    rw [takeUrl, takeUrl, if_pos hc, if_pos hc]
    rfl
  | case3 c cs hc hspace =>
    refine (settles_takeUrlEnd cs).of_step id fun tail htail => ?_
    simp only [List.cons_append]
    rw [takeUrl, if_neg hc, if_pos hspace]
    rfl
  | case4 c cs hc hspace hbad =>
    refine .of_forall fun tail htail => ?_
    simp only [List.cons_append]
    rw [takeUrl, takeUrl, if_neg hc, if_neg hc, if_neg hspace, if_neg hspace, if_pos hbad,
      if_pos hbad]
    rfl
  | case5 c cs hc hspace hbad hslash hline =>
    refine .of_forall fun tail htail => ?_
    simp only [List.cons_append]
    rw [takeUrl, takeUrl, if_neg hc, if_neg hc, if_neg hspace, if_neg hspace, if_neg hbad,
      if_neg hbad, if_pos hslash, if_pos hslash, startsLine_append htail, if_pos hline,
      if_pos hline]
    rfl
  | case6 c cs hc hspace hbad hslash hline ih =>
    by_cases hcs : cs = []
    · right
      subst hcs
      obtain rfl := beq_iff_eq.1 hslash
      cbv
    · refine ih.of_step (Option.map ((escape cs).1 :: ·)) fun tail htail => ?_
      simp only [List.cons_append]
      rw [takeUrl, if_neg hc, if_neg hspace, if_neg hbad, if_pos hslash, startsLine_append htail,
        if_neg hline, drop_escape_append htail hcs, escape_append htail hcs]
      cases takeUrl (cs.drop (escape cs).2 ++ tail) <;> rfl
  | case7 c cs hc hspace hbad hslash ih =>
    refine ih.of_step (Option.map ((if c == '\x00' then replacement else c) :: ·))
      fun tail htail => ?_
    simp only [List.cons_append]
    rw [takeUrl, if_neg hc, if_neg hspace, if_neg hbad, if_neg hslash]
    cases takeUrl (cs ++ tail) <;> rfl

theorem takeBadUrl_cons {c : Char} {cs : List Char} (hc : c ≠ ')')
    (h : ¬ (c = '\\' ∧ cs.head?.any (fun d => d == ')' || d == '\\') = true)) :
    takeBadUrl (c :: cs) = (c :: (takeBadUrl cs).1, (takeBadUrl cs).2) := by
  rw [takeBadUrl]
  · exact hc
  · rintro rest rfl rfl
    exact h ⟨rfl, rfl⟩
  · rintro rest rfl rfl
    exact h ⟨rfl, rfl⟩

theorem settles_takeBadUrl (s : List Char) : Settles takeBadUrl s := by
  induction s using takeBadUrl.induct with
  | case1 => exact .inr rfl
  | case2 cs => exact .of_forall fun tail htail => by simp [takeBadUrl]
  | case3 cs text rest heq ih =>
    exact ih.of_step (fun text => '\\' :: ')' :: text) fun tail htail => by
      rw [List.cons_append, List.cons_append, takeBadUrl]
  | case4 cs text rest heq ih =>
    exact ih.of_step (fun text => '\\' :: '\\' :: text) fun tail htail => by
      rw [List.cons_append, List.cons_append, takeBadUrl]
  | case5 c cs hc hbracket hslash text rest heq ih =>
    cases cs with
    | nil =>
      right
      rw [List.singleton_append, takeBadUrl_cons hc (by simp)]
      rfl
    | cons d ds =>
      refine ih.of_step (c :: ·) fun tail htail => takeBadUrl_cons hc ?_
      rintro ⟨rfl, hnext⟩
      change Option.any _ (some d) = true at hnext
      rw [Option.any_some, Bool.or_eq_true, beq_iff_eq, beq_iff_eq] at hnext
      rcases hnext with rfl | rfl
      · exact hbracket ds rfl rfl
      · exact hslash ds rfl rfl

/-- The token of an address that stands at the front of `s`. -/
def UrlEnd.token (s : List Char) : UrlEnd → Token × List Char
  | .whole text rest => (.url (String.ofList text), rest)
  | .spoiled after =>
    (.badUrl (String.ofList (s.take (s.length - after.length) ++ (takeBadUrl after).1)),
      (takeBadUrl after).2)

theorem UrlEnd.split_whole {e : UrlEnd} {text rest : List Char}
    (h : e.split = (some text, rest)) : e = .whole text rest := by
  cases e <;> cases h
  rfl

theorem UrlEnd.split_spoiled {e : UrlEnd} {rest : List Char} (h : e.split = (none, rest)) :
    e = .spoiled rest := by
  cases e <;> cases h
  rfl

theorem settles_urlToken (s : List Char) : Settles (fun s => (takeUrl s).token s) s := by
  rcases settles_takeUrl s with h | h
  · cases htake : takeUrl s with
    | whole text rest =>
      refine .of_forall fun tail htail => ?_
      have happend : (takeUrl (s ++ tail)).split =
          ((takeUrl s).split.1, (takeUrl s).split.2 ++ tail) := h tail htail
      rw [htake] at happend
      simp only [UrlEnd.split_whole happend, htake]
      rfl
    | spoiled after =>
      have happend (tail : List Char) (htail : IsTail tail) :
          takeUrl (s ++ tail) = .spoiled (after ++ tail) := by
        have happend : (takeUrl (s ++ tail)).split =
            ((takeUrl s).split.1, (takeUrl s).split.2 ++ tail) := h tail htail
        rw [htake] at happend
        exact UrlEnd.split_spoiled happend
      rcases settles_takeBadUrl after with hbad | hbad
      · refine .of_forall fun tail htail => ?_
        have hseen : (s ++ tail).take ((s ++ tail).length - (after ++ tail).length) =
            s.take (s.length - after.length) := by
          rw [List.length_append, List.length_append, Nat.add_sub_add_right,
            List.take_append_of_le_length (Nat.sub_le _ _)]
        simp only [happend tail htail, htake, UrlEnd.token, hbad tail htail, hseen]
      · right
        simp only [happend _ isTail_bracket, UrlEnd.token, hbad]
  · right
    simp only at h ⊢
    cases htake : takeUrl (s ++ ['\x7d']) with
    | whole text rest =>
      rw [htake] at h
      exact h
    | spoiled after =>
      rw [htake] at h
      obtain rfl : after = [] := h
      rfl

/-- The token after `url(`; a function if its argument is quoted. -/
def takeAddress (name : List Char) (s : List Char) : Token × List Char :=
  (urlToken? s).getD (.function (String.ofList name), s)

theorem settles_takeAddress (name s : List Char) : Settles (takeAddress name) s := by
  cases h : s.dropWhile Text.isSpace with
  | nil =>
    -- the blanks are followed by the bracket, which the address takes
    right
    have hdrop := dropWhile_append_tail isTail_bracket not_isSpace_mark s
    rw [h, List.nil_append] at hdrop
    rw [takeAddress, urlToken?, hdrop]
    cbv
  | cons c cs =>
    have hdrop (tail : List Char) (htail : IsTail tail) :
        (s ++ tail).dropWhile Text.isSpace = c :: (cs ++ tail) := by
      rw [dropWhile_append_tail htail not_isSpace_mark, h, List.cons_append]
    by_cases hquote : (c == '"' || c == '\'') = true
    · refine .of_forall fun tail htail => ?_
      simp only [takeAddress, urlToken?, hdrop tail htail, h, hquote, if_true, Option.getD_none]
    by_cases hbracket : (c == ')') = true
    · refine .of_forall fun tail htail => ?_
      simp only [takeAddress, urlToken?, hdrop tail htail, h, hquote, hbracket, if_true,
        if_false, Option.getD_some, Bool.false_eq_true]
    refine (settles_urlToken (c :: cs)).of_step id fun tail htail => ?_
    rw [takeAddress, urlToken?, hdrop tail htail]
    simp only [hquote, hbracket, if_false, Bool.false_eq_true, List.cons_append, id]
    cases takeUrl (c :: (cs ++ tail)) <;> rfl

/-! ## Numbers -/

theorem takeSign_append {tail : List Char} (h : IsTail tail) (s : List Char) :
    Decimal.takeSign (s ++ tail) =
      ((Decimal.takeSign s).1, (Decimal.takeSign s).2 ++ tail) := by
  cases s with
  | nil => rcases h.cases with rfl | ⟨c, rest, rfl, rfl | rfl | rfl | rfl | rfl⟩ <;> rfl
  | cons c cs =>
    rw [List.cons_append]
    unfold Decimal.takeSign
    split <;> rename_i heq <;> simp_all 

theorem startsNumber_eq (s : List Char) :
    startsNumber s = (Decimal.takeSign s).2.head?.any fun c =>
      if c = '.' then (Decimal.takeSign s).2.tail.head?.any Char.isDigit else c.isDigit := by
  rw [startsNumber]
  rcases (Decimal.takeSign s).2 with - | ⟨c, - | ⟨d, cs⟩⟩
  · rfl
  · by_cases hpoint : c = '.'
    · subst hpoint
      rfl
    · simp [hpoint]
  · by_cases hpoint : c = '.'
    · subst hpoint
      rfl
    · simp [hpoint]

theorem startsNumber_append {tail : List Char} (h : IsTail tail) (s : List Char) :
    startsNumber (s ++ tail) = startsNumber s := by
  rw [startsNumber_eq, startsNumber_eq, takeSign_append h]
  cases (Decimal.takeSign s).2 with
  | nil => rcases h.cases with rfl | ⟨c, rest, rfl, rfl | rfl | rfl | rfl | rfl⟩ <;> rfl
  | cons c cs =>
    simp only [List.cons_append, List.head?_cons, Option.any_some, List.tail_cons,
      head?_append_tail h not_isDigit_mark]

theorem takeFraction?_append {tail : List Char} (h : IsTail tail) (s : List Char) :
    takeFraction? (s ++ tail) =
      (takeFraction? s).map fun x => (x.1, x.2 ++ tail) := by
  cases s with
  | nil => rcases h.cases with rfl | ⟨c, rest, rfl, rfl | rfl | rfl | rfl | rfl⟩ <;> rfl
  | cons c cs =>
    by_cases hpoint : c = '.'
    · subst hpoint
      rw [List.cons_append, takeFraction?, takeFraction?,
        takeWhile_append_tail h not_isDigit_mark, dropWhile_append_tail h not_isDigit_mark]
      split <;> rfl
    · simp [takeFraction?, hpoint]

theorem takeExponent?_append {tail : List Char} (h : IsTail tail) (s : List Char) :
    takeExponent? (s ++ tail) =
      (takeExponent? s).map fun x => (x.1, x.2.1, x.2.2 ++ tail) := by
  cases s with
  | nil => rcases h.cases with rfl | ⟨c, rest, rfl, rfl | rfl | rfl | rfl | rfl⟩ <;> rfl
  | cons c cs =>
    rw [List.cons_append, takeExponent?, takeExponent?, takeSign_append h]
    simp only [takeWhile_append_tail h not_isDigit_mark,
      dropWhile_append_tail h not_isDigit_mark]
    split
    · split <;> rfl
    · rfl

/-- A number without a unit. -/
def takeNumeral (cs : List Char) : Numeral × List Char :=
  let (negative, unsigned) := Decimal.takeSign cs
  let sign : Float := if negative then -1.0 else 1.0
  let ahead := unsigned.takeWhile Char.isDigit
  let afterWhole := unsigned.dropWhile Char.isDigit
  let (behind, afterFraction) := (takeFraction? afterWhole).getD ([], afterWhole)
  let plain := sign * (wholeValue ahead + fractionValue behind)
  let (value, rest, exact) :=
    match takeExponent? afterFraction with
    | some (down, digits, rest) => (plain * powerOfTen down digits, rest, false)
    | none => (plain, afterFraction, behind.isEmpty)
  let whole : Int := Decimal.ofDigits ahead
  let whole? := if exact then some (clamp32 (if negative then -whole else whole)) else none
  (⟨unsigned.length < cs.length, value, whole?⟩, rest)

/-- The unit of a number. -/
def takeUnit (n : Numeral) (s : List Char) : Token × List Char :=
  match s with
  | '%' :: rest => (.percentage { n with value := n.value / 100.0 }, rest)
  | _ =>
    if startsIdent s then (.dimension n (String.ofList (takeName s).1), (takeName s).2)
    else (.number n, s)

theorem takeNumeric_eq (s : List Char) :
    takeNumeric s = takeUnit (takeNumeral s).1 (takeNumeral s).2 := by
  rfl

theorem takeNumeral_append {tail : List Char} (h : IsTail tail) (s : List Char) :
    takeNumeral (s ++ tail) = ((takeNumeral s).1, (takeNumeral s).2 ++ tail) := by
  have hlength (a b : List Char) :
      decide ((a ++ tail).length < (b ++ tail).length) = decide (a.length < b.length) := by
    simp
  have hfraction (a : List Char) :
      (takeFraction? (a ++ tail)).getD ([], a ++ tail) =
        (((takeFraction? a).getD ([], a)).1, ((takeFraction? a).getD ([], a)).2 ++ tail) := by
    rw [takeFraction?_append h]
    cases takeFraction? a <;> rfl
  simp only [takeNumeral, takeSign_append h, takeWhile_append_tail h not_isDigit_mark,
    dropWhile_append_tail h not_isDigit_mark, hfraction, takeExponent?_append h, hlength]
  cases takeExponent? _ <;> rfl

theorem settles_takeUnit (n : Numeral) (s : List Char) : Settles (takeUnit n) s := by
  cases s with
  | nil =>
    refine .of_forall fun tail htail => ?_
    rcases htail.cases with rfl | ⟨c, rest, rfl, rfl | rfl | rfl | rfl | rfl⟩ <;> rfl
  | cons c cs =>
    by_cases hpercent : c = '%'
    · subst hpercent
      exact .of_forall fun tail htail => rfl
    have hunit (rest : List Char) : takeUnit n (c :: rest) =
        if startsIdent (c :: rest) then
          (.dimension n (String.ofList (takeName (c :: rest)).1), (takeName (c :: rest)).2)
        else (.number n, c :: rest) := by
      rw [takeUnit]
      simp [hpercent]
    by_cases hident : startsIdent (c :: cs) = true
    · refine (settles_takeName (c :: cs)).of_step (fun name => .dimension n (String.ofList name))
        fun tail htail => ?_
      rw [List.cons_append, hunit, ← List.cons_append, startsIdent_append htail, if_pos hident]
    · refine .of_forall fun tail htail => ?_
      rw [List.cons_append, hunit, hunit, ← List.cons_append, startsIdent_append htail,
        if_neg hident, if_neg hident]

theorem settles_takeNumeric (s : List Char) : Settles takeNumeric s := by
  rcases settles_takeUnit (takeNumeral s).1 (takeNumeral s).2 with h | h
  · refine .of_forall fun tail htail => ?_
    rw [takeNumeric_eq, takeNumeric_eq, takeNumeral_append htail, h tail htail]
  · right
    rw [takeNumeric_eq, takeNumeral_append isTail_bracket, h]

end Css
end SvgCompact
