import SvgCompact.Proofs.Css.Settling

/-!
Where a text may be cut without a change to its tokens.

A text either has the same lexemes whatever mark follows it, or its last lexeme swallows
the mark: `lexemes_append`.
-/

namespace SvgCompact
namespace Css

/-! ## Tokens -/

/-- The token of a name that is not in front of a bracket, or with it a function. -/
def afterName (name rest : List Char) : Token × List Char :=
  match rest with
  | '(' :: rest =>
    if Text.sameLetters name "url".toList then takeAddress name rest
    else (.function (String.ofList name), rest)
  | _ => (.ident (String.ofList name), rest)

theorem settles_afterName (name rest : List Char) : Settles (afterName name) rest := by
  cases rest with
  | nil =>
    refine .of_forall fun tail htail => ?_
    rcases htail.cases with rfl | ⟨c, rest, rfl, rfl | rfl | rfl | rfl | rfl⟩ <;> rfl
  | cons c cs =>
    by_cases hbracket : c = '('
    · subst hbracket
      by_cases hurl : Text.sameLetters name "url".toList = true
      · refine (settles_takeAddress name cs).of_step id fun tail htail => ?_
        rw [List.cons_append, afterName, if_pos hurl]
        rfl
      · refine .of_forall fun tail htail => ?_
        rw [List.cons_append, afterName, afterName, if_neg hurl, if_neg hurl]
    · refine .of_forall fun tail htail => ?_
      simp [afterName, hbracket]

theorem settles_takeIdentLike (s : List Char) : Settles takeIdentLike s :=
  (settles_takeName s).bind settles_afterName fun _ => rfl

theorem settles_named (name : String → Token) (s : List Char) :
    Settles (fun s => (name (String.ofList (takeName s).1), (takeName s).2)) s :=
  (settles_takeName s).of_step (fun text => name (String.ofList text)) fun _ _ => rfl

theorem settles_signOr (c : Char) (sign : MatchSign) (s : List Char) :
    Settles (signOr c sign) s := by
  refine .of_forall fun tail htail => ?_
  cases s with
  | nil => rcases htail.cases with rfl | ⟨c, rest, rfl, rfl | rfl | rfl | rfl | rfl⟩ <;> rfl
  | cons d cs =>
    by_cases hequals : d = '='
    · subst hequals
      rfl
    · simp [signOr, hequals]

theorem after?_append_tail {tail mark : List Char} (h : IsTail tail)
    (hmark : ∀ c ∈ mark, isMark c = false) (s : List Char) :
    Text.after? mark (s ++ tail) = (Text.after? mark s).map (· ++ tail) := by
  have hiff : mark.isPrefixOf (s ++ tail) = mark.isPrefixOf s := by
    rw [Bool.eq_iff_iff, List.isPrefixOf_iff_prefix, List.isPrefixOf_iff_prefix]
    refine ⟨fun hp => ?_, fun hp => hp.trans (List.prefix_append s tail)⟩
    cases tail with
    | nil => simpa using hp
    | cons c rest =>
      refine Text.isPrefix_append_cons (fun hc => ?_) hp
      exact absurd (h c rfl) (by simp [hmark c hc])
  rw [Text.after?, Text.after?, hiff]
  split
  · next hp =>
    rw [List.isPrefixOf_iff_prefix] at hp
    rw [List.drop_append_of_le_length hp.length_le]
    rfl
  · rfl

/-! ### By the first character -/

theorem exists_start_single {c : Char}
    (h : c ∈ ['(', '[', '\x7b', ')', ']', '\x7d', ':', ';', ',']) :
    ∃ token, ∀ s, start c s = (token, s) := by
  simp only [List.mem_cons, List.not_mem_nil, or_false] at h
  rcases h with rfl | rfl | rfl | rfl | rfl | rfl | rfl | rfl | rfl <;> exact ⟨_, fun _ => rfl⟩

theorem exists_start_sign {c : Char} (h : c ∈ ['~', '|', '^', '$', '*']) :
    ∃ sign, ∀ s, start c s = signOr c sign s := by
  simp only [List.mem_cons, List.not_mem_nil, or_false] at h
  rcases h with rfl | rfl | rfl | rfl | rfl <;> exact ⟨_, fun _ => rfl⟩

theorem start_hash (s : List Char) :
    start '#' s =
      if startsIdent s then (.idHash (String.ofList (takeName s).1), (takeName s).2)
      else if s.head?.any fun d => d.isDigit || d == '-' then
        (.hash (String.ofList (takeName s).1), (takeName s).2)
      else (.delim '#', s) := by
  cases s <;> rfl

theorem start_at (s : List Char) :
    start '@' s =
      if startsIdent s then (.atKeyword (String.ofList (takeName s).1), (takeName s).2)
      else (.delim '@', s) := by
  rfl

theorem start_slash (s : List Char) :
    start '/' s =
      if s.head?.any (· == '*') then
        (.comment (String.ofList (takeComment s.tail).1), (takeComment s.tail).2)
      else (.delim '/', s) := by
  cases s with
  | nil => rfl
  | cons c cs =>
    by_cases hc : c = '*'
    · subst hc
      rfl
    · simp only [List.head?_cons, Option.any_some, beq_iff_eq, hc, if_false]
      simp [start, hc, Text.isSpace, Text.isMarkupBlank, startsNumber, Decimal.takeSign]

theorem settles_start_hash (s : List Char) : Settles (start '#') s := by
  have hhead (tail : List Char) (htail : IsTail tail) :=
    head?_append_tail htail (p := fun d => d.isDigit || d == '-') (forall_mark (by decide)) s
  by_cases hident : startsIdent s = true
  · refine (settles_named .idHash s).of_step id fun tail htail => ?_
    rw [start_hash, startsIdent_append htail, if_pos hident]
    rfl
  by_cases hdigit : (s.head?.any fun d => d.isDigit || d == '-') = true
  · refine (settles_named .hash s).of_step id fun tail htail => ?_
    rw [start_hash, startsIdent_append htail, if_neg hident, hhead tail htail, if_pos hdigit]
    rfl
  · refine .of_forall fun tail htail => ?_
    rw [start_hash, start_hash, startsIdent_append htail, if_neg hident, if_neg hident,
      hhead tail htail, if_neg hdigit, if_neg hdigit]

theorem settles_start_at (s : List Char) : Settles (start '@') s := by
  by_cases hident : startsIdent s = true
  · refine (settles_named .atKeyword s).of_step id fun tail htail => ?_
    rw [start_at, startsIdent_append htail, if_pos hident]
    rfl
  · refine .of_forall fun tail htail => ?_
    rw [start_at, start_at, startsIdent_append htail, if_neg hident, if_neg hident]

theorem settles_start_slash (s : List Char) : Settles (start '/') s := by
  by_cases hstar : s.head?.any (· == '*') = true
  · obtain ⟨c, cs, rfl⟩ : ∃ c cs, s = c :: cs := by
      cases s with
      | nil => simp at hstar
      | cons c cs => exact ⟨c, cs, rfl⟩
    refine (settles_takeComment cs).of_step (fun text => .comment (String.ofList text))
      fun tail htail => ?_
    rw [start_slash, head?_append_tail htail (forall_mark (by decide)), if_pos hstar]
    rfl
  · refine .of_forall fun tail htail => ?_
    rw [start_slash, start_slash, head?_append_tail htail (forall_mark (by decide)),
      if_neg hstar, if_neg hstar]

/-- Where an identifier may begin. -/
theorem settles_identOr {c : Char} (s : List Char) :
    Settles (fun s =>
      if startsIdent (c :: s) then takeIdentLike (c :: s) else (.delim c, s)) s := by
  have hident (tail : List Char) (htail : IsTail tail) :=
    startsIdent_append htail (c :: s)
  by_cases hs : startsIdent (c :: s) = true
  · refine (settles_takeIdentLike (c :: s)).of_step id fun tail htail => ?_
    have hs := (hident tail htail).trans hs
    rw [List.cons_append] at hs ⊢
    rw [if_pos hs]
    rfl
  · refine .of_forall fun tail htail => ?_
    have htailed := hident tail htail
    rw [List.cons_append] at htailed
    simp only [htailed, hs, if_false, Bool.false_eq_true]

theorem settles_after? (mark : List Char) (hmark : ∀ c ∈ mark, isMark c = false)
    (token : Token) {f : List Char → Token × List Char} {s : List Char} (hf : Settles f s) :
    Settles (fun s => match Text.after? mark s with
      | some rest => (token, rest)
      | none => f s) s := by
  cases h : Text.after? mark s with
  | some rest =>
    refine .of_forall fun tail htail => ?_
    simp only [after?_append_tail htail hmark, h, Option.map_some]
  | none =>
    refine hf.of_step id fun tail htail => ?_
    simp only [after?_append_tail htail hmark, h, Option.map_none]
    rfl

theorem settles_start (c : Char) (s : List Char) : Settles (start c) s := by
  by_cases hspace : Text.isSpace c = true
  · refine .of_forall fun tail htail => ?_
    simp only [start, hspace, if_true, takeWhile_append_tail htail not_isSpace_mark,
      dropWhile_append_tail htail not_isSpace_mark]
  by_cases hquote : (c == '"' || c == '\'') = true
  · have hc : c ≠ '\x7d' := by
      rintro rfl
      simp at hquote
    refine (settles_takeString hc s).of_step
      (fun x => (if x.1 then Token.quoted else Token.badQuoted) (String.ofList x.2))
      fun tail htail => ?_
    simp only [start, hspace, hquote, if_true, if_false, Bool.false_eq_true]
    rfl
  by_cases hnumber : startsNumber (c :: s) = true
  · refine (settles_takeNumeric (c :: s)).of_step id fun tail htail => ?_
    have hnumber := (startsNumber_append htail (c :: s)).trans hnumber
    rw [List.cons_append] at hnumber ⊢
    simp only [start, hspace, hquote, hnumber, if_true, if_false, Bool.false_eq_true]
    rfl
  have hnumber (tail : List Char) (htail : IsTail tail) :
      startsNumber (c :: (s ++ tail)) = false := by
    simpa using (startsNumber_append htail (c :: s)).trans (Bool.eq_false_iff.2 hnumber)
  by_cases hsingle : c ∈ ['(', '[', '\x7b', ')', ']', '\x7d', ':', ';', ',']
  · obtain ⟨token, htoken⟩ := exists_start_single hsingle
    exact .of_forall fun tail htail => by rw [htoken, htoken]
  by_cases hsign : c ∈ ['~', '|', '^', '$', '*']
  · obtain ⟨sign, heq⟩ := exists_start_sign hsign
    rw [funext heq]
    exact settles_signOr c sign s
  by_cases hhash : c = '#'
  · exact hhash ▸ settles_start_hash s
  by_cases hat : c = '@'
  · exact hat ▸ settles_start_at s
  by_cases hslash : c = '/'
  · exact hslash ▸ settles_start_slash s
  by_cases hhyphen : c = '-'
  · subst hhyphen
    refine (settles_after? "->".toList (by simp [isMark]) .commentClose
      (settles_identOr (c := '-') s)).of_step id fun tail htail => ?_
    simp only [start, hspace, hquote, hnumber tail htail, if_false, Bool.false_eq_true]
    rfl
  by_cases hless : c = '<'
  · subst hless
    exact (settles_after? "!--".toList (by simp [isMark]) .commentOpen
      (.of_forall fun tail htail => rfl)).of_step id fun tail htail => rfl
  refine (settles_identOr (c := c) s).of_step id fun tail htail => ?_
  simp only [List.mem_cons, List.not_mem_nil, or_false, not_or] at hsingle hsign
  simp [start, hspace, hquote, hnumber tail htail, hsingle, hsign]

/-! ## Lexemes -/

theorem settles_first (c : Char) (s : List Char) : Settles (first c) s := by
  rcases settles_start c s with h | h
  · refine .of_forall fun tail htail => ?_
    have hmore : (s ++ tail).length - ((start c s).2 ++ tail).length =
        s.length - (start c s).2.length := by
      rw [List.length_append, List.length_append, Nat.add_sub_add_right]
    simp only [first, h tail htail, hmore]
    rw [List.take_append_of_le_length (Nat.sub_le _ _),
      List.drop_append_of_le_length (Nat.sub_le _ _)]
  · right
    simp [first, h]

theorem lexemes_nil : lexemes [] = [] := by
  rw [lexemes]

theorem lexemes_cons (c : Char) (cs : List Char) :
    lexemes (c :: cs) = (first c cs).1 :: lexemes (first c cs).2 := by
  rw [lexemes]

theorem lexemes_ne_nil {s : List Char} (h : s ≠ []) : lexemes s ≠ [] := by
  obtain ⟨c, cs, rfl⟩ := List.exists_cons_of_ne_nil h
  rw [lexemes_cons]
  exact List.cons_ne_nil _ _

theorem flatMap_lexemes (s : List Char) : (lexemes s).flatMap Lexeme.text = s := by
  induction s using lexemes.induct with
  | case1 => rw [lexemes_nil, List.flatMap_nil]
  | case2 c cs ih =>
    rw [lexemes_cons, List.flatMap_cons, ih]
    simp [first]

/-- A bracket behind the text is a lexeme of its own. -/
def EndsApart (s : List Char) : Prop :=
  (lexemes (s ++ ['\x7d'])).getLast?.map Lexeme.text = some ['\x7d']

/-- The lexemes of a text in front of a mark, when none of them swallows it. -/
theorem lexemes_append {s tail : List Char} (h : EndsApart s) (htail : IsTail tail) :
    lexemes (s ++ tail) = lexemes s ++ lexemes tail := by
  induction s using lexemes.induct with
  | case1 => rw [List.nil_append, lexemes_nil, List.nil_append]
  | case2 c cs ih =>
    rw [EndsApart, List.cons_append, lexemes_cons] at h
    rcases settles_first c cs with hfirst | hfirst
    · have hrest : EndsApart (first c cs).2 := by
        rw [hfirst _ isTail_bracket] at h
        obtain ⟨l, hl⟩ : ∃ l, (lexemes ((first c cs).2 ++ ['\x7d'])).getLast? = some l :=
          ⟨_, List.getLast?_eq_some_getLast (lexemes_ne_nil (by simp))⟩
        rw [List.getLast?_cons, hl] at h
        rw [EndsApart, hl]
        exact h
      rw [List.cons_append, lexemes_cons, lexemes_cons, hfirst tail htail, ih hrest,
        List.cons_append]
    · -- one lexeme takes the text and the bracket
      have htext := flatMap_lexemes (c :: (cs ++ ['\x7d']))
      rw [lexemes_cons, hfirst, lexemes_nil, List.flatMap_singleton] at htext
      rw [hfirst, lexemes_nil, List.getLast?_singleton, Option.map_some, htext] at h
      simp at h

end Css
end SvgCompact
