import SvgCompact.Proofs.Css.Spelling

/-!
What the tokens of a text hold.

Names are not empty, no name and no string holds the character without number, and whole
numbers have 32 bits.  This is all that spelling them again asks for.
-/

namespace SvgCompact
namespace Css

section

variable {c : Char} {s : List Char}

/-! ## Names and strings -/

theorem charOf_ne_null (n : Nat) : charOf n ≠ '\x00' := by
  rw [charOf]
  split
  · next h =>
    intro heq
    have hnat := congrArg Char.toNat heq
    rw [Char.toNat_ofNat, if_pos h.2] at hnat
    exact h.1 hnat
  · decide

theorem escape_ne_null (s : List Char) : (escape s).1 ≠ '\x00' := by
  cases s with
  | nil => exact (by decide : replacement ≠ '\x00')
  | cons c cs =>
    rw [escape]
    split
    · exact charOf_ne_null _
    · split
      · exact (by decide : replacement ≠ '\x00')
      · next hnull => simpa using hnull

theorem null_notMem_takeName (s : List Char) : '\x00' ∉ (takeName s).1 := by
  induction s using takeName.induct with
  | case1 =>
    rw [takeName]
    exact List.not_mem_nil
  | case2 c cs hc _ _ _ ih =>
    rw [takeName, if_pos hc]
    refine List.not_mem_cons_of_ne_of_not_mem ?_ ih
    rintro rfl
    cases hc
  | case3 c cs hc hnull _ _ _ ih =>
    rw [takeName, if_neg hc, if_pos hnull]
    exact List.not_mem_cons_of_ne_of_not_mem (by decide) ih
  | case4 c cs hc hnull hslash _ _ _ ih =>
    rw [takeName, if_neg hc, if_neg hnull, if_pos hslash]
    exact List.not_mem_cons_of_ne_of_not_mem (escape_ne_null cs).symm ih
  | case5 c cs hc hnull hslash =>
    rw [takeName, if_neg hc, if_neg hnull, if_neg hslash]
    exact List.not_mem_nil

theorem takeName_ne_nil (h : continuesName s = true) : (takeName s).1 ≠ [] := by
  cases s with
  | nil => cases h
  | cons c cs =>
    rw [takeName]
    split
    · exact List.cons_ne_nil _ _
    · next hname =>
      split
      · exact List.cons_ne_nil _ _
      · next hnull =>
        split
        · exact List.cons_ne_nil _ _
        · next hslash =>
          rw [continuesName, Bool.eq_false_iff.2 hname, Bool.eq_false_iff.2 hnull,
            Bool.eq_false_iff.2 hslash] at h
          cases h

theorem isName_takeName (h : startsIdent s = true) : IsName (String.ofList (takeName s).1) where
  ne_nil := by
    rw [String.toList_ofList]
    exact takeName_ne_nil (continuesName_of_startsIdent h)
  free := by
    rw [String.toList_ofList]
    exact null_notMem_takeName s

theorem null_notMem_takeQuoted (quote : Char) (s : List Char) :
    '\x00' ∉ (takeQuoted quote s).2.1 := by
  induction s using takeQuoted.induct quote with
  | case1 =>
    rw [takeQuoted]
    exact List.not_mem_nil
  | case2 c cs hc =>
    rw [takeQuoted, if_pos hc]
    exact List.not_mem_nil
  | case3 c cs hc hline =>
    rw [takeQuoted, if_neg hc, if_pos hline]
    exact List.not_mem_nil
  | case4 c cs hc hline hslash hcs =>
    rw [takeQuoted, if_neg hc, if_neg hline, if_pos hslash, if_pos hcs]
    exact List.not_mem_nil
  | case5 c cs hc hline hslash hcs hbreak ih =>
    rw [takeQuoted, if_neg hc, if_neg hline, if_pos hslash, if_neg hcs, if_pos hbreak]
    exact ih
  | case6 c cs hc hline hslash hcs hbreak _ _ _ _ ih =>
    rw [takeQuoted, if_neg hc, if_neg hline, if_pos hslash, if_neg hcs, if_neg hbreak]
    exact List.not_mem_cons_of_ne_of_not_mem (escape_ne_null cs).symm ih
  | case7 c cs hc hline hslash _ _ _ _ ih =>
    rw [takeQuoted, if_neg hc, if_neg hline, if_neg hslash]
    refine List.not_mem_cons_of_ne_of_not_mem ?_ ih
    split
    · decide
    · next hnull => exact Ne.symm (by simpa using hnull)

/-! ## Numbers -/

/-- Whether an integer has 32 bits. -/
def IsWord (k : Int) : Prop :=
  -2147483648 ≤ k ∧ k ≤ 2147483647

instance (k : Int) : Decidable (IsWord k) :=
  inferInstanceAs (Decidable (_ ∧ _))

theorem isWord_clamp32 (n : Int) : IsWord (clamp32 n) := by
  rw [clamp32, IsWord]
  omega

theorem clamp32_eq_self {k : Int} (h : IsWord k) : clamp32 k = k := by
  rw [IsWord] at h
  rw [clamp32]
  omega

/-- A whole number has 32 bits, and without sign it is not negative. -/
structure Numeral.IsProper (n : Numeral) : Prop where
  isWord : ∀ k ∈ n.whole?, IsWord k
  unsigned : n.signed = false → ∀ k ∈ n.whole?, 0 ≤ k

theorem signed_of_negative (h : (readSign s).1.1 = true) : (readSign s).1.2 = true := by
  cases s with
  | nil => cases h
  | cons c cs =>
    rw [readSign, takeSign_cons] at h ⊢
    split at h
    · next hc => simp [hc]
    · split at h <;> cases h

theorem Figures.isProper_numeral {f : Figures} (h : f.negative = true → f.signed = true) :
    f.numeral.IsProper := by
  rw [Figures.numeral]
  cases f.exponent with
  | some e =>
    refine ⟨fun k hk => ?_, fun _ k hk => ?_⟩ <;> cases hk
  | none =>
    refine ⟨fun k hk => ?_, fun hsigned k hk => ?_⟩
    · dsimp only at hk
      split at hk <;> cases hk
      exact isWord_clamp32 _
    · have hnegative : f.negative = false := by
        rw [Bool.eq_false_iff]
        intro hnegative
        have hsigned : f.signed = false := hsigned
        rw [h hnegative] at hsigned
        cases hsigned
      dsimp only at hk
      rw [hnegative] at hk
      split at hk <;> cases hk
      rw [if_neg (by decide), clamp32]
      omega

theorem isProper_takeNumeral (s : List Char) : (takeNumeral s).1.IsProper := by
  rw [takeNumeral_eq]
  exact Figures.isProper_numeral signed_of_negative

/-! ## Tokens -/

def Token.IsProper : Token → Prop
  | .ident name | .idHash name => IsName name
  | .quoted text => '\x00' ∉ text.toList
  | .number n | .dimension n _ => n.IsProper
  | _ => True

theorem isProper_takeAddress (name s : List Char) : (takeAddress name s).1.IsProper := by
  rw [takeAddress, urlToken?]
  cases s.dropWhile Text.isSpace with
  | nil => trivial
  | cons c cs =>
    dsimp only
    split
    · trivial
    · split
      · trivial
      · cases takeUrl (c :: cs) <;> trivial

theorem isProper_takeIdentLike (h : startsIdent s = true) : (takeIdentLike s).1.IsProper := by
  change (afterName (takeName s).1 (takeName s).2).1.IsProper
  unfold afterName
  split
  · split
    · exact isProper_takeAddress _ _
    · trivial
  · exact isName_takeName h

theorem isProper_takeUnit {n : Numeral} (h : n.IsProper) (s : List Char) :
    (takeUnit n s).1.IsProper := by
  unfold takeUnit
  split
  · trivial
  · split <;> exact h

theorem isProper_signOr (c : Char) (sign : MatchSign) (s : List Char) :
    (signOr c sign s).1.IsProper := by
  unfold signOr
  split <;> trivial

theorem isProper_identOr (c : Char) (cs : List Char) :
    (if startsIdent (c :: cs) then takeIdentLike (c :: cs) else (.delim c, cs)).1.IsProper := by
  split
  · next hident => exact isProper_takeIdentLike hident
  · trivial

theorem isProper_start (c : Char) (cs : List Char) : (start c cs).1.IsProper := by
  by_cases hspace : Text.isSpace c = true
  · rw [start_space hspace]
    trivial
  by_cases hquote : (c == '"' || c == '\'') = true
  · rw [start_quote hquote]
    split
    · change '\x00' ∉ (String.ofList _).toList
      rw [String.toList_ofList]
      exact null_notMem_takeQuoted c cs
    · trivial
  by_cases hnumber : startsNumber (c :: cs) = true
  · rw [start_number hnumber, takeNumeric_eq]
    exact isProper_takeUnit (isProper_takeNumeral _) _
  -- from here on the first character alone tells the token
  by_cases hsingle : c ∈ ['(', '[', '\x7b', ')', ']', '\x7d', ':', ';', ',']
  · simp only [List.mem_cons, List.not_mem_nil, or_false] at hsingle
    rcases hsingle with rfl | rfl | rfl | rfl | rfl | rfl | rfl | rfl | rfl <;> trivial
  by_cases hsign : c ∈ ['~', '|', '^', '$', '*']
  · obtain ⟨sign, heq⟩ := exists_start_sign hsign
    rw [heq]
    exact isProper_signOr c sign cs
  by_cases hhash : c = '#'
  · rw [hhash, start_hash]
    split
    · next hident => exact isName_takeName hident
    · split <;> trivial
  by_cases hat : c = '@'
  · rw [hat, start_at]
    split <;> trivial
  by_cases hslash : c = '/'
  · rw [hslash, start_slash]
    split <;> trivial
  by_cases hhyphen : c = '-'
  · subst hhyphen
    rw [start_hyphen (Bool.eq_false_iff.2 hnumber)]
    split
    · trivial
    · exact isProper_identOr '-' cs
  by_cases hless : c = '<'
  · subst hless
    simp only [start, hspace, hquote, hnumber, if_false, Bool.false_eq_true]
    split <;> trivial
  simp only [List.mem_cons, List.not_mem_nil, or_false, not_or] at hsingle hsign
  have hstart : start c cs =
      if startsIdent (c :: cs) then takeIdentLike (c :: cs) else (.delim c, cs) := by
    simp [start, hspace, hquote, hnumber, hsingle, hsign]
  rw [hstart]
  exact isProper_identOr c cs

/-! ## Components -/

/-- A component whose tokens are proper, also inside it. -/
inductive Component.IsProper : Component → Prop
  | token {lexeme : Lexeme} (h : lexeme.token.IsProper) : IsProper (.token lexeme)
  | block {opener : Lexeme} {bracket : Bracket} {body : List Component} {closer : List Char}
      (h : ∀ c ∈ body, IsProper c) : IsProper (.block opener bracket body closer)

theorem Component.IsProper.body {opener : Lexeme} {bracket : Bracket} {body : List Component}
    {closer : List Char} (h : IsProper (.block opener bracket body closer)) :
    ∀ c ∈ body, c.IsProper := by
  cases h with
  | block h => exact h

theorem Component.IsProper.of_token {token : Token} {text : List Char}
    (h : IsProper (.token ⟨token, text⟩)) : token.IsProper := by
  cases h with
  | token h => exact h

/-- The first component that is looked at and those behind it. -/
theorem isProper_of_dropWhile {cs rest : List Component} {c : Component} {p : Component → Bool}
    (hcs : ∀ c ∈ cs, c.IsProper) (h : cs.dropWhile p = c :: rest) :
    c.IsProper ∧ ∀ d ∈ rest, d.IsProper := by
  have hsub := (List.dropWhile_suffix (l := cs) p).subset
  rw [h] at hsub
  exact ⟨hcs c (hsub (by simp)), fun d hd => hcs d (hsub (List.mem_cons_of_mem c hd))⟩

theorem isProper_of_mem_lexemes {s : List Char} {l : Lexeme} (h : l ∈ lexemes s) :
    l.token.IsProper := by
  induction s using lexemes.induct with
  | case1 =>
    rw [lexemes_nil] at h
    cases h
  | case2 c cs ih =>
    rw [lexemes_cons] at h
    rcases List.mem_cons.1 h with rfl | h
    · exact isProper_start c cs
    · exact ih h

theorem isProper_components (s : List Char) : ∀ c ∈ components s, c.IsProper :=
  forall_components (fun _ hl => .token (isProper_of_mem_lexemes hl)) fun _ _ _ _ _ _ => .block

end

end Css
end SvgCompact
