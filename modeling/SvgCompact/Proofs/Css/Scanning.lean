import SvgCompact.Css.Declaration
import SvgCompact.Proofs.Css.Stopping

/-!
Comments that are found without tokens.

Comments are dropped by a scanner that knows strings and nothing else of tokens: a quote or
the beginning of a comment in an address or behind a backslash misleads it.  Where every
lexeme is clear of these, it drops the comments and nothing else: `uncommented_source`.
-/

namespace SvgCompact
namespace Css

section

variable {after : List Char} {ls : List Lexeme} {l : Lexeme}

/-- Whether a comment seems to begin somewhere in the text. -/
def opensComment : List Char → Bool
  | [] => false
  | c :: cs => (c == '/' && cs.head?.any (· == '*')) || opensComment cs

/-- A lexeme in which no string and no comment seems to begin, or a string or a comment. -/
def Lexeme.isClear (l : Lexeme) : Bool :=
  match l.token with
  | .comment _ | .quoted _ => true
  | _ => l.text.all (fun c => !(c == '"' || c == '\'')) && !opensComment l.text &&
    (l.text == ['/'] || l.text.getLast? != some '/')

/-- Whether comments are found where they are: there are none, or every lexeme is clear. -/
def isClear (ls : List Lexeme) : Bool :=
  !opensComment (source ls) || ls.all Lexeme.isClear

theorem Lexeme.isClear_cases (h : l.isClear = true) (hcomment : l.token.isComment = false)
    (hquoted : ∀ x, l.token ≠ .quoted x) :
    l.text.all (fun c => !(c == '"' || c == '\'')) = true ∧ opensComment l.text = false ∧
      (l.text = ['/'] ∨ l.text.getLast? ≠ some '/') := by
  obtain ⟨token, text⟩ := l
  cases token with
  | comment => cases hcomment
  | quoted x => exact absurd rfl (hquoted x)
  | _ =>
    simp only [Lexeme.isClear, Bool.and_eq_true, Bool.not_eq_true', Bool.or_eq_true, beq_iff_eq,
      bne_iff_ne] at h
    exact ⟨h.1.1, h.1.2, h.2⟩

/-! ## Outside strings and comments -/

theorem dropComments_nil (region : Region) : dropComments region [] = [] := by
  cases region <;> rfl

theorem dropComments_quoted_cons {quote c : Char} (hc : c ≠ '\\') (cs : List Char) :
    dropComments (.quoted quote) (c :: cs) =
      c :: dropComments (if c == quote then .outside else .quoted quote) cs := by
  rw [dropComments]
  rintro d rest rfl
  exact absurd rfl hc

theorem dropComments_outside_cons {c : Char} {cs : List Char}
    (h : (c == '/' && cs.head?.any (· == '*')) = false) :
    dropComments .outside (c :: cs) =
      c :: dropComments (if c == '"' || c == '\'' then .quoted c else .outside) cs := by
  rw [dropComments]
  rintro rest rfl rfl
  cases h

theorem dropComments_of_not_opensComment {region : Region} (hregion : region ≠ .comment)
    {s : List Char} (h : opensComment s = false) : dropComments region s = s := by
  induction region, s using dropComments.induct with
  | case1 region => exact dropComments_nil region
  | case2 cs => cases h
  | case3 c cs hnot ih =>
    rw [opensComment, Bool.or_eq_false_iff] at h
    rw [dropComments_outside_cons h.1, ih (by split <;> simp) h.2]
  | case4 quote c cs ih =>
    rw [opensComment, opensComment, Bool.or_eq_false_iff, Bool.or_eq_false_iff] at h
    exact congrArg (fun rest => '\\' :: c :: rest) (ih (by simp) h.2.2)
  | case5 quote c cs hnot ih =>
    rw [opensComment, Bool.or_eq_false_iff] at h
    rw [dropComments, ih (by split <;> simp) h.2]
    exact hnot
  | case6 => exact absurd rfl hregion
  | case7 => exact absurd rfl hregion

theorem dropComments_clear {s : List Char} (hquotes : ∀ c ∈ s, (c == '"' || c == '\'') = false)
    (hs : opensComment s = false) {t : List Char}
    (hlast : s.getLast? = some '/' → t.head?.any (· == '*') = false) :
    dropComments .outside (s ++ t) = s ++ dropComments .outside t := by
  induction s with
  | nil => rfl
  | cons c s ih =>
    obtain ⟨hc, hrest⟩ := List.forall_mem_cons.1 hquotes
    rw [opensComment, Bool.or_eq_false_iff] at hs
    have hnot : (c == '/' && (s ++ t).head?.any (· == '*')) = false := by
      cases s with
      | nil =>
        by_cases hslash : c = '/'
        · simpa [hslash] using hlast (by rw [hslash]; rfl)
        · simp [hslash]
      | cons d s => exact hs.1
    rw [List.cons_append, dropComments_outside_cons hnot, hc, if_neg Bool.false_ne_true,
      ih hrest hs.2 ?_, List.cons_append]
    intro hend
    refine hlast ?_
    rw [List.getLast?_cons, hend]
    rfl

/-! ## Comments -/

theorem takeComment_ne {s : List Char} (hs : s ≠ []) : (takeComment s).2 ≠ s := by
  obtain ⟨c, cs, rfl⟩ := List.exists_cons_of_ne_nil hs
  have hshort : (takeComment (c :: cs)).2 <:+ cs := by
    by_cases hend : c = '*' ∧ cs.head?.any (· == '/') = true
    · obtain ⟨rfl, hslash⟩ := hend
      cases cs with
      | nil => cases hslash
      | cons d cs =>
        obtain rfl : d = '/' := by simpa using hslash
        exact List.suffix_cons '/' cs
    · rw [takeComment_cons hend]
      exact takeComment_suffix cs
  intro heq
  have hlength := hshort.length_le
  rw [heq, List.length_cons] at hlength
  omega

/-- The rest of a comment that is closed in front of `t`. -/
theorem dropComments_comment {x t : List Char} (ht : t ≠ [])
    (h : (takeComment (x ++ t)).2 = t) (u : List Char) :
    dropComments .comment (x ++ u) = dropComments .outside u := by
  induction x with
  | nil => exact absurd h (takeComment_ne ht)
  | cons c x ih =>
    rw [List.cons_append] at h ⊢
    by_cases hend : c = '*' ∧ (x ++ t).head?.any (· == '/') = true
    · obtain ⟨rfl, hslash⟩ := hend
      cases x with
      | nil =>
        obtain ⟨d, t, rfl⟩ := List.exists_cons_of_ne_nil ht
        obtain rfl : d = '/' := by simpa using hslash
        have hlength := congrArg List.length h
        simp [takeComment] at hlength
      | cons d x =>
        obtain rfl : d = '/' := by simpa using hslash
        obtain rfl := List.append_left_eq_self.1 h
        rfl
    · rw [takeComment_cons hend] at h
      rw [dropComments, ih h]
      rintro rest rfl hrest
      cases x with
      | nil => exact takeComment_ne ht h
      | cons d x =>
        rw [List.cons_append, List.cons.injEq] at hrest
        exact hend ⟨rfl, by simp [hrest.1]⟩

/-! ## Strings -/

theorem isSpace_of_mem_take_blankLength {c : Char} {s : List Char}
    (h : c ∈ s.take (blankLength s)) : Text.isSpace c = true := by
  cases s with
  | nil => cases h
  | cons d s =>
    rw [blankLength_cons] at h
    split at h
    · next hreturn =>
      obtain ⟨rfl, hfeed⟩ := hreturn
      cases s with
      | nil => cases hfeed
      | cons e s =>
        obtain rfl : e = '\n' := by simpa using hfeed
        simp only [List.take_succ_cons, List.take_zero, List.mem_cons, List.not_mem_nil,
          or_false] at h
        rcases h with rfl | rfl <;> decide
    · split at h
      · next hspace =>
        simp only [List.take_succ_cons, List.take_zero, List.mem_cons, List.not_mem_nil,
          or_false] at h
        rw [h, hspace]
      · cases h

theorem blankLength_pos {s : List Char} (h : startsLine s = true) : 0 < blankLength s := by
  cases s with
  | nil => cases h
  | cons c s =>
    have hspace : Text.isSpace c = true := by
      simp only [startsLine, Text.isLineEnd, Bool.or_eq_true, beq_iff_eq, or_assoc] at h
      rcases h with rfl | rfl | rfl <;> decide
    rw [blankLength_cons, if_pos hspace]
    split <;> exact Nat.zero_lt_succ _

theorem escape_pos {s : List Char} (hs : s ≠ []) : 0 < (escape s).2 := by
  obtain ⟨c, s, rfl⟩ := List.exists_cons_of_ne_nil hs
  rw [escape]
  split
  · next hc =>
    rw [List.take_succ_cons, List.takeWhile_cons_of_pos hc]
    exact Nat.lt_of_lt_of_le (Nat.zero_lt_succ _) (Nat.le_add_right _ _)
  · split <;> exact Nat.zero_lt_one

/-- Behind the first character of an escape there are digits and blanks only. -/
theorem mem_tail_take_escape {c : Char} {s : List Char}
    (h : c ∈ (s.take (escape s).2).tail) : isHexDigit c = true ∨ Text.isSpace c = true := by
  cases s with
  | nil => cases h
  | cons d s =>
    rw [escape] at h
    split at h
    · have hdigits : ((d :: s).take 6).takeWhile isHexDigit <+: d :: s :=
        (List.takeWhile_prefix _).trans (List.take_prefix 6 _)
      have hmem := List.mem_of_mem_tail h
      rw [List.take_add, ← List.prefix_iff_eq_take.1 hdigits, List.mem_append] at hmem
      rcases hmem with hmem | hmem
      · exact .inl (List.all_eq_true.1 List.all_takeWhile c hmem)
      · exact .inr (isSpace_of_mem_take_blankLength hmem)
    · split at h <;> simp at h

/-- A string that goes on `k` characters behind a backslash. -/
theorem dropComments_escape {quote : Char} {k : Nat} {x t mid u : List Char} (hk : 0 < k)
    (hmid : (x ++ t).drop k = mid ++ t) (hne : mid ≠ [])
    (hskip : ∀ c ∈ ((x ++ t).take k).tail, c ≠ quote ∧ c ≠ '\\')
    (hread : dropComments (.quoted quote) (mid ++ u) = mid ++ dropComments .outside u) :
    dropComments (.quoted quote) ('\\' :: (x ++ u)) = '\\' :: x ++ dropComments .outside u := by
  have hplain : ∀ a, (∀ c ∈ a, c ≠ quote ∧ c ≠ '\\') → ∀ b,
      dropComments (.quoted quote) (a ++ b) = a ++ dropComments (.quoted quote) b := by
    intro a ha b
    induction a with
    | nil => rfl
    | cons c a ih =>
      obtain ⟨hc, hrest⟩ := List.forall_mem_cons.1 ha
      rw [List.cons_append, dropComments_quoted_cons hc.2, if_neg (by simpa using hc.1), ih hrest,
        List.cons_append]
  obtain ⟨hlen, rfl⟩ := drop_of_append hmid hne
  obtain ⟨d, x, rfl⟩ := List.exists_cons_of_length_pos (Nat.zero_lt_of_lt hlen)
  obtain ⟨k, rfl⟩ := Nat.exists_eq_add_of_lt hk
  rw [Nat.zero_add] at hlen hskip hread
  rw [List.take_append_of_le_length hlen.le, List.take_succ_cons, List.tail_cons] at hskip
  rw [List.drop_succ_cons] at hread
  have hsplit := hplain _ hskip (x.drop k ++ u)
  rw [hread, ← List.append_assoc, ← List.append_assoc, List.take_append_drop] at hsplit
  exact congrArg (fun rest => '\\' :: d :: rest) hsplit

/-- The rest of a string that is closed in front of `t`. -/
theorem dropComments_quoted {quote : Char} (hquote : (quote == '"' || quote == '\'') = true)
    {x t text : List Char} (ht : t ≠ []) (h : takeQuoted quote (x ++ t) = (true, text, t))
    (u : List Char) :
    dropComments (.quoted quote) (x ++ u) = x ++ dropComments .outside u := by
  have hskip {c : Char} (hc : isHexDigit c = true ∨ Text.isSpace c = true) :
      c ≠ quote ∧ c ≠ '\\' := by
    rw [Bool.or_eq_true, beq_iff_eq, beq_iff_eq] at hquote
    constructor
    · rintro rfl
      rcases hquote with rfl | rfl <;> exact absurd hc (by decide)
    · rintro rfl
      exact absurd hc (by decide)
  have hslash : quote ≠ '\\' := by
    rintro rfl
    cases hquote
  generalize hw : x ++ t = w at h
  induction w using takeQuoted.induct quote generalizing x text with
  | case1 => simp [ht] at hw
  | case2 c cs hc =>
    rw [takeQuoted, if_pos hc] at h
    obtain ⟨-, rfl, rfl⟩ : true = true ∧ [] = text ∧ cs = t := by simpa using h
    obtain ⟨x, rfl, hs⟩ := exists_cons_of_append_suffix (r := []) hw (List.suffix_refl _)
    obtain rfl := List.append_left_eq_self.1 hs.symm
    rw [beq_iff_eq.1 hc, List.cons_append, dropComments_quoted_cons hslash, beq_self_eq_true,
      if_pos rfl]
    rfl
  | case3 c cs hc hline =>
    rw [takeQuoted, if_neg hc, if_pos hline] at h
    cases h
  | case4 c cs hc hline hslash hcs =>
    rw [takeQuoted, if_neg hc, if_neg hline, if_pos hslash, if_pos hcs] at h
    simp [ht.symm] at h
  | case5 c cs hc hline hslash hcs hbreak ih =>
    rw [takeQuoted, if_neg hc, if_neg hline, if_pos hslash, if_neg hcs, if_pos hbreak] at h
    have hr := takeQuoted_suffix quote (cs.drop (blankLength cs))
    rw [h] at hr
    obtain ⟨x, rfl, rfl⟩ := exists_cons_of_append_suffix (r := []) hw
      (hr.trans (List.drop_suffix _ cs))
    obtain ⟨mid, hmid, -⟩ := exists_of_append_suffix (r := []) (List.drop_suffix _ _) hr
    rw [hmid] at h
    obtain ⟨q, hq, -⟩ := takeQuoted_closed (r := []) ht h
    rw [beq_iff_eq.1 hslash]
    exact dropComments_escape (blankLength_pos hbreak) hmid (by simp [hq])
      (fun c hc => hskip (.inr (isSpace_of_mem_take_blankLength (List.mem_of_mem_tail hc))))
      (ih hmid.symm (hmid ▸ h))
  | case6 c cs hc hline hslash hcs hbreak whole text' rest _ ih =>
    rw [takeQuoted, if_neg hc, if_neg hline, if_pos hslash, if_neg hcs, if_neg hbreak] at h
    obtain ⟨hwhole, rfl, hrest⟩ : _ ∧ _ ∧ _ := by simpa using h
    have hr := takeQuoted_suffix quote (cs.drop (escape cs).2)
    rw [hrest] at hr
    obtain ⟨x, rfl, rfl⟩ := exists_cons_of_append_suffix (r := []) hw
      (hr.trans (List.drop_suffix _ cs))
    obtain ⟨mid, hmid, -⟩ := exists_of_append_suffix (r := []) (List.drop_suffix _ _) hr
    obtain ⟨text', hread⟩ : ∃ text', takeQuoted quote ((x ++ t).drop (escape (x ++ t)).2) =
        (true, text', t) := ⟨_, Prod.ext hwhole (Prod.ext rfl hrest)⟩
    have hclosed := ih hmid.symm hread
    rw [hmid] at hread
    obtain ⟨q, hq, -⟩ := takeQuoted_closed (r := []) ht hread
    rw [beq_iff_eq.1 hslash]
    exact dropComments_escape (escape_pos (by simpa using hcs)) hmid (by simp [hq])
      (fun c hc => hskip (mem_tail_take_escape hc)) hclosed
  | case7 c cs hc hline hslash whole text' rest _ ih =>
    rw [takeQuoted, if_neg hc, if_neg hline, if_neg hslash] at h
    obtain ⟨hwhole, rfl, hrest⟩ : _ ∧ _ ∧ _ := by simpa using h
    have hr := takeQuoted_suffix quote cs
    rw [hrest] at hr
    obtain ⟨x, rfl, rfl⟩ := exists_cons_of_append_suffix (r := []) hw hr
    have hread := ih rfl (Prod.ext hwhole (Prod.ext rfl hrest))
    rw [List.cons_append, dropComments_quoted_cons (by simpa using hslash), if_neg hc, hread,
      List.cons_append]

/-! ## Lexemes -/

theorem opensComment_of_append {s t : List Char} (h : opensComment (s ++ t) = false) :
    opensComment t = false := by
  induction s with
  | nil => exact h
  | cons c s ih =>
    rw [List.cons_append, opensComment, Bool.or_eq_false_iff] at h
    exact ih h.2

theorem kept_of_not_opensComment (h : Reads ls after) (hnone : opensComment (source ls) = false) :
    kept ls = ls := by
  induction ls with
  | nil => rfl
  | cons l ls ih =>
    rw [source_cons] at hnone
    by_cases hcomment : l.token.isComment = true
    · obtain ⟨x, htext, -⟩ := h.comment hcomment
      rw [htext] at hnone
      cases hnone
    · rw [kept_of_not (Bool.eq_false_iff.2 hcomment), ih h.tail (opensComment_of_append hnone)]

/-- The comments that are dropped are those that are tokens. -/
theorem uncommented_source (h : Reads ls after) (hafter : Follows after)
    (hclear : isClear ls = true) :
    uncommented (source ls) = source (kept ls) := by
  rw [isClear, Bool.or_eq_true, Bool.not_eq_true', List.all_eq_true] at hclear
  rcases hclear with hnone | hclear
  · rw [uncommented, dropComments_of_not_opensComment (by simp) hnone,
      kept_of_not_opensComment h hnone]
  rw [uncommented]
  induction ls with
  | nil => rw [source_nil, dropComments_nil]; rfl
  | cons l ls ih =>
    have hrest := ih h.tail (List.forall_mem_cons.1 hclear).2
    have hl := (List.forall_mem_cons.1 hclear).1
    have hne : source ls ++ after ≠ [] := fun hnil =>
      hafter.append_ne (source ls) (by rw [hnil]; rfl)
    by_cases hcomment : l.token.isComment = true
    · obtain ⟨x, htext, htake⟩ := h.comment hcomment
      rw [source_cons, htext, List.cons_append, List.cons_append, kept_of_comment hcomment]
      exact (dropComments_comment hne htake _).trans hrest
    rw [kept_of_not (Bool.eq_false_iff.2 hcomment), source_cons, source_cons, ← hrest]
    by_cases hquoted : ∃ text, l.token = .quoted text
    · obtain ⟨text, hquoted⟩ := hquoted
      obtain ⟨c, x, text', htext, hquote, htake⟩ := h.quoted hquoted
      have hnot : (c == '/' && (x ++ source ls).head?.any (· == '*')) = false := by
        rw [Bool.or_eq_true, beq_iff_eq, beq_iff_eq] at hquote
        rcases hquote with rfl | rfl <;> rfl
      rw [htext, List.cons_append, dropComments_outside_cons hnot, if_pos hquote,
        dropComments_quoted hquote hne htake]
      rfl
    · have hclean : l.text.all (fun c => !(c == '"' || c == '\'')) = true ∧
          opensComment l.text = false ∧ (l.text = ['/'] ∨ l.text.getLast? ≠ some '/') :=
        Lexeme.isClear_cases hl (Bool.eq_false_iff.2 hcomment) (by simpa using hquoted)
      refine dropComments_clear (by simpa using hclean.1) hclean.2.1 fun hlast => ?_
      have hslash := hclean.2.2.resolve_right fun hne => hne hlast
      obtain ⟨c, x, htext, hstart⟩ := h.start
      obtain ⟨rfl, rfl⟩ := List.cons.inj (hslash.symm.trans htext)
      -- a star behind the slash would have made a comment of both
      rw [Bool.eq_false_iff]
      intro hstar
      cases hsource : source ls with
      | nil =>
        rw [hsource] at hstar
        cases hstar
      | cons d s =>
        obtain rfl : d = '*' := by simpa [hsource] using hstar
        rw [hsource, List.nil_append, List.cons_append, start_comment] at hstart
        rw [← (Prod.mk.inj hstart).1] at hcomment
        exact hcomment rfl

end

end Css
end SvgCompact
