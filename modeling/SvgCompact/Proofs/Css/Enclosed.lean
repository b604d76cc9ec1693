import SvgCompact.Proofs.Css.Numbers

/-!
What a token encloses is read without a look at the text behind it.

A string, an address and the name of a function end with a sign of their own.  Every token
begins in one of few ways (`opening_start`), and what it leaves is an end of the text.
-/

namespace SvgCompact
namespace Css

section

variable {c : Char} {s t u r cs : List Char}

/-! ## Strings -/

theorem takeWhile_take_append_of_lt {p : Char → Bool} {n : Nat}
    (h : (((s ++ t).take n).takeWhile p).length < s.length) (u : List Char) :
    ((s ++ u).take n).takeWhile p = ((s ++ t).take n).takeWhile p := by
  induction s generalizing n with
  | nil => cases h
  | cons c cs ih =>
    cases n with
    | zero => rfl
    | succ n =>
      rw [List.cons_append, List.take_succ_cons, List.takeWhile_cons] at h
      rw [List.cons_append, List.cons_append, List.take_succ_cons, List.take_succ_cons,
        List.takeWhile_cons, List.takeWhile_cons]
      split
      · next hc =>
        rw [if_pos hc, List.length_cons, List.length_cons, Nat.succ_lt_succ_iff] at h
        rw [ih h]
      · rfl

theorem blankLength_append_of_lt (h : blankLength (s ++ t) < s.length) (u : List Char) :
    blankLength (s ++ u) = blankLength (s ++ t) := by
  cases s with
  | nil => cases h
  | cons c cs =>
    rw [List.cons_append, blankLength_cons] at h
    rw [List.cons_append, List.cons_append, blankLength_cons, blankLength_cons]
    cases cs with
    | cons d ds => rfl
    | nil =>
      have hspace : ¬ Text.isSpace c = true := by
        intro hspace
        rw [if_pos hspace] at h
        split at h <;> simp at h
      have hreturn : c ≠ '\r' := by
        rintro rfl
        exact hspace (by decide)
      simp [hreturn, hspace]

/-- An escape that ends before `s` does. -/
theorem escape_append_of_lt (h : (escape (s ++ t)).2 < s.length) (u : List Char) :
    escape (s ++ u) = escape (s ++ t) := by
  obtain ⟨c, cs, rfl⟩ := List.exists_cons_of_length_pos (Nat.zero_lt_of_lt h)
  rw [List.cons_append, escape] at h
  rw [List.cons_append, List.cons_append, escape, escape]
  by_cases hc : isHexDigit c = true
  · rw [if_pos hc] at h
    rw [if_pos hc, if_pos hc]
    dsimp only at h ⊢
    have hdigits : (((c :: (cs ++ t)).take 6).takeWhile isHexDigit).length < (c :: cs).length :=
      Nat.lt_of_le_of_lt (Nat.le_add_right _ _) h
    have hsame := takeWhile_take_append_of_lt (s := c :: cs) hdigits u
    rw [List.cons_append, List.cons_append] at hsame
    have hblank := blankLength_append_of_lt (t := t) (s := (c :: cs).drop
      (((c :: (cs ++ t)).take 6).takeWhile isHexDigit).length)
      (by
        rw [List.length_drop, ← List.drop_append_of_le_length hdigits.le, List.cons_append]
        omega) u
    rw [← List.drop_append_of_le_length hdigits.le, ← List.drop_append_of_le_length hdigits.le,
      List.cons_append, List.cons_append] at hblank
    rw [hsame, hblank]
  · rw [if_neg hc, if_neg hc]

theorem exists_cons_of_append_suffix {c : Char} {cs : List Char} (hw : s ++ t = c :: cs)
    (hr : r ++ t <:+ cs) : ∃ rest, s = c :: rest ∧ cs = rest ++ t := by
  cases s with
  | nil =>
    have hlength := hr.length_le
    rw [List.nil_append] at hw
    rw [hw, List.length_append, List.length_cons] at hlength
    omega
  | cons d rest =>
    obtain ⟨rfl, rfl⟩ := List.cons.inj hw
    exact ⟨rest, rfl, rfl⟩

theorem drop_of_append {k : Nat} {mid : List Char} (h : (s ++ t).drop k = mid ++ t)
    (hmid : mid ≠ []) : k < s.length ∧ s.drop k = mid := by
  have hlength := congrArg List.length h
  have hpos := List.length_pos_of_ne_nil hmid
  rw [List.length_drop, List.length_append, List.length_append] at hlength
  have hk : k < s.length := by omega
  rw [List.drop_append_of_le_length hk.le] at h
  exact ⟨hk, List.append_cancel_right h⟩

/-- A string that is closed in `s` is read without what follows. -/
theorem takeQuoted_closed {quote : Char} {text : List Char} (ht : t ≠ [])
    (h : takeQuoted quote (s ++ t) = (true, text, r ++ t)) :
    ∃ q, s = q ++ quote :: r ∧ ∀ u, takeQuoted quote (s ++ u) = (true, text, r ++ u) := by
  -- along the string: what is left ends with `t`, so whatever is taken belongs to `s`
  generalize hw : s ++ t = w at h
  induction w using takeQuoted.induct quote generalizing s text with
  | case1 => simp [ht] at hw
  | case2 c cs hc =>
    rw [takeQuoted, if_pos hc] at h
    obtain ⟨-, rfl, rfl⟩ : true = true ∧ [] = text ∧ cs = r ++ t := by simpa using h
    obtain ⟨s, rfl, hs⟩ := exists_cons_of_append_suffix hw (List.suffix_refl _)
    obtain rfl := List.append_cancel_right hs
    refine ⟨[], by rw [beq_iff_eq.1 hc]; rfl, fun u => ?_⟩
    rw [List.cons_append, takeQuoted, if_pos hc]
  | case3 c cs hc hline =>
    rw [takeQuoted, if_neg hc, if_pos hline] at h
    cases h
  | case4 c cs hc hline hslash hcs =>
    rw [takeQuoted, if_neg hc, if_neg hline, if_pos hslash, if_pos hcs] at h
    simp [ht] at h
  | case5 c cs hc hline hslash hcs hbreak ih =>
    rw [takeQuoted, if_neg hc, if_neg hline, if_pos hslash, if_neg hcs, if_pos hbreak] at h
    have hr := takeQuoted_suffix quote (cs.drop (blankLength cs))
    rw [h] at hr
    obtain ⟨s, rfl, rfl⟩ := exists_cons_of_append_suffix hw (hr.trans (List.drop_suffix _ cs))
    obtain ⟨mid, hmid, -⟩ := exists_of_append_suffix (List.drop_suffix _ _) hr
    obtain ⟨q, rfl, hread⟩ := ih hmid.symm h
    obtain ⟨hlt, hdrop⟩ := drop_of_append hmid (by simp)
    refine ⟨c :: (s.take (blankLength (s ++ t)) ++ q), ?_, fun u => ?_⟩
    · rw [List.cons_append, List.append_assoc, ← hdrop, List.take_append_drop]
    · have hne : s ≠ [] := List.ne_nil_of_length_pos (Nat.zero_lt_of_lt hlt)
      rw [startsLine_append_of_ne_nil hne] at hbreak
      rw [List.cons_append, takeQuoted, if_neg hc, if_neg hline, if_pos hslash,
        if_neg (by simp [hne]), startsLine_append_of_ne_nil hne, if_pos hbreak,
        blankLength_append_of_lt hlt u,
        List.drop_append_of_le_length hlt.le, hdrop, hread u]
  | case6 c cs hc hline hslash hcs hbreak whole text' rest _ ih =>
    rw [takeQuoted, if_neg hc, if_neg hline, if_pos hslash, if_neg hcs, if_neg hbreak] at h
    obtain ⟨hwhole, rfl, hrest⟩ : _ ∧ _ ∧ _ := by simpa using h
    have hr := takeQuoted_suffix quote (cs.drop (escape cs).2)
    rw [hrest] at hr
    obtain ⟨s, rfl, rfl⟩ := exists_cons_of_append_suffix hw (hr.trans (List.drop_suffix _ cs))
    obtain ⟨mid, hmid, -⟩ := exists_of_append_suffix (List.drop_suffix _ _) hr
    obtain ⟨q, rfl, hread⟩ := ih hmid.symm (Prod.ext hwhole (Prod.ext rfl hrest))
    obtain ⟨hlt, hdrop⟩ := drop_of_append hmid (by simp)
    refine ⟨c :: (s.take (escape (s ++ t)).2 ++ q), ?_, fun u => ?_⟩
    · rw [List.cons_append, List.append_assoc, ← hdrop, List.take_append_drop]
    · have hne : s ≠ [] := List.ne_nil_of_length_pos (Nat.zero_lt_of_lt hlt)
      rw [startsLine_append_of_ne_nil hne] at hbreak
      rw [List.cons_append, takeQuoted, if_neg hc, if_neg hline, if_pos hslash,
        if_neg (by simp [hne]), startsLine_append_of_ne_nil hne, if_neg hbreak,
        escape_append_of_lt hlt u,
        List.drop_append_of_le_length hlt.le, hdrop, hread u]
  | case7 c cs hc hline hslash whole text' rest _ ih =>
    rw [takeQuoted, if_neg hc, if_neg hline, if_neg hslash] at h
    obtain ⟨hwhole, rfl, hrest⟩ : _ ∧ _ ∧ _ := by simpa using h
    have hr := takeQuoted_suffix quote cs
    rw [hrest] at hr
    obtain ⟨s, rfl, rfl⟩ := exists_cons_of_append_suffix hw hr
    obtain ⟨q, rfl, hread⟩ := ih rfl (Prod.ext hwhole (Prod.ext rfl hrest))
    refine ⟨c :: q, rfl, fun u => ?_⟩
    rw [List.cons_append, takeQuoted, if_neg hc, if_neg hline, if_neg hslash, hread u]
    simp only [beq_iff_eq]

/-! ## Addresses -/

theorem takeUrlEnd_closed {text : List Char} (ht : t ≠ [])
    (h : takeUrlEnd (s ++ t) = .whole text (r ++ t)) :
    ∃ q, s = q ++ ')' :: r ∧ ∀ u, takeUrlEnd (s ++ u) = .whole text (r ++ u) := by
  generalize hw : s ++ t = w at h
  induction w using takeUrlEnd.induct generalizing s with
  | case1 => simp [ht] at hw
  | case2 c cs hc =>
    rw [takeUrlEnd, if_pos hc] at h
    obtain ⟨rfl, rfl⟩ : [] = text ∧ cs = r ++ t := by simpa using h
    obtain ⟨s, rfl, hs⟩ := exists_cons_of_append_suffix hw (List.suffix_refl _)
    obtain rfl := List.append_cancel_right hs
    refine ⟨[], by rw [beq_iff_eq.1 hc]; rfl, fun u => ?_⟩
    rw [List.cons_append, takeUrlEnd, if_pos hc]
  | case3 c cs hc hspace ih =>
    rw [takeUrlEnd, if_neg hc, if_pos hspace] at h
    have hr := takeUrlEnd_suffix cs
    rw [h] at hr
    obtain ⟨s, rfl, rfl⟩ := exists_cons_of_append_suffix hw hr
    obtain ⟨q, rfl, hread⟩ := ih rfl h
    refine ⟨c :: q, rfl, fun u => ?_⟩
    rw [List.cons_append, takeUrlEnd, if_neg hc, if_pos hspace, hread u]
  | case4 c cs hc hspace =>
    rw [takeUrlEnd, if_neg hc, if_neg hspace] at h
    cases h

/-- An address that is closed in `s` is read without what follows. -/
theorem takeUrl_closed {text : List Char} (ht : t ≠ [])
    (h : takeUrl (s ++ t) = .whole text (r ++ t)) :
    ∃ q, s = q ++ ')' :: r ∧ ∀ u, takeUrl (s ++ u) = .whole text (r ++ u) := by
  generalize hw : s ++ t = w at h
  induction w using takeUrl.induct generalizing s text with
  | case1 => simp [ht] at hw
  | case2 c cs hc =>
    rw [takeUrl, if_pos hc] at h
    obtain ⟨rfl, rfl⟩ : [] = text ∧ cs = r ++ t := by simpa using h
    obtain ⟨s, rfl, hs⟩ := exists_cons_of_append_suffix hw (List.suffix_refl _)
    obtain rfl := List.append_cancel_right hs
    refine ⟨[], by rw [beq_iff_eq.1 hc]; rfl, fun u => ?_⟩
    rw [List.cons_append, takeUrl, if_pos hc]
  | case3 c cs hc hspace =>
    rw [takeUrl, if_neg hc, if_pos hspace] at h
    have hr := takeUrlEnd_suffix cs
    rw [h] at hr
    obtain ⟨s, rfl, rfl⟩ := exists_cons_of_append_suffix hw hr
    obtain ⟨q, rfl, hread⟩ := takeUrlEnd_closed ht h
    refine ⟨c :: q, rfl, fun u => ?_⟩
    rw [List.cons_append, takeUrl, if_neg hc, if_pos hspace, hread u]
  | case4 c cs hc hspace hbad =>
    rw [takeUrl, if_neg hc, if_neg hspace, if_pos hbad] at h
    cases h
  | case5 c cs hc hspace hbad hslash hline =>
    rw [takeUrl, if_neg hc, if_neg hspace, if_neg hbad, if_pos hslash, if_pos hline] at h
    cases h
  | case6 c cs hc hspace hbad hslash hline ih =>
    rw [takeUrl, if_neg hc, if_neg hspace, if_neg hbad, if_pos hslash, if_neg hline] at h
    cases htake : takeUrl (cs.drop (escape cs).2) with
    | spoiled rest =>
      rw [htake] at h
      cases h
    | whole text' rest =>
      rw [htake] at h
      obtain ⟨rfl, rfl⟩ : (escape cs).1 :: text' = text ∧ rest = r ++ t := by simpa using h
      have hr := takeUrl_suffix (cs.drop (escape cs).2)
      rw [htake] at hr
      obtain ⟨s, rfl, rfl⟩ := exists_cons_of_append_suffix hw (hr.trans (List.drop_suffix _ cs))
      obtain ⟨mid, hmid, -⟩ := exists_of_append_suffix (List.drop_suffix _ _) hr
      obtain ⟨q, rfl, hread⟩ := ih hmid.symm htake
      obtain ⟨hlt, hdrop⟩ := drop_of_append hmid (by simp)
      refine ⟨c :: (s.take (escape (s ++ t)).2 ++ q), ?_, fun u => ?_⟩
      · rw [List.cons_append, List.append_assoc, ← hdrop, List.take_append_drop]
      · have hne : s ≠ [] := List.ne_nil_of_length_pos (Nat.zero_lt_of_lt hlt)
        rw [startsLine_append_of_ne_nil hne] at hline
        rw [List.cons_append, takeUrl, if_neg hc, if_neg hspace, if_neg hbad, if_pos hslash,
          startsLine_append_of_ne_nil hne, if_neg hline, escape_append_of_lt hlt u,
          List.drop_append_of_le_length hlt.le, hdrop, hread u]
  | case7 c cs hc hspace hbad hslash ih =>
    rw [takeUrl, if_neg hc, if_neg hspace, if_neg hbad, if_neg hslash] at h
    cases htake : takeUrl cs with
    | spoiled rest =>
      rw [htake] at h
      cases h
    | whole text' rest =>
      rw [htake] at h
      obtain ⟨rfl, rfl⟩ :
          (if c = '\x00' then replacement else c) :: text' = text ∧ rest = r ++ t := by
        simpa using h
      have hr := takeUrl_suffix cs
      rw [htake] at hr
      obtain ⟨s, rfl, rfl⟩ := exists_cons_of_append_suffix hw hr
      obtain ⟨q, rfl, hread⟩ := ih rfl htake
      refine ⟨c :: q, rfl, fun u => ?_⟩
      rw [List.cons_append, takeUrl, if_neg hc, if_neg hspace, if_neg hbad, if_neg hslash, hread u]
      simp only [beq_iff_eq]

theorem dropWhile_append_of_ne_nil {p : Char → Bool} {mid : List Char}
    (h : (s ++ t).dropWhile p = mid ++ t) (hmid : mid ≠ []) (u : List Char) :
    (s ++ u).dropWhile p = mid ++ u := by
  induction s with
  | nil =>
    have hlength := (List.dropWhile_suffix (l := t) p).length_le
    have hpos := List.length_pos_of_ne_nil hmid
    rw [List.nil_append] at h
    rw [h, List.length_append] at hlength
    omega
  | cons c s ih =>
    rw [List.cons_append, List.dropWhile_cons] at h ⊢
    split at h
    · next hc => rw [if_pos hc, ih h]
    · next hc =>
      rw [if_neg hc, ← List.cons_append]
      rw [← List.cons_append] at h
      rw [List.append_cancel_right h]

theorem urlToken?_eq_none_iff : urlToken? s = none ↔ opensQuoted s = true := by
  rw [urlToken?, opensQuoted]
  cases s.dropWhile Text.isSpace with
  | nil => simp
  | cons c cs =>
    by_cases hquote : (c == '"' || c == '\'') = true
    · simp [hquote]
    · rw [List.head?_cons, Option.any_some]
      dsimp only
      rw [if_neg hquote]
      by_cases hbracket : (c == ')') = true
      · simp [hbracket, hquote]
      · rw [if_neg hbracket]
        cases takeUrl (c :: cs) <;> simp [hquote]

/-- The token behind an opened address: either the address is closed in `s`, or a string
stands there. -/
theorem takeAddress_exchange {name : List Char} {token : Token}
    (ht : t.dropWhile Text.isSpace ≠ []) (h : opensQuoted t = true → opensQuoted u = true)
    (hbad : ∀ x, token ≠ .badUrl x) (hread : takeAddress name (s ++ t) = (token, t)) :
    takeAddress name (s ++ u) = (token, u) := by
  have hne : t ≠ [] := by
    rintro rfl
    exact ht rfl
  by_cases hquoted : opensQuoted (s ++ t) = true
  · rw [takeAddress, urlToken?_eq_none_iff.2 hquoted, Option.getD_none, Prod.mk.injEq] at hread
    obtain ⟨rfl, hs⟩ := hread
    obtain rfl := List.append_left_eq_self.1 hs
    have hu := h hquoted
    rw [List.nil_append, takeAddress, urlToken?_eq_none_iff.2 hu, Option.getD_none]
  rw [takeAddress, urlToken?] at hread
  have hsuffix := List.dropWhile_suffix (l := s ++ t) Text.isSpace
  cases hdrop : (s ++ t).dropWhile Text.isSpace with
  | nil =>
    rw [List.dropWhile_eq_nil_iff] at hdrop
    exact absurd (List.dropWhile_eq_nil_iff.2 fun c hc => hdrop c (List.mem_append_right s hc)) ht
  | cons c cs =>
    rw [hdrop] at hread hsuffix
    rw [opensQuoted, hdrop, List.head?_cons, Option.any_some] at hquoted
    dsimp only at hread
    rw [if_neg hquoted] at hread
    by_cases hbracket : (c == ')') = true
    · rw [if_pos hbracket, Option.getD_some, Prod.mk.injEq] at hread
      obtain ⟨rfl, rfl⟩ := hread
      have hu : (s ++ u).dropWhile Text.isSpace = [c] ++ u :=
        dropWhile_append_of_ne_nil hdrop (by simp) u
      rw [takeAddress, urlToken?, hu]
      simp [hquoted, hbracket]
    rw [if_neg hbracket] at hread
    cases htake : takeUrl (c :: cs) with
    | spoiled after =>
      rw [htake] at hread
      exact absurd (Prod.mk.inj hread).1.symm (hbad _)
    | whole text rest =>
      rw [htake, Option.getD_some, Prod.mk.injEq] at hread
      obtain ⟨rfl, rfl⟩ := hread
      have hrest := takeUrl_suffix (c :: cs)
      rw [htake] at hrest
      obtain ⟨mid, hmid, -⟩ := exists_of_append_suffix (r := []) hsuffix hrest
      rw [hmid] at htake hdrop
      obtain ⟨q, hq, hclosed⟩ := takeUrl_closed (r := []) hne htake
      have hu := dropWhile_append_of_ne_nil hdrop (by simp [hq]) u
      cases mid with
      | nil => simp at hq
      | cons d mid =>
        obtain ⟨rfl, -⟩ := List.cons.inj hmid
        rw [takeAddress, urlToken?, hu]
        have hclosed := hclosed u
        rw [List.cons_append] at hclosed
        simp [hquoted, hbracket, hclosed]

/-! ## How tokens begin -/

/-- The characters that are tokens of their own wherever they begin one. -/
def singles : List Char :=
  ['(', '[', '\x7b', ')', ']', '\x7d', ':', ';', ',']

namespace Token

/-- What tells tokens apart by the way they begin. -/
inductive Kind
  | blank
  | comment
  | string
  /-- A bracket, a colon, a semicolon or a comma. -/
  | mark
  /-- An identifier, or a name with a bracket. -/
  | named
  | other
deriving DecidableEq

def kind : Token → Kind
  | .blank _ => .blank
  | .comment _ => .comment
  | .quoted _ | .badQuoted _ => .string
  | .opening _ | .closing _ | .colon | .semicolon | .comma => .mark
  | .ident _ | .function _ | .url _ | .badUrl _ => .named
  | _ => .other

/-- Neither a blank nor a comment. -/
def isSpacing (token : Token) : Bool :=
  token.isBlank || token.isComment

/-- A name with an opening bracket, or with all that its brackets hold. -/
def isBracketed : Token → Bool
  | function _ | url _ => true
  | _ => false

end Token

theorem kind_takeAddress (name s : List Char) : (takeAddress name s).1.kind = .named := by
  rw [takeAddress, urlToken?]
  cases s.dropWhile Text.isSpace with
  | nil => rfl
  | cons c cs =>
    dsimp only
    split
    · rfl
    · split
      · rfl
      · cases takeUrl (c :: cs) <;> rfl

theorem kind_afterName (name s : List Char) : (afterName name s).1.kind = .named := by
  unfold afterName
  split
  · split
    · exact kind_takeAddress _ _
    · rfl
  · rfl

theorem kind_takeIdentLike (s : List Char) : (takeIdentLike s).1.kind = .named :=
  kind_afterName _ _

theorem kind_takeUnit (n : Numeral) (s : List Char) : (takeUnit n s).1.kind = .other := by
  unfold takeUnit
  split
  · rfl
  · split <;> rfl

theorem kind_signOr (c : Char) (sign : MatchSign) (s : List Char) :
    (signOr c sign s).1.kind = .other ∧ (signOr c sign s).2 <:+ s := by
  unfold signOr
  split
  · exact ⟨rfl, List.suffix_cons _ _⟩
  · exact ⟨rfl, List.suffix_refl _⟩

theorem suffix_of_after? {mark rest : List Char} (h : Text.after? mark s = some rest) :
    rest <:+ s := by
  rw [Text.after?] at h
  split at h
  · cases h
    exact List.drop_suffix _ s
  · cases h

theorem start_space (h : Text.isSpace c = true) (cs : List Char) :
    start c cs = (.blank (String.ofList (c :: cs.takeWhile Text.isSpace)),
      cs.dropWhile Text.isSpace) := by
  simp only [start, h, if_true]

theorem start_quote (h : (c == '"' || c == '\'') = true) (cs : List Char) :
    start c cs = ((if (takeQuoted c cs).1 then Token.quoted else Token.badQuoted)
      (String.ofList (takeQuoted c cs).2.1), (takeQuoted c cs).2.2) := by
  have hspace : Text.isSpace c = false := by
    rw [Bool.or_eq_true, beq_iff_eq, beq_iff_eq] at h
    rcases h with rfl | rfl <;> decide
  simp only [start, hspace, h, if_true, if_false, Bool.false_eq_true]

theorem start_number (h : startsNumber (c :: cs) = true) : start c cs = takeNumeric (c :: cs) := by
  have hne {d : Char} (hd : startsNumber (d :: cs) = false) : c ≠ d := by
    rintro rfl
    rw [h] at hd
    cases hd
  have hspace : Text.isSpace c = false := by
    rw [Bool.eq_false_iff]
    intro hspace
    simp only [Text.isSpace, Text.isMarkupBlank, Bool.or_eq_true, beq_iff_eq, or_assoc] at hspace
    rcases hspace with rfl | rfl | rfl | rfl | rfl <;> exact hne rfl rfl
  have hquote : (c == '"' || c == '\'') = false := by
    simp [hne (d := '"') rfl, hne (d := '\'') rfl]
  simp only [start, hspace, hquote, h, if_true, if_false, Bool.false_eq_true]

theorem start_comment (cs : List Char) :
    start '/' ('*' :: cs) = (.comment (String.ofList (takeComment cs).1), (takeComment cs).2) :=
  rfl

/-- Where a name is read that may be followed by a bracket. -/
structure StartsName (c : Char) (cs : List Char) : Prop where
  ident : startsIdent (c :: cs) = true
  number : startsNumber (c :: cs) = false
  arrow : c = '-' → Text.after? "->".toList cs = none

theorem start_hyphen (h : startsNumber ('-' :: s) = false) :
    start '-' s = match Text.after? "->".toList s with
      | some rest => (Token.commentClose, rest)
      | none => if startsIdent ('-' :: s) then takeIdentLike ('-' :: s) else (.delim '-', s) := by
  simp only [start, h, if_false, Bool.false_eq_true]
  rfl

theorem StartsName.start_eq (h : StartsName c cs) : start c cs = takeIdentLike (c :: cs) := by
  have hident := h.ident
  rw [startsIdent_cons] at hident
  by_cases hhyphen : c = '-'
  · subst hhyphen
    rw [start_hyphen h.number, h.arrow rfl]
    exact if_pos h.ident
  have hstart : (isNameStart c || c == '\\') = true := by
    by_cases hslash : c = '\\'
    · simp [hslash]
    · rw [if_neg hhyphen, if_neg hslash] at hident
      rw [hident, Bool.true_or]
  let others := [' ', '\t', '\n', '\r', '\x0c', '"', '\'', '#', '@', '~', '|', '^', '$', '*',
    '(', '[', '\x7b', ')', ']', '\x7d', ':', ';', ',', '<', '/']
  have hnone : (others.any fun d => isNameStart d || d == '\\') = false := by decide
  have hothers : ∀ d ∈ others, c ≠ d := by
    rintro d hd rfl
    exact List.any_eq_false.1 hnone c hd hstart
  simp only [others, List.mem_cons, List.not_mem_nil, or_false, forall_eq_or_imp, forall_eq]
    at hothers
  simp [start, Text.isSpace, Text.isMarkupBlank, h.number, h.ident, hothers]

theorem exists_cons_of_comment (h : (c == '/' && cs.head?.any (· == '*')) = true) :
    c = '/' ∧ ∃ rest, cs = '*' :: rest := by
  rw [Bool.and_eq_true, beq_iff_eq] at h
  obtain ⟨rfl, h⟩ := h
  cases cs with
  | nil => cases h
  | cons d cs =>
    rw [List.head?_cons, Option.any_some, beq_iff_eq] at h
    exact ⟨rfl, cs, by rw [h]⟩

/-- The ways in which tokens of each kind begin. -/
inductive Opening (c : Char) (cs : List Char) : Token.Kind → Prop
  | blank (h : Text.isSpace c = true) : Opening c cs .blank
  | comment (hc : c = '/') {rest : List Char} (hcs : cs = '*' :: rest) : Opening c cs .comment
  | string (h : (c == '"' || c == '\'') = true) : Opening c cs .string
  | mark (h : c ∈ singles) : Opening c cs .mark
  | named (h : StartsName c cs) : Opening c cs .named
  | other (h : (start c cs).2 <:+ cs) : Opening c cs .other

theorem Opening.of_other {kind : Token.Kind} (hkind : kind = .other)
    (h : (start c cs).2 <:+ cs) : Opening c cs kind :=
  hkind ▸ .other h

theorem kind_start_hash (cs : List Char) :
    (start '#' cs).1.kind = .other ∧ (start '#' cs).2 <:+ cs := by
  rw [start_hash]
  split
  · exact ⟨rfl, takeName_suffix cs⟩
  · split
    · exact ⟨rfl, takeName_suffix cs⟩
    · exact ⟨rfl, List.suffix_refl cs⟩

theorem kind_start_at (cs : List Char) :
    (start '@' cs).1.kind = .other ∧ (start '@' cs).2 <:+ cs := by
  rw [start_at]
  split
  · exact ⟨rfl, takeName_suffix cs⟩
  · exact ⟨rfl, List.suffix_refl cs⟩

theorem kind_start_less (cs : List Char) :
    (start '<' cs).1.kind = .other ∧ (start '<' cs).2 <:+ cs := by
  have hstart : start '<' cs = match Text.after? "!--".toList cs with
      | some rest => (Token.commentOpen, rest)
      | none => (.delim '<', cs) := rfl
  rw [hstart]
  split
  · next rest hafter => exact ⟨rfl, suffix_of_after? hafter⟩
  · exact ⟨rfl, List.suffix_refl cs⟩

theorem kind_start_single (h : c ∈ singles) (cs : List Char) :
    (start c cs).1.kind = .mark := by
  simp only [singles, List.mem_cons, List.not_mem_nil, or_false] at h
  rcases h with rfl | rfl | rfl | rfl | rfl | rfl | rfl | rfl | rfl <;> rfl

theorem opening_start (c : Char) (cs : List Char) : Opening c cs (start c cs).1.kind := by
  -- in the order in which the reader looks at the first character
  by_cases hspace : Text.isSpace c = true
  · rw [start_space hspace]
    exact .blank hspace
  by_cases hquote : (c == '"' || c == '\'') = true
  · rw [start_quote hquote]
    split <;> exact .string hquote
  by_cases hnumber : startsNumber (c :: cs) = true
  · have hstart := start_number hnumber
    refine .of_other ?_ (hstart ▸ takeNumeric_suffix_of_startsNumber hnumber)
    rw [hstart, takeNumeric_eq]
    exact kind_takeUnit _ _
  by_cases hsingle : c ∈ singles
  · rw [kind_start_single hsingle]
    exact .mark hsingle
  by_cases hsign : c ∈ ['~', '|', '^', '$', '*']
  · obtain ⟨sign, heq⟩ := exists_start_sign hsign
    obtain ⟨hkind, hsuffix⟩ := kind_signOr c sign cs
    rw [← heq] at hkind hsuffix
    exact .of_other hkind hsuffix
  by_cases hhash : c = '#'
  · subst hhash
    exact .of_other (kind_start_hash cs).1 (kind_start_hash cs).2
  by_cases hat : c = '@'
  · subst hat
    exact .of_other (kind_start_at cs).1 (kind_start_at cs).2
  by_cases hless : c = '<'
  · subst hless
    exact .of_other (kind_start_less cs).1 (kind_start_less cs).2
  by_cases hcomment : (c == '/' && cs.head?.any (· == '*')) = true
  · obtain ⟨rfl, rest, rfl⟩ := exists_cons_of_comment hcomment
    exact .comment rfl rfl
  by_cases hslash : c = '/'
  · subst hslash
    have hstart := start_slash cs
    rw [if_neg (by simpa using hcomment)] at hstart
    rw [hstart]
    exact .of_other rfl (hstart ▸ List.suffix_refl cs)
  by_cases hclose : c = '-' ∧ ∃ rest, Text.after? "->".toList cs = some rest
  · obtain ⟨rfl, rest, hafter⟩ := hclose
    have hstart := start_hyphen (Bool.eq_false_iff.2 hnumber)
    rw [hafter] at hstart
    rw [hstart]
    exact .of_other rfl (hstart ▸ suffix_of_after? hafter)
  have harrow (hc : c = '-') : Text.after? "->".toList cs = none :=
    Option.eq_none_iff_forall_ne_some.2 fun rest hafter => hclose ⟨hc, rest, hafter⟩
  by_cases hident : startsIdent (c :: cs) = true
  · have hname : StartsName c cs := ⟨hident, Bool.eq_false_iff.2 hnumber, harrow⟩
    rw [hname.start_eq, kind_takeIdentLike]
    exact .named hname
  · have hstart : start c cs = (.delim c, cs) := by
      by_cases hhyphen : c = '-'
      · subst hhyphen
        rw [start_hyphen (Bool.eq_false_iff.2 hnumber), harrow rfl]
        exact if_neg hident
      · simp only [singles, List.mem_cons, List.not_mem_nil, or_false, not_or] at hsingle hsign
        simp [start, hspace, hquote, hnumber, hsingle, hsign, hident]
    rw [hstart]
    exact .of_other rfl (hstart ▸ List.suffix_refl cs)

theorem start_suffix (c : Char) (cs : List Char) : (start c cs).2 <:+ cs := by
  have hopening := opening_start c cs
  generalize (start c cs).1.kind = kind at hopening
  cases hopening with
  | blank h =>
    rw [start_space h]
    exact List.dropWhile_suffix _
  | comment hc hcs =>
    rw [hc, hcs]
    exact (takeComment_suffix _).trans (List.suffix_cons '*' _)
  | string h =>
    rw [start_quote h]
    exact takeQuoted_suffix c cs
  | mark h =>
    obtain ⟨token, htoken⟩ := exists_start_single h
    rw [htoken]
  | named h =>
    rw [h.start_eq]
    exact takeIdentLike_suffix_of_startsIdent h.ident
  | other h => exact h

theorem isSpace_of_start (h : (start c cs).1.isBlank = true) : Text.isSpace c = true := by
  have hopening := opening_start c cs
  generalize (start c cs).1 = token at h hopening
  cases token with
  | blank => cases hopening with | blank hc => exact hc
  | _ => cases h

theorem exists_comment_of_start (h : (start c cs).1.isComment = true) :
    c = '/' ∧ ∃ rest, cs = '*' :: rest := by
  have hopening := opening_start c cs
  generalize (start c cs).1 = token at h hopening
  cases token with
  | comment => cases hopening with | comment hc hcs => exact ⟨hc, _, hcs⟩
  | _ => cases h

theorem isQuote_of_start {text : String} (h : (start c cs).1 = .quoted text) :
    (c == '"' || c == '\'') = true := by
  have hopening := opening_start c cs
  rw [h] at hopening
  cases hopening with | string hc => exact hc

theorem eq_semicolon_of_start (h : (start c cs).1 = .semicolon) : c = ';' := by
  have hopening := opening_start c cs
  rw [h] at hopening
  cases hopening with
  | mark hc =>
    simp only [singles, List.mem_cons, List.not_mem_nil, or_false] at hc
    rcases hc with rfl | rfl | rfl | rfl | rfl | rfl | rfl | rfl | rfl <;> first | rfl | cases h

theorem startsName_of_isBracketed (h : (start c cs).1.isBracketed = true) : StartsName c cs := by
  have hopening := opening_start c cs
  generalize (start c cs).1 = token at h hopening
  cases token with
  | function => cases hopening with | named hname => exact hname
  | url => cases hopening with | named hname => exact hname
  | _ => cases h

/-! ## Names with brackets -/

theorem after?_arrow_eq_some {rest : List Char} :
    Text.after? "->".toList s = some rest ↔ s = '-' :: '>' :: rest := by
  constructor
  · intro h
    rcases s with - | ⟨c, - | ⟨d, s⟩⟩
    · cases h
    · simp [Text.after?] at h
    · simp [Text.after?] at h
      obtain ⟨⟨rfl, rfl⟩, rfl⟩ := h
      rfl
  · rintro rfl
    exact Text.after?_append "->".toList rest

theorem StopsLike.after?_arrow (h : StopsLike t u) (ht : Text.after? "->".toList t = none) :
    Text.after? "->".toList u = none := by
  rw [Option.eq_none_iff_forall_ne_some]
  intro rest hsome
  rw [after?_arrow_eq_some.1 hsome] at h
  obtain ⟨t', rfl, hsecond⟩ := h.of_cons (by decide)
  obtain ⟨t'', rfl, -⟩ := (hsecond (by decide) (by decide)).of_cons (by decide)
  rw [after?_arrow_eq_some.2 rfl] at ht
  cases ht

/-- Both texts have the same characters up to a bracket. -/
theorem StopsLike.of_bracket (s t u : List Char) : StopsLike (s ++ '(' :: t) (s ++ '(' :: u) := by
  induction s with
  | nil => exact .opens t u
  | cons c s ih =>
    by_cases hc : c = '\\'
    · subst hc
      cases s with
      | nil => exact .escapes '(' t u
      | cons d s => exact .escapes d _ _
    · exact .same hc ih

/-- A name that ends at a bracket does so whatever follows the bracket. -/
theorem takeName_bracket {name : List Char} (h : takeName (s ++ t) = (name, '(' :: r ++ t))
    (u : List Char) : takeName (s ++ u) = (name, '(' :: r ++ u) := by
  generalize hw : s ++ t = w at h
  induction w using takeName.induct generalizing s name with
  | case1 =>
    rw [takeName] at h
    cases h
  | case2 c cs hc _ _ _ ih =>
    rw [takeName, if_pos hc] at h
    obtain ⟨rfl, hrest⟩ := Prod.mk.inj h
    have hr := takeName_suffix cs
    rw [hrest] at hr
    obtain ⟨s, rfl, rfl⟩ := exists_cons_of_append_suffix hw hr
    rw [List.cons_append, takeName, if_pos hc, ih rfl (Prod.ext rfl hrest)]
  | case3 c cs hc hnull _ _ _ ih =>
    rw [takeName, if_neg hc, if_pos hnull] at h
    obtain ⟨rfl, hrest⟩ := Prod.mk.inj h
    have hr := takeName_suffix cs
    rw [hrest] at hr
    obtain ⟨s, rfl, rfl⟩ := exists_cons_of_append_suffix hw hr
    rw [List.cons_append, takeName, if_neg hc, if_pos hnull, ih rfl (Prod.ext rfl hrest)]
  | case4 c cs hc hnull hslash _ _ _ ih =>
    rw [takeName, if_neg hc, if_neg hnull, if_pos hslash] at h
    obtain ⟨rfl, hrest⟩ := Prod.mk.inj h
    have hr := takeName_suffix (cs.drop (escape cs).2)
    rw [hrest] at hr
    obtain ⟨s, rfl, rfl⟩ := exists_cons_of_append_suffix hw (hr.trans (List.drop_suffix _ cs))
    obtain ⟨mid, hmid, -⟩ := exists_of_append_suffix (List.drop_suffix _ _) hr
    have hne : mid ≠ [] := by
      rintro rfl
      rw [hmid] at hr
      exact List.cons_ne_nil _ _ (eq_nil_of_append_suffix hr)
    obtain ⟨hlt, hdrop⟩ := drop_of_append hmid hne
    have hs : s ≠ [] := List.ne_nil_of_length_pos (Nat.zero_lt_of_lt hlt)
    rw [startsLine_append_of_ne_nil hs] at hslash
    rw [List.cons_append, takeName, if_neg hc, if_neg hnull, startsLine_append_of_ne_nil hs,
      if_pos hslash, escape_append_of_lt hlt u, List.drop_append_of_le_length hlt.le, hdrop,
      ih hmid.symm (Prod.ext rfl hrest)]
  | case5 c cs hc hnull hslash =>
    rw [takeName, if_neg hc, if_neg hnull, if_neg hslash] at h
    obtain ⟨rfl, hrest⟩ := Prod.mk.inj h
    rw [← hw] at hrest
    rw [List.append_cancel_right hrest]
    exact takeName_of_not_continues rfl

/-- A function or an address is read whatever follows its brackets. -/
theorem start_bracketed_exchange {token : Token} (hbracketed : token.isBracketed = true)
    (ht : t.dropWhile Text.isSpace ≠ []) (h : opensQuoted t = true → opensQuoted u = true)
    (hread : start c (s ++ t) = (token, t)) : start c (s ++ u) = (token, u) ∧ '(' ∈ c :: s := by
  have hbad : ∀ x, token ≠ .badUrl x := by
    rintro x rfl
    cases hbracketed
  have hname : StartsName c (s ++ t) := startsName_of_isBracketed (by rw [hread]; exact hbracketed)
  rw [hname.start_eq] at hread
  change afterName (takeName (c :: (s ++ t))).1 (takeName (c :: (s ++ t))).2 = _ at hread
  generalize htake : takeName (c :: (s ++ t)) = x at hread
  obtain ⟨name, rest⟩ := x
  -- the name ends at its bracket, which stands in `s`
  obtain ⟨m, rfl⟩ : ∃ m, rest = '(' :: (m ++ t) := by
    dsimp only at hread
    unfold afterName at hread
    split at hread
    · next rest =>
      obtain ⟨m, rfl⟩ : t <:+ rest := by
        split at hread
        · have hsuffix := takeAddress_suffix name rest
          rwa [hread] at hsuffix
        · rw [(Prod.mk.inj hread).2]
      exact ⟨m, rfl⟩
    · obtain ⟨rfl, -⟩ := Prod.mk.inj hread
      cases hbracketed
  obtain ⟨front, hfront⟩ : ∃ front, c :: s = front ++ '(' :: m := by
    obtain ⟨front, hfront⟩ := takeName_suffix (c :: (s ++ t))
    rw [htake] at hfront
    have hwhole : c :: s ++ t = front ++ '(' :: m ++ t := by simpa using hfront.symm
    exact ⟨front, List.append_cancel_right hwhole⟩
  have hsplit (t : List Char) : c :: (s ++ t) = front ++ '(' :: (m ++ t) := by
    rw [← List.cons_append, hfront, List.append_assoc, List.cons_append]
  have hlike : StopsLike (c :: (s ++ t)) (c :: (s ++ u)) := by
    rw [hsplit, hsplit]
    exact .of_bracket front _ _
  have hlike' : StopsLike (c :: (s ++ u)) (c :: (s ++ t)) := by
    rw [hsplit, hsplit]
    exact .of_bracket front _ _
  have hname' : StartsName c (s ++ u) := by
    refine ⟨hlike'.startsIdent hname.ident, ?_, ?_⟩
    · exact Bool.eq_false_iff.2 fun hu =>
        Bool.eq_false_iff.1 hname.number (hlike.startsNumber hu)
    · rintro rfl
      obtain ⟨rest, heq, hrest⟩ := hlike.of_cons (by decide)
      obtain rfl := (List.cons.inj heq).2
      exact (hrest (by decide) (by decide)).after?_arrow (hname.arrow rfl)
  refine ⟨?_, by rw [hfront]; simp⟩
  rw [hname'.start_eq]
  change afterName (takeName (c :: s ++ u)).1 (takeName (c :: s ++ u)).2 = _
  rw [takeName_bracket (s := c :: s) htake u]
  change afterName name ('(' :: (m ++ u)) = _
  rw [afterName] at hread ⊢
  split at hread
  · next hurl =>
    rw [if_pos hurl]
    exact takeAddress_exchange ht h hbad hread
  · next hurl =>
    rw [if_neg hurl]
    obtain ⟨rfl, hm⟩ := Prod.mk.inj hread
    rw [List.append_left_eq_self.1 hm]
    rfl

end

end Css
end SvgCompact
