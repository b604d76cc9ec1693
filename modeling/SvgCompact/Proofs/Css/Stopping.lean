import SvgCompact.Proofs.Css.Enclosed
import SvgCompact.Proofs.Css.Gluing
import SvgCompact.Proofs.Text.Trimming

/-!
A token depends on the text behind it only as far as readers look ahead.

A token that was read in front of a text is read in front of any other that shows no more of
it: `start_exchange`.
-/

namespace SvgCompact
namespace Css

section

variable {s t u r : List Char}

/-! ## Tokens -/

theorem afterName_of_not {name : List Char} (h : s.head?.any (· == '(') = false) :
    afterName name s = (.ident (String.ofList name), s) := by
  unfold afterName
  split
  · cases h
  · rfl

theorem afterName_exchange {name : List Char} {token : Token}
    (ht : t.dropWhile Text.isSpace ≠ []) (h : StopsLike t u) (hbad : ∀ x, token ≠ .badUrl x)
    (hread : afterName name (s ++ t) = (token, t)) : afterName name (s ++ u) = (token, u) := by
  cases s with
  | nil =>
    rw [List.nil_append] at hread ⊢
    have hbracket : t.head?.any (· == '(') = false := by
      cases t with
      | nil => rfl
      | cons c t =>
        rw [List.head?_cons, Option.any_some, beq_eq_false_iff_ne]
        rintro rfl
        have hlength := congrArg (List.length ∘ Prod.snd) hread
        have haddress := (takeAddress_suffix name t).length_le
        simp only [afterName, Function.comp_apply] at hlength
        split at hlength <;> simp only [List.length_cons] at hlength <;> omega
    rw [afterName_of_not hbracket] at hread
    cases hread
    exact afterName_of_not (head?_any_eq_false (by decide) h hbracket)
  | cons c s =>
    by_cases hbracket : c = '('
    · subst hbracket
      rw [List.cons_append, afterName] at hread ⊢
      split at hread
      · next hurl =>
        rw [if_pos hurl]
        exact takeAddress_exchange ht h.opensQuoted hbad hread
      · next hurl =>
        rw [if_neg hurl]
        obtain ⟨rfl, hq⟩ := Prod.mk.inj hread
        obtain rfl := List.append_left_eq_self.1 hq
        rfl
    · rw [afterName_of_not (by simpa using hbracket)] at hread
      exact absurd (List.append_left_eq_self.1 (Prod.mk.inj hread).2) (List.cons_ne_nil c s)

theorem takeIdentLike_exchange {token : Token} (hs : IsFirm s)
    (ht : t.dropWhile Text.isSpace ≠ []) (h : StopsLike t u) (hbad : ∀ x, token ≠ .badUrl x)
    (hread : takeIdentLike (s ++ t) = (token, t)) : takeIdentLike (s ++ u) = (token, u) := by
  change afterName (takeName (s ++ t)).1 (takeName (s ++ t)).2 = _ at hread
  change afterName (takeName (s ++ u)).1 (takeName (s ++ u)).2 = _
  have hrest := afterName_suffix (takeName (s ++ t)).1 (takeName (s ++ t)).2
  rw [hread] at hrest
  obtain ⟨q, hq, -⟩ := exists_of_append_suffix (r := []) (takeName_suffix (s ++ t)) hrest
  rw [takeName_stays hs h _ q (Prod.ext rfl hq)]
  rw [hq] at hread
  exact afterName_exchange ht h hbad hread

/-- The operator of an attribute test, or its first character. -/
theorem signOr_exchange {c : Char} {sign : MatchSign} {token : Token} (h : StopsLike t u)
    (hread : signOr c sign (s ++ t) = (token, t)) : signOr c sign (s ++ u) = (token, u) := by
  have hnot : ∀ {s : List Char}, s.head?.any (· == '=') = false →
      signOr c sign s = (.delim c, s) := by
    intro s hs
    unfold signOr
    split
    · cases hs
    · rfl
  cases s with
  | nil =>
    rw [List.nil_append] at hread ⊢
    have hequals : t.head?.any (· == '=') = false := by
      cases t with
      | nil => rfl
      | cons d t =>
        rw [List.head?_cons, Option.any_some, beq_eq_false_iff_ne]
        rintro rfl
        have hlength := congrArg (List.length ∘ Prod.snd) hread
        simp [signOr] at hlength
    rw [hnot hequals] at hread
    cases hread
    exact hnot (head?_any_eq_false (by decide) h hequals)
  | cons d s =>
    by_cases hequals : d = '='
    · subst hequals
      obtain ⟨rfl, hs⟩ := Prod.mk.inj hread
      obtain rfl := List.append_left_eq_self.1 hs
      rfl
    · rw [hnot (by simpa using hequals)] at hread
      exact absurd (List.append_left_eq_self.1 (Prod.mk.inj hread).2) (List.cons_ne_nil d s)

/-- A sign in front of a name that need not be an identifier. -/
theorem start_hash_exchange {token : Token} (hs : IsFirm s) (h : StopsLike t u)
    (hread : start '#' (s ++ t) = (token, t)) : start '#' (s ++ u) = (token, u) := by
  rw [start_hash] at hread ⊢
  have hident := startsIdent_exchange hs h fun hident => by
    rw [if_pos hident] at hread
    exact ⟨[], (Prod.mk.inj hread).2⟩
  rw [hident]
  split at hread
  · next hstart =>
    obtain ⟨rfl, hr⟩ := Prod.mk.inj hread
    rw [if_pos hstart, takeName_stays hs h _ [] (Prod.ext rfl hr)]
    rfl
  next hstart =>
  rw [if_neg hstart]
  split at hread
  · next hdigit =>
    obtain ⟨rfl, hr⟩ := Prod.mk.inj hread
    cases s with
    | nil =>
      -- a digit or a hyphen would belong to the name
      have hstop := not_continues_of_takeName (r := []) hr
      cases t with
      | nil => cases hdigit
      | cons d t =>
        have hname : isNameChar d = true := by
          rw [List.nil_append, List.head?_cons, Option.any_some, Bool.or_eq_true] at hdigit
          rcases hdigit with hdigit | hdigit
          · simp [isNameChar, Char.isAlphanum, hdigit]
          · simp [isNameChar, hdigit]
        have hcontinues : continuesName (d :: t) = true := by
          rw [continuesName, hname]
          rfl
        exact absurd hcontinues (Bool.eq_false_iff.1 hstop)
    | cons d s =>
      have hdigit : ((d :: s ++ u).head?.any fun d => d.isDigit || d == '-') = true := hdigit
      rw [if_pos hdigit, takeName_stays hs h _ [] (Prod.ext rfl hr)]
      rfl
  · next hdigit =>
    obtain ⟨rfl, hr⟩ := Prod.mk.inj hread
    obtain rfl := List.append_left_eq_self.1 hr
    rw [if_neg]
    · rfl
    · exact Bool.eq_false_iff.1
        (head?_any_eq_false (by decide) h (Bool.eq_false_iff.2 hdigit))

theorem start_at_exchange {token : Token} (hs : IsFirm s) (h : StopsLike t u)
    (hread : start '@' (s ++ t) = (token, t)) : start '@' (s ++ u) = (token, u) := by
  have hident := startsIdent_exchange hs h fun hident => by
    rw [start_at, if_pos hident] at hread
    exact ⟨[], (Prod.mk.inj hread).2⟩
  rw [start_at] at hread ⊢
  rw [hident]
  split at hread
  · next hstart =>
    obtain ⟨rfl, hr⟩ := Prod.mk.inj hread
    rw [if_pos hstart, takeName_stays hs h _ [] (Prod.ext rfl hr)]
    rfl
  · next hstart =>
    obtain ⟨rfl, hr⟩ := Prod.mk.inj hread
    obtain rfl := List.append_left_eq_self.1 hr
    rw [if_neg hstart]
    rfl

theorem identOr_exchange {c : Char} {token : Token} (hs : IsFirm (c :: s))
    (ht : t.dropWhile Text.isSpace ≠ []) (h : StopsLike t u) (hbad : ∀ x, token ≠ .badUrl x)
    (hread : (if startsIdent (c :: (s ++ t)) then takeIdentLike (c :: (s ++ t))
      else (.delim c, s ++ t)) = (token, t)) :
    (if startsIdent (c :: (s ++ u)) then takeIdentLike (c :: (s ++ u)) else (.delim c, s ++ u)) =
      (token, u) := by
  have hident := startsIdent_exchange hs h fun hident => by
    rw [List.cons_append] at hident ⊢
    rw [if_pos hident] at hread
    have hrest := afterName_suffix (takeName (c :: (s ++ t))).1 (takeName (c :: (s ++ t))).2
    change (takeIdentLike (c :: (s ++ t))).2 <:+ _ at hrest
    rw [hread] at hrest
    obtain ⟨q, hq, -⟩ := exists_of_append_suffix (r := []) (s := c :: s)
      (takeName_suffix (c :: (s ++ t))) hrest
    exact ⟨q, hq⟩
  rw [List.cons_append, List.cons_append] at hident
  rw [hident]
  split at hread
  · next hstart =>
    rw [if_pos hstart]
    exact takeIdentLike_exchange hs ht h hbad hread
  · next hstart =>
    rw [if_neg hstart]
    obtain ⟨rfl, hr⟩ := Prod.mk.inj hread
    obtain rfl := List.append_left_eq_self.1 hr
    rfl

theorem start_slash_exchange {token : Token} (h : StopsLike t u)
    (hcomment : token.isComment = false) (hread : start '/' (s ++ t) = (token, t)) :
    start '/' (s ++ u) = (token, u) := by
  rw [start_slash] at hread ⊢
  split at hread
  · obtain ⟨rfl, -⟩ := Prod.mk.inj hread
    cases hcomment
  · next hstar =>
    obtain ⟨rfl, hr⟩ := Prod.mk.inj hread
    obtain rfl := List.append_left_eq_self.1 hr
    rw [if_neg]
    · rfl
    · exact Bool.eq_false_iff.1
        (head?_any_eq_false (by decide) h (Bool.eq_false_iff.2 hstar))

theorem start_hyphen_exchange {token : Token} (hs : IsFirm ('-' :: s))
    (ht : t.dropWhile Text.isSpace ≠ []) (h : StopsLike t u) (hbad : ∀ x, token ≠ .badUrl x)
    (hnumber : startsNumber ('-' :: (s ++ t)) = false)
    (hnumber' : startsNumber ('-' :: (s ++ u)) = false)
    (hread : start '-' (s ++ t) = (token, t)) : start '-' (s ++ u) = (token, u) := by
  rw [start_hyphen hnumber] at hread
  rw [start_hyphen hnumber']
  cases hafter : Text.after? "->".toList (s ++ t) with
  | some rest =>
    rw [hafter] at hread
    obtain ⟨rfl, rfl⟩ := Prod.mk.inj hread
    obtain rfl : s = ['-', '>'] := List.append_cancel_right (after?_arrow_eq_some.1 hafter)
    have hu := after?_arrow_eq_some.2 (Eq.refl ('-' :: '>' :: u))
    rw [List.cons_append, List.cons_append, List.nil_append, hu]
  | none =>
    have hnone := (h.append hs.tail.getLast?_ne).after?_arrow hafter
    rw [hafter] at hread
    rw [hnone]
    exact identOr_exchange hs ht h hbad hread

/-- A token that is no string and no comment, from its first character. -/
theorem start_exchange {c : Char} {token : Token} (hs : IsFirm (c :: s))
    (ht : t.dropWhile Text.isSpace ≠ []) (h : StopsLike t u) (hspace : Text.isSpace c = false)
    (hquote : (c == '"' || c == '\'') = false) (hless : c ≠ '<')
    (hcomment : token.isComment = false) (hbad : ∀ x, token ≠ .badUrl x)
    (hread : start c (s ++ t) = (token, t)) : start c (s ++ u) = (token, u) := by
  -- numbers come before all that is decided by the first character alone
  have hnumber := startsNumber_exchange hs h fun hnumber => by
    rw [List.cons_append] at hnumber ⊢
    rw [start_number hnumber] at hread
    have hrest := takeUnit_suffix (takeNumeral (c :: (s ++ t))).1 (takeNumeral (c :: (s ++ t))).2
    rw [← takeNumeric_eq, hread, takeNumeral_eq] at hrest
    obtain ⟨q, hq, -⟩ := exists_of_append_suffix (r := []) (s := c :: s)
      (readFigures_suffix (c :: (s ++ t))) hrest
    exact ⟨q, hq⟩
  rw [List.cons_append, List.cons_append] at hnumber
  cases hstart : startsNumber (c :: (s ++ t)) with
  | true =>
    rw [start_number hstart] at hread
    rw [start_number (hnumber.trans hstart)]
    exact takeNumeric_stays hs h token [] hread
  | false =>
    have hu := hnumber.trans hstart
    by_cases hsingle : c ∈ ['(', '[', '\x7b', ')', ']', '\x7d', ':', ';', ',']
    · obtain ⟨token', htoken⟩ := exists_start_single hsingle
      rw [htoken] at hread ⊢
      obtain ⟨rfl, hr⟩ := Prod.mk.inj hread
      obtain rfl := List.append_left_eq_self.1 hr
      rfl
    by_cases hsign : c ∈ ['~', '|', '^', '$', '*']
    · obtain ⟨sign, heq⟩ := exists_start_sign hsign
      rw [heq] at hread ⊢
      exact signOr_exchange h hread
    by_cases hhash : c = '#'
    · subst hhash
      exact start_hash_exchange hs.tail h hread
    by_cases hat : c = '@'
    · subst hat
      exact start_at_exchange hs.tail h hread
    by_cases hslash : c = '/'
    · subst hslash
      exact start_slash_exchange h hcomment hread
    by_cases hhyphen : c = '-'
    · subst hhyphen
      exact start_hyphen_exchange hs ht h hbad hstart hu hread
    simp only [List.mem_cons, List.not_mem_nil, or_false, not_or] at hsingle hsign
    have hident : ∀ {s}, startsNumber (c :: s) = false → start c s =
        if startsIdent (c :: s) then takeIdentLike (c :: s) else (.delim c, s) := by
      intro s hnumber
      simp [start, hspace, hquote, hnumber, hsingle, hsign]
    rw [hident hstart] at hread
    rw [hident hu]
    exact identOr_exchange hs ht h hbad hread

end

/-! ## Lexemes in front of a text -/

/-- Whether the text in front of `after` is cut into `ls`, and `after` for itself. -/
def Reads (ls : List Lexeme) (after : List Char) : Prop :=
  lexemes (source ls ++ after) = ls ++ lexemes after

section

variable {s after : List Char} {a b ls : List Lexeme} {l : Lexeme}

theorem lexemes_source_of_append (h : lexemes s = a ++ b) : lexemes (source b) = b := by
  induction a generalizing s with
  | nil => rw [← List.nil_append b, ← h, source_lexemes]
  | cons l a ih =>
    cases s with
    | nil =>
      rw [lexemes_nil] at h
      cases h
    | cons c cs =>
      rw [lexemes_cons, List.cons_append] at h
      exact ih (List.cons.inj h).2

theorem Reads.of_lexemes (h : lexemes s = a ++ (ls ++ b)) : Reads ls (source b) := by
  have hrest := lexemes_source_of_append (h.trans (List.append_assoc a ls b).symm)
  rw [Reads, ← source_append, lexemes_source_of_append h, hrest]

theorem Reads.drop (h : Reads (a ++ b) after) : Reads b after := by
  rw [Reads, List.append_assoc] at h
  have hb := lexemes_source_of_append h
  rwa [source_append, source_lexemes] at hb

theorem Reads.tail (h : Reads (l :: ls) after) : Reads ls after :=
  Reads.drop (a := [l]) h

theorem Reads.take (h : Reads (a ++ b) after) : Reads a (source b ++ after) := by
  have hb := h.drop
  rw [Reads, source_append, List.append_assoc, List.append_assoc, ← hb] at h
  exact h

/-- The first lexeme, from its first character on. -/
theorem Reads.start (h : Reads (l :: ls) after) :
    ∃ c x, l.text = c :: x ∧
      Css.start c (x ++ (source ls ++ after)) = (l.token, source ls ++ after) := by
  rw [Reads, source_cons, List.cons_append] at h
  have hne : l.text ≠ [] := text_ne_nil_of_mem_lexemes (h ▸ List.mem_cons_self ..)
  obtain ⟨c, x, htext⟩ := List.exists_cons_of_ne_nil hne
  rw [htext, List.append_assoc, List.cons_append, lexemes_cons] at h
  obtain ⟨hfirst, hrest⟩ := List.cons.inj h
  refine ⟨c, x, htext, ?_⟩
  have hleft := source_lexemes (first c (x ++ (source ls ++ after))).2
  rw [hrest, source_append, source_lexemes] at hleft
  have hsuffix := List.suffix_iff_eq_drop.1 (start_suffix c (x ++ (source ls ++ after)))
  rw [first] at hleft hfirst
  exact Prod.ext (congrArg Lexeme.token hfirst) (hsuffix.trans hleft.symm)

theorem Reads.isSpace (h : Reads (l :: ls) after) (hblank : l.token.isBlank = true) :
    ∀ c ∈ l.text, Text.isSpace c = true := by
  obtain ⟨c, x, htext, hstart⟩ := h.start
  have hspace : Text.isSpace c = true := isSpace_of_start (by rw [hstart]; exact hblank)
  rw [start_space hspace] at hstart
  have hdrop := (Prod.mk.inj hstart).2
  have happend := List.takeWhile_append_dropWhile (p := Text.isSpace)
    (l := x ++ (source ls ++ after))
  rw [hdrop] at happend
  have hx := List.append_cancel_right happend
  rw [htext]
  refine List.forall_mem_cons.2 ⟨hspace, fun d hd => ?_⟩
  rw [← hx] at hd
  exact List.all_eq_true.1 List.all_takeWhile d hd

theorem Reads.comment (h : Reads (l :: ls) after) (hcomment : l.token.isComment = true) :
    ∃ x, l.text = '/' :: '*' :: x ∧
      (takeComment (x ++ (source ls ++ after))).2 = source ls ++ after := by
  obtain ⟨c, x, htext, hstart⟩ := h.start
  obtain ⟨rfl, rest, hrest⟩ := exists_comment_of_start (c := c) (by rw [hstart]; exact hcomment)
  rw [hrest, start_comment] at hstart
  have hleft := (Prod.mk.inj hstart).2
  have hsuffix := takeComment_suffix rest
  rw [hleft] at hsuffix
  obtain ⟨x, rfl, rfl⟩ := exists_cons_of_append_suffix (r := []) hrest hsuffix
  exact ⟨x, htext, hleft⟩

theorem Reads.quoted (h : Reads (l :: ls) after) {text : String}
    (hquoted : l.token = .quoted text) :
    ∃ c x text', l.text = c :: x ∧ (c == '"' || c == '\'') = true ∧
      takeQuoted c (x ++ (source ls ++ after)) = (true, text', source ls ++ after) := by
  obtain ⟨c, x, htext, hstart⟩ := h.start
  have hquote : (c == '"' || c == '\'') = true := isQuote_of_start (by rw [hstart, hquoted])
  rw [start_quote hquote, hquoted] at hstart
  obtain ⟨htoken, hrest⟩ := Prod.mk.inj hstart
  have hwhole : (takeQuoted c (x ++ (source ls ++ after))).1 = true := by
    by_contra hbroken
    rw [if_neg hbroken] at htoken
    cases htoken
  exact ⟨c, x, _, htext, hquote, Prod.ext hwhole (Prod.ext rfl hrest)⟩

/-! ## Lexemes that stay as they are -/

/-- The lexemes without the comments. -/
def kept (ls : List Lexeme) : List Lexeme :=
  ls.filter fun l => !l.token.isComment

/-- The tokens without blanks and comments. -/
def significant (ls : List Lexeme) : List Token :=
  (ls.map Lexeme.token).filter fun token => !token.isSpacing

/-- A lexeme that takes nothing of what follows it, whatever that is. -/
def Lexeme.isClosed (l : Lexeme) : Bool :=
  match l.token with
  | .blank _ | .quoted _ | .url _ | .function _ => true
  | _ => l.text == ['!'] || singles.any fun c => l.text == [c]

/-- Whether the text from its last exclamation mark on cannot be taken for a priority. -/
def Lexeme.marksApart (l : Lexeme) : Bool :=
  l.text == ['!'] || ((Text.splitAtLast? (· == '!') l.text).all fun parts =>
    parts.2.any fun c => !(c.isAlpha || Text.isBlank c))

/-- A lexeme that is whole, ends in no escape, and stays as it is when it is trimmed. -/
def Lexeme.isPlain (l : Lexeme) : Bool :=
  match l.token with
  | .blank _ | .comment _ => true
  | .badQuoted _ | .badUrl _ => false
  | _ => !endsEscaped l.text && Text.trim l.text == l.text && l.text.head? != some '<' &&
    l.marksApart

/-- Whether no comment is next, or what stands behind the comments breaks any token off. -/
def breaksOff (ls : List Lexeme) : Bool :=
  !(ls.head?.any fun l => l.token.isComment) || (source (kept ls)).head?.all isBreak

/-- Whether no two lexemes with only comments between them can become one. -/
def isApart : List Lexeme → Bool
  | [] => true
  | l :: ls => (l.token.isComment || l.isClosed || breaksOff ls) && isApart ls

/-- A text behind lexemes: more than blanks, no escape, and no string behind its blanks. -/
structure Follows (after : List Char) : Prop where
  ne : after.dropWhile Text.isSpace ≠ []
  head : after.head? ≠ some '\\'
  quoted : opensQuoted after = false

/-- Lexemes that stand in front of a text and stay as they are without their comments. -/
structure Stands (ls : List Lexeme) (after : List Char) : Prop where
  reads : Reads ls after
  follows : Follows after
  plain : ∀ l ∈ ls, l.isPlain = true
  apart : isApart ls = true

theorem Follows.append_ne (h : Follows after) (s : List Char) :
    (s ++ after).dropWhile Text.isSpace ≠ [] := by
  intro hnil
  rw [List.dropWhile_eq_nil_iff] at hnil
  exact h.ne (List.dropWhile_eq_nil_iff.2 fun c hc => hnil c (List.mem_append_right s hc))

theorem kept_of_comment (h : l.token.isComment = true) : kept (l :: ls) = kept ls :=
  List.filter_cons_of_neg (by simp [h])

theorem kept_of_not (h : l.token.isComment = false) : kept (l :: ls) = l :: kept ls :=
  List.filter_cons_of_pos (by simp [h])

theorem kept_append (a b : List Lexeme) : kept (a ++ b) = kept a ++ kept b :=
  List.filter_append a b

theorem significant_of_spacing (h : l.token.isSpacing = true) :
    significant (l :: ls) = significant ls :=
  List.filter_cons_of_neg (by simp [h])

theorem significant_of_not (h : l.token.isSpacing = false) :
    significant (l :: ls) = l.token :: significant ls :=
  List.filter_cons_of_pos (by simp [h])

theorem significant_append (a b : List Lexeme) :
    significant (a ++ b) = significant a ++ significant b := by
  rw [significant, List.map_append, List.filter_append]
  rfl

theorem isApart_of_append (h : isApart (a ++ b) = true) :
    isApart a = true ∧ isApart b = true := by
  induction a with
  | nil => exact ⟨rfl, h⟩
  | cons l a ih =>
    rw [List.cons_append, isApart, Bool.and_eq_true] at h
    obtain ⟨ha, hb⟩ := ih h.2
    refine ⟨?_, hb⟩
    rw [isApart, ha, Bool.and_true]
    have hl := h.1
    simp only [Bool.or_eq_true] at hl ⊢
    refine hl.imp_right fun hbreaks => ?_
    cases a with
    | nil => rfl
    | cons n a =>
      rw [breaksOff, Bool.or_eq_true] at hbreaks ⊢
      refine hbreaks.imp_right fun hhead => ?_
      rw [kept_append, source_append] at hhead
      cases hs : source (kept (n :: a)) with
      | nil => rfl
      | cons c s =>
        rw [hs] at hhead
        exact hhead

theorem Stands.drop (h : Stands (a ++ b) after) : Stands b after where
  reads := h.reads.drop
  follows := h.follows
  plain l hl := h.plain l (List.mem_append_right a hl)
  apart := (isApart_of_append h.apart).2

theorem Stands.tail (h : Stands (l :: ls) after) : Stands ls after :=
  Stands.drop (a := [l]) h

theorem Stands.take (h : Stands (a ++ b) after) (hb : Follows (source b ++ after)) :
    Stands a (source b ++ after) where
  reads := h.reads.take
  follows := hb
  plain l hl := h.plain l (List.mem_append_left b hl)
  apart := (isApart_of_append h.apart).1

/-- What a plain lexeme that is no spacing is like. -/
structure Lexeme.IsSolid (l : Lexeme) : Prop where
  spacing : l.token.isSpacing = false
  whole : ∀ x, l.token ≠ .badQuoted x
  address : ∀ x, l.token ≠ .badUrl x
  escaped : endsEscaped l.text = false
  trimmed : Text.trim l.text = l.text
  head : l.text.head? ≠ some '<'
  apart : l.marksApart = true

theorem Lexeme.isSolid_of_isPlain (h : l.isPlain = true) (hspacing : l.token.isSpacing = false) :
    l.IsSolid := by
  obtain ⟨token, text⟩ := l
  cases token with
  | blank => cases hspacing
  | comment => cases hspacing
  | badQuoted => cases h
  | badUrl => cases h
  | _ =>
    simp only [Lexeme.isPlain, Bool.and_eq_true, Bool.not_eq_true', beq_iff_eq, bne_iff_ne] at h
    exact ⟨rfl, by simp, by simp, h.1.1.1, h.1.1.2, h.1.2, h.2⟩

theorem Lexeme.IsSolid.isFirm (h : l.IsSolid) : IsFirm l.text where
  escaped := h.escaped
  last c hc := by
    have hlast : (Text.trim l.text).getLast? = some c := by rwa [h.trimmed]
    have hblank := Text.not_of_getLast?_trimEndBy hlast
    rw [Bool.eq_false_iff] at hblank ⊢
    exact fun hspace => hblank (Text.isBlank_of_isSpace hspace)

/-- A lexeme that is no blank begins with none. -/
theorem Reads.not_isSpace (h : Reads (l :: ls) after) (hblank : l.token.isBlank = false) :
    ∀ c ∈ l.text.head?, Text.isSpace c = false := by
  obtain ⟨c, x, htext, hstart⟩ := h.start
  rw [htext]
  intro d hd
  obtain rfl := Option.some.inj hd
  by_contra hspace
  rw [start_space (Bool.not_eq_false _ ▸ hspace)] at hstart
  rw [← (Prod.mk.inj hstart).1] at hblank
  cases hblank

theorem opensQuoted_cons {c : Char} (hc : Text.isSpace c = false) (s : List Char) :
    opensQuoted (c :: s) = (c == '"' || c == '\'') := by
  rw [opensQuoted, List.dropWhile_cons_of_neg (by simp [hc])]
  rfl

theorem opensQuoted_append {s : List Char} (hs : ∀ c ∈ s, Text.isSpace c = true)
    (t : List Char) : opensQuoted (s ++ t) = opensQuoted t := by
  rw [opensQuoted, List.dropWhile_append_of_pos hs]
  rfl

theorem opensQuoted_kept (h : Reads ls after) (hafter : Follows after)
    (hopens : opensQuoted (source ls ++ after) = true) : opensQuoted (source (kept ls)) = true := by
  induction ls with
  | nil => exact absurd hopens (Bool.eq_false_iff.1 hafter.quoted)
  | cons l ls ih =>
    rw [source_cons, List.append_assoc] at hopens
    by_cases hcomment : l.token.isComment = true
    · obtain ⟨x, htext, -⟩ := h.comment hcomment
      rw [htext] at hopens
      cases hopens
    rw [kept_of_not (Bool.eq_false_iff.2 hcomment), source_cons]
    by_cases hblank : l.token.isBlank = true
    · rw [opensQuoted_append (h.isSpace hblank)] at hopens ⊢
      exact ih h.tail hopens
    · obtain ⟨c, x, htext, -⟩ := h.start
      have hc := h.not_isSpace (Bool.eq_false_iff.2 hblank) c (by rw [htext]; rfl)
      rw [htext, List.cons_append, opensQuoted_cons hc] at hopens ⊢
      exact hopens

/-- What a closed lexeme is like that is neither a blank nor a string. -/
theorem Lexeme.isClosed_cases (hclosed : l.isClosed = true) (hblank : l.token.isBlank = false)
    (hquoted : ∀ x, l.token ≠ .quoted x) :
    l.token.isBracketed = true ∨ ∃ c, l.text = [c] ∧ (c ∈ singles ∨ c = '!') := by
  obtain ⟨token, text⟩ := l
  cases token with
  | blank => cases hblank
  | quoted x => exact absurd rfl (hquoted x)
  | url => exact .inl rfl
  | function => exact .inl rfl
  | _ =>
    simp only [Lexeme.isClosed, Bool.or_eq_true, List.any_eq_true, beq_iff_eq] at hclosed
    rcases hclosed with h | ⟨c, hc, h⟩
    · exact .inr ⟨'!', h, .inr rfl⟩
    · exact .inr ⟨c, h, .inl hc⟩

theorem start_mark (s : List Char) : Css.start '!' s = (.delim '!', s) :=
  rfl

/-- A closed lexeme is read whatever follows it. -/
theorem Reads.start_of_isClosed (h : Reads (l :: ls) after) (hafter : Follows after)
    (hclosed : l.isClosed = true) (hblank : l.token.isBlank = false) {u : List Char}
    (hu : opensQuoted (source ls ++ after) = true → opensQuoted u = true) :
    ∃ c x, l.text = c :: x ∧ Css.start c (x ++ u) = (l.token, u) ∧
      (isBreak c = true ∨ '(' ∈ l.text) := by
  have hne := hafter.append_ne (source ls)
  by_cases hquoted : ∃ text, l.token = .quoted text
  · obtain ⟨text, hquoted⟩ := hquoted
    obtain ⟨c, x, text', htext, hquote, htake⟩ := h.quoted hquoted
    have hcut : source ls ++ after ≠ [] := fun hnil => hne (by rw [hnil]; rfl)
    obtain ⟨-, -, hany⟩ := takeQuoted_closed (r := []) hcut htake
    obtain ⟨d, y, htext', hstart⟩ := h.start
    obtain ⟨rfl, rfl⟩ := List.cons.inj (htext.symm.trans htext')
    rw [start_quote hquote, htake] at hstart
    refine ⟨c, x, htext, ?_, .inl ?_⟩
    · rw [start_quote hquote, hany u]
      exact Prod.ext (Prod.mk.inj hstart).1 rfl
    · rw [Bool.or_eq_true, beq_iff_eq, beq_iff_eq] at hquote
      rcases hquote with rfl | rfl <;> decide
  obtain ⟨c, x, htext, hstart⟩ := h.start
  refine ⟨c, x, htext, ?_⟩
  rcases Lexeme.isClosed_cases hclosed hblank (by simpa using hquoted) with hbracketed | hsingle
  · obtain ⟨hread, hmem⟩ := start_bracketed_exchange hbracketed hne hu hstart
    exact ⟨hread, .inr (by rwa [htext])⟩
  · obtain ⟨d, hd, hsingle⟩ := hsingle
    rw [htext, List.cons.injEq] at hd
    obtain ⟨rfl, rfl⟩ := hd
    rw [htext]
    have hread : ∃ token, ∀ s, Css.start c s = (token, s) := by
      rcases hsingle with hsingle | rfl
      · exact exists_start_single hsingle
      · exact ⟨_, start_mark⟩
    obtain ⟨token, hread⟩ := hread
    rw [List.nil_append, hread] at hstart
    refine ⟨by rw [List.nil_append, hread, (Prod.mk.inj hstart).1], ?_⟩
    rcases hsingle with hsingle | rfl
    · simp only [singles, List.mem_cons, List.not_mem_nil, or_false] at hsingle
      rcases hsingle with rfl | rfl | rfl | rfl | rfl | rfl | rfl | rfl | rfl <;>
        simp [isBreak, breaks]
    · exact .inl (by decide)

/-- What shows of the lexemes without the comments is no more than before. -/
theorem Stands.stopsLike_kept (h : Stands ls after) (hbreaks : breaksOff ls = true) :
    StopsLike (source ls ++ after) (source (kept ls)) := by
  induction ls with
  | nil =>
    exact .ends h.follows.head (by simp [kept]) fun hopens =>
      opensQuoted_kept h.reads h.follows hopens
  | cons l ls ih =>
    have hquoted := opensQuoted_kept h.reads h.follows
    by_cases hcomment : l.token.isComment = true
    · obtain ⟨x, htext, -⟩ := h.reads.comment hcomment
      refine .ends ?_ (fun c hc => ?_) hquoted
      · rw [source_cons, htext]
        simp
      · rw [breaksOff, List.head?_cons, Option.any_some, hcomment, Option.mem_def.1 hc] at hbreaks
        exact hbreaks
    rw [kept_of_not (Bool.eq_false_iff.2 hcomment), source_cons, source_cons, List.append_assoc]
      at hquoted ⊢
    have hends {c : Char} {x : List Char} (htext : l.text = c :: x) (hc : isBreak c = true) :
        StopsLike (l.text ++ (source ls ++ after)) (l.text ++ source (kept ls)) := by
      refine .ends ?_ ?_ hquoted
      · rw [htext, List.cons_append, List.head?_cons]
        rintro ⟨⟩
        cases hc
      · simpa [htext] using hc
    by_cases hblank : l.token.isBlank = true
    · obtain ⟨c, x, htext, -⟩ := h.reads.start
      exact hends htext (isBreak_of_isSpace (h.reads.isSpace hblank c (by simp [htext])))
    by_cases hclosed : l.isClosed = true
    · obtain ⟨c, x, htext, -, hbreak | hbracket⟩ := h.reads.start_of_isClosed h.follows hclosed
        (Bool.eq_false_iff.2 hblank) (opensQuoted_kept h.tail.reads h.follows)
      · exact hends htext hbreak
      · obtain ⟨front, back, htext⟩ := List.append_of_mem hbracket
        rw [htext, List.append_assoc, List.append_assoc]
        exact .of_bracket front _ _
    · have hsolid := Lexeme.isSolid_of_isPlain (h.plain l (by simp)) (by
        simp [Token.isSpacing, hblank, hcomment])
      have hnext : breaksOff ls = true := by
        have hapart := h.apart
        rw [isApart, Bool.and_eq_true] at hapart
        simpa [hcomment, hclosed] using hapart.1
      exact (ih h.tail hnext).append hsolid.isFirm.getLast?_ne

theorem first_of_start_append {c : Char} {x u : List Char} {token : Token}
    (h : Css.start c (x ++ u) = (token, u)) : first c (x ++ u) = (⟨token, c :: x⟩, u) := by
  simp [first, h]

/-- A lexeme that is no spacing is read in front of the others without their comments. -/
theorem Stands.lexemes_kept (h : Stands (l :: ls) after) (hspacing : l.token.isSpacing = false) :
    lexemes (source (kept (l :: ls))) = l :: lexemes (source (kept ls)) := by
  have hsolid := Lexeme.isSolid_of_isPlain (h.plain l (by simp)) hspacing
  rw [Token.isSpacing, Bool.or_eq_false_iff] at hspacing
  obtain ⟨hblank, hcomment⟩ := hspacing
  have hapart := h.apart
  rw [isApart, hcomment, Bool.false_or, Bool.and_eq_true, Bool.or_eq_true] at hapart
  obtain ⟨c, x, htext, hread⟩ : ∃ c x, l.text = c :: x ∧
      Css.start c (x ++ source (kept ls)) = (l.token, source (kept ls)) := by
    by_cases hclosed : l.isClosed = true
    · obtain ⟨c, x, htext, hread, -⟩ := h.reads.start_of_isClosed h.follows hclosed hblank
        (opensQuoted_kept h.tail.reads h.follows)
      exact ⟨c, x, htext, hread⟩
    · obtain ⟨c, x, htext, hstart⟩ := h.reads.start
      have hlike := h.tail.stopsLike_kept (hapart.1.resolve_left hclosed)
      refine ⟨c, x, htext, ?_⟩
      refine start_exchange (htext ▸ hsolid.isFirm) (h.follows.append_ne _) hlike ?_ ?_ ?_ hcomment
        hsolid.address hstart
      · exact h.reads.not_isSpace hblank c (by rw [htext]; rfl)
      · by_contra hquote
        rw [start_quote (Bool.not_eq_false _ ▸ hquote)] at hstart
        have htoken := (Prod.mk.inj hstart).1
        split at htoken
        · refine hclosed ?_
          rw [Lexeme.isClosed, ← htoken]
        · exact hsolid.whole _ htoken.symm
      · rintro rfl
        exact hsolid.head (by rw [htext]; rfl)
  rw [kept_of_not hcomment, source_cons, htext, List.cons_append, lexemes_cons,
    first_of_start_append hread, ← htext]

theorem significant_lexemes_of_isSpace {c : Char} (hc : Text.isSpace c = true) (s : List Char) :
    significant (lexemes (c :: s)) = significant (lexemes (s.dropWhile Text.isSpace)) := by
  have hread : Css.start c (s.takeWhile Text.isSpace ++ s.dropWhile Text.isSpace) =
      (.blank (String.ofList (c :: s.takeWhile Text.isSpace)), s.dropWhile Text.isSpace) := by
    rw [List.takeWhile_append_dropWhile]
    exact start_space hc s
  have hfirst := first_of_start_append hread
  rw [List.takeWhile_append_dropWhile] at hfirst
  rw [lexemes_cons, hfirst]
  exact significant_of_spacing rfl

theorem significant_lexemes_dropWhile (s : List Char) :
    significant (lexemes (s.dropWhile Text.isSpace)) = significant (lexemes s) := by
  cases s with
  | nil => rfl
  | cons c s =>
    by_cases hc : Text.isSpace c = true
    · rw [List.dropWhile_cons_of_pos hc, significant_lexemes_of_isSpace hc]
    · rw [List.dropWhile_cons_of_neg hc]

/-- Without its comments the text has the same tokens. -/
theorem Stands.significant_kept (h : Stands ls after) :
    significant (lexemes (source (kept ls))) = significant ls := by
  induction ls with
  | nil => simp [kept, lexemes_nil]
  | cons l ls ih =>
    have hls := ih h.tail
    by_cases hcomment : l.token.isComment = true
    · rw [kept_of_comment hcomment,
        significant_of_spacing (by simp [Token.isSpacing, hcomment]), hls]
    by_cases hblank : l.token.isBlank = true
    · obtain ⟨c, x, htext, -⟩ := h.reads.start
      have hspace := h.reads.isSpace hblank
      rw [htext] at hspace
      obtain ⟨hc, hx⟩ := List.forall_mem_cons.1 hspace
      rw [kept_of_not (Bool.eq_false_iff.2 hcomment), source_cons, htext, List.cons_append,
        significant_lexemes_of_isSpace hc, List.dropWhile_append_of_pos hx,
        significant_lexemes_dropWhile, hls,
        significant_of_spacing (by simp [Token.isSpacing, hblank])]
    · have hspacing : l.token.isSpacing = false := by simp [Token.isSpacing, hblank, hcomment]
      rw [h.lexemes_kept hspacing, significant_of_not hspacing, hls, significant_of_not hspacing]

end

end Css
end SvgCompact
