import Mathlib
import SvgCompact.Proofs.Css.Length
import SvgCompact.Proofs.Css.Scanning

/-!
The tokens of a value that was read.

A declaration is cut at its colon, freed of comments, trimmed, and cut again at the mark of
importance.  In a tidy text the tokens of what is left are those behind the colon, and the
mark is the last two of them: `readDeclarations_isSpelledBy`.
-/

namespace SvgCompact
namespace Css

section

variable {s after : List Char} {a b ls m : List Lexeme} {l : Lexeme}

/-! ## What is trimmed off -/

theorem Follows.of_head {c : Char} (hc : c = '!' ∨ c = ';' ∨ c = '\x7d') (s : List Char) :
    Follows (c :: s) := by
  have hspace : Text.isSpace c = false := by rcases hc with rfl | rfl | rfl <;> decide
  refine ⟨?_, ?_, ?_⟩
  · rw [List.dropWhile_cons_of_neg (by simp [hspace])]
    exact List.cons_ne_nil c s
  · rcases hc with rfl | rfl | rfl <;> simp
  · rw [opensQuoted_cons hspace]
    rcases hc with rfl | rfl | rfl <;> rfl

/-- Blanks and comments may stand in front. -/
theorem Follows.of_spacing (h : Reads ls after) (hafter : Follows after)
    (hls : ∀ l ∈ ls, l.token.isSpacing = true) : Follows (source ls ++ after) := by
  induction ls with
  | nil => exact hafter
  | cons l ls ih =>
    obtain ⟨hl, hls⟩ := List.forall_mem_cons.1 hls
    have hrest := ih h.tail hls
    have hne := hafter.append_ne (source (l :: ls))
    by_cases hcomment : l.token.isComment = true
    · obtain ⟨x, htext, -⟩ := h.comment hcomment
      rw [source_cons, htext] at hne ⊢
      exact ⟨hne, by simp, rfl⟩
    · have hblank : l.token.isBlank = true := by simpa [Token.isSpacing, hcomment] using hl
      have hspace := h.isSpace hblank
      obtain ⟨c, x, htext, -⟩ := h.start
      refine ⟨hne, ?_, ?_⟩
      · rw [source_cons, htext]
        rintro ⟨⟩
        exact absurd (hspace '\\' (by simp [htext])) (by decide)
      · rw [source_cons, List.append_assoc, opensQuoted_append hspace]
        exact hrest.quoted

theorem isBlank_of_mem_spacing (h : Reads ls after) (hls : ∀ l ∈ ls, l.token.isSpacing = true) :
    ∀ c ∈ source (kept ls), Text.isBlank c = true := by
  induction ls with
  | nil => simp [kept]
  | cons l ls ih =>
    obtain ⟨hl, hls⟩ := List.forall_mem_cons.1 hls
    have hrest := ih h.tail hls
    by_cases hcomment : l.token.isComment = true
    · rwa [kept_of_comment hcomment]
    · have hblank : l.token.isBlank = true := by simpa [Token.isSpacing, hcomment] using hl
      rw [kept_of_not (Bool.eq_false_iff.2 hcomment), source_cons]
      intro c hc
      rcases List.mem_append.1 hc with hc | hc
      · exact Text.isBlank_of_isSpace (h.isSpace hblank c hc)
      · exact hrest c hc

theorem significant_of_forall_spacing (hls : ∀ l ∈ ls, l.token.isSpacing = true) :
    significant ls = [] := by
  rw [significant, List.filter_eq_nil_iff]
  simpa using hls

/-- Lexemes that begin and end with something else than spacing. -/
structure IsCore (ls : List Lexeme) : Prop where
  head : ∀ l ∈ ls.head?, l.token.isSpacing = false
  last : ∀ l ∈ ls.getLast?, l.token.isSpacing = false

theorem exists_core (ls : List Lexeme) :
    ∃ front m back, ls = front ++ (m ++ back) ∧ (∀ l ∈ front, l.token.isSpacing = true) ∧
      (∀ l ∈ back, l.token.isSpacing = true) ∧ IsCore m := by
  let p (l : Lexeme) : Bool := l.token.isSpacing
  have hrest := List.takeWhile_append_dropWhile (p := p) (l := ls)
  have hcut := List.takeWhile_append_dropWhile (p := p) (l := (ls.dropWhile p).reverse)
  have hrev := congrArg List.reverse hcut
  rw [List.reverse_append, List.reverse_reverse] at hrev
  refine ⟨ls.takeWhile p, ((ls.dropWhile p).reverse.dropWhile p).reverse,
    ((ls.dropWhile p).reverse.takeWhile p).reverse, ?_, ?_, ?_, ?_, ?_⟩
  · rw [hrev, hrest]
  · exact fun l hl => List.all_eq_true.1 List.all_takeWhile l hl
  · exact fun l hl => List.all_eq_true.1 List.all_takeWhile l (List.mem_reverse.1 hl)
  · intro l hl
    have hhead : (ls.dropWhile p).head? = some l := by
      rw [← hrev, List.head?_append, Option.mem_def.1 hl]
      rfl
    have hnot := List.head?_dropWhile_not p ls
    rw [hhead] at hnot
    exact hnot
  · intro l hl
    rw [List.getLast?_reverse] at hl
    have hnot := List.head?_dropWhile_not p (ls.dropWhile p).reverse
    rw [Option.mem_def.1 hl] at hnot
    exact hnot

theorem Lexeme.IsSolid.not_isBlank_head (h : l.IsSolid) :
    ∀ c ∈ l.text.head?, Text.isBlank c = false := by
  intro c hc
  rw [← h.trimmed] at hc
  exact Text.not_of_head?_trimBy hc

theorem Lexeme.IsSolid.not_isBlank_last (h : l.IsSolid) :
    ∀ c ∈ l.text.getLast?, Text.isBlank c = false := by
  intro c hc
  rw [← h.trimmed] at hc
  exact Text.not_of_getLast?_trimEndBy hc

theorem isComment_of_not_isSpacing (h : l.token.isSpacing = false) : l.token.isComment = false := by
  rw [Token.isSpacing, Bool.or_eq_false_iff] at h
  exact h.2

theorem not_isBlank_head_kept (hplain : ∀ l ∈ ls, l.isPlain = true) (h : Reads ls after)
    (hls : ∀ l ∈ ls.head?, l.token.isSpacing = false) :
    ∀ c ∈ (source (kept ls)).head?, Text.isBlank c = false := by
  cases ls with
  | nil => simp [kept]
  | cons l ls =>
    have hl := hls l rfl
    have hsolid := Lexeme.isSolid_of_isPlain (hplain l (by simp)) hl
    obtain ⟨c, x, htext, -⟩ := h.start
    rw [kept_of_not (isComment_of_not_isSpacing hl), source_cons, htext]
    exact fun d hd => hsolid.not_isBlank_head d (by rw [htext]; exact hd)

theorem IsCore.trim_kept (hcore : IsCore m) (hplain : ∀ l ∈ m, l.isPlain = true)
    (h : Reads m after) : Text.trim (source (kept m)) = source (kept m) := by
  refine Text.trimBy_eq_self (not_isBlank_head_kept hplain h hcore.head) ?_
  rcases List.eq_nil_or_concat' m with rfl | ⟨front, l, rfl⟩
  · simp [kept]
  · have hl := hcore.last l (by simp)
    have hsolid := Lexeme.isSolid_of_isPlain (hplain l (by simp)) hl
    obtain ⟨c, x, htext, -⟩ := (Reads.drop h).start
    intro d hd
    rw [kept_append, kept_of_not (isComment_of_not_isSpacing hl), source_append, source_cons,
      show kept [] = [] from rfl, source_nil, List.append_nil,
      List.getLast?_append_of_ne_nil _ (by simp [htext])] at hd
    exact hsolid.not_isBlank_last d hd

/-- A text is trimmed to what stands between its outer blanks and comments. -/
theorem Stands.exists_trim (h : Stands ls after) :
    ∃ m rest, Stands m rest ∧ IsCore m ∧ Text.trim (source (kept ls)) = source (kept m) ∧
      significant ls = significant m := by
  obtain ⟨front, m, back, rfl, hfront, hback, hcore⟩ := exists_core ls
  have hm := h.drop.take (.of_spacing h.drop.drop.reads h.follows hback)
  refine ⟨m, source back ++ after, hm, hcore, ?_, ?_⟩
  · rw [kept_append, kept_append, source_append, source_append, ← List.append_assoc, Text.trim,
      Text.trimBy_append_of_pos (isBlank_of_mem_spacing h.reads.take hfront)
        (isBlank_of_mem_spacing h.drop.drop.reads hback)]
    exact hcore.trim_kept hm.plain hm.reads
  · rw [significant_append, significant_append, significant_of_forall_spacing hfront,
      significant_of_forall_spacing hback, List.nil_append, List.append_nil]

/-- A text that is trimmed has the tokens of the lexemes it was taken from. -/
theorem Stands.significant_trim (h : Stands ls after) :
    significant (lexemes (Text.trim (source (kept ls)))) = significant ls := by
  obtain ⟨m, rest, hm, -, htrim, hsame⟩ := h.exists_trim
  rw [htrim, hm.significant_kept, hsame]

/-! ## The mark of importance -/

/-- A character that is left is a character of one lexeme. -/
theorem exists_of_source_kept_eq {c : Char} {before behind : List Char}
    (h : source (kept ls) = before ++ c :: behind) :
    ∃ a l b x y, ls = a ++ l :: b ∧ l.token.isComment = false ∧ l.text = x ++ c :: y ∧
      before = source (kept a) ++ x ∧ behind = y ++ source (kept b) := by
  induction ls generalizing before with
  | nil => simp [kept] at h
  | cons l ls ih =>
    by_cases hcomment : l.token.isComment = true
    · rw [kept_of_comment hcomment] at h
      obtain ⟨a, l', b, x, y, rfl, hl', htext, rfl, rfl⟩ := ih h
      exact ⟨l :: a, l', b, x, y, rfl, hl', htext, by rw [kept_of_comment hcomment], rfl⟩
    rw [Bool.not_eq_true] at hcomment
    rw [kept_of_not hcomment, source_cons] at h
    rcases List.append_eq_append_iff.1 h with ⟨rest, rfl, hls⟩ | ⟨rest, htext, hrest⟩
    · obtain ⟨a, l', b, x, y, rfl, hl', htext, rfl, rfl⟩ := ih hls
      exact ⟨l :: a, l', b, x, y, rfl, hl', htext, by simp [kept_of_not hcomment], rfl⟩
    · cases rest with
      | nil =>
        have hls : source (kept ls) = [] ++ c :: behind := hrest.symm
        obtain ⟨a, l', b, x, y, rfl, hl', htext', hbefore, rfl⟩ := ih hls
        refine ⟨l :: a, l', b, x, y, rfl, hl', htext', ?_, rfl⟩
        rw [kept_of_not hcomment, source_cons, List.append_assoc, ← hbefore, htext,
          List.append_nil, List.append_nil]
      | cons d rest =>
        obtain ⟨rfl, rfl⟩ := List.cons.inj hrest
        exact ⟨[], l, ls, before, rest, rfl, hcomment, htext, rfl, rfl⟩

theorem isAlpha_of_sameLetters {w : List Char}
    (h : Text.sameLetters w "important".toList = true) : ∀ c ∈ w, c.isAlpha = true := by
  intro c hc
  have hlower : c.toLower ∈ Text.lower "important".toList := by
    rw [← eq_of_beq h]
    exact List.mem_map_of_mem hc
  rcases Text.toLower_cases c with heq | ⟨hlow, hhigh, -⟩
  · rw [heq] at hlower
    exact List.all_eq_true.1 (by decide : (Text.lower "important".toList).all Char.isAlpha = true)
      c hlower
  · rw [Char.isAlpha, Char.isUpper, Bool.or_eq_true, decide_eq_true_eq]
    exact .inl ⟨hlow, hhigh⟩

/-- The last exclamation mark, when only `important` stands behind it, is a token. -/
theorem text_eq_mark {x y : List Char} (hsolid : l.IsSolid) (htext : l.text = x ++ '!' :: y)
    (hy : ∀ c ∈ y, c ≠ '!' ∧ (c.isAlpha = true ∨ Text.isBlank c = true)) : l.text = ['!'] := by
  have hapart := hsolid.apart
  have hsplit : Text.splitAtLast? (· == '!') l.text = some (x, y) := by
    rw [htext]
    exact Text.splitAtLast?_append rfl (fun c hc => by simpa using (hy c hc).1) x
  rw [Lexeme.marksApart, hsplit, Option.all_some, Bool.or_eq_true, beq_iff_eq] at hapart
  refine hapart.resolve_right fun hany => ?_
  obtain ⟨c, hc, hnot⟩ := List.any_eq_true.1 hany
  rcases (hy c hc).2 with halpha | hblank
  · simp [halpha] at hnot
  · simp [hblank] at hnot

/-- A word of letters is an identifier. -/
theorem lexemes_word {w : List Char} (hne : w ≠ []) (hw : ∀ c ∈ w, c.isAlpha = true) :
    lexemes w = [⟨.ident (String.ofList w), w⟩] := by
  have htake : ∀ w : List Char, (∀ c ∈ w, c.isAlpha = true) → takeName w = (w, []) := by
    intro w hw
    induction w with
    | nil => rw [takeName]
    | cons c w ih =>
      obtain ⟨hc, hw⟩ := List.forall_mem_cons.1 hw
      rw [takeName, if_pos (by simp [isNameChar, Char.isAlphanum, hc]), ih hw]
  obtain ⟨c, cs, rfl⟩ := List.exists_cons_of_ne_nil hne
  have hc := hw c (by simp)
  have hne {d : Char} (hd : d.isAlpha = false) : c ≠ d := by
    rintro rfl
    rw [hc] at hd
    cases hd
  have hdigit : c.isDigit = false := by
    rw [Bool.eq_false_iff]
    intro hdigit
    simp only [Char.isAlpha, Char.isUpper, Char.isLower, Char.isDigit, Bool.or_eq_true,
      Bool.and_eq_true, decide_eq_true_eq] at hc hdigit
    have hfig : 48 ≤ c.toNat ∧ c.toNat ≤ 57 := hdigit
    have halpha : (65 ≤ c.toNat ∧ c.toNat ≤ 90) ∨ (97 ≤ c.toNat ∧ c.toNat ≤ 122) := hc
    omega
  have hname : StartsName c cs := by
    refine ⟨?_, ?_, fun heq => absurd heq (hne rfl)⟩
    · rw [startsIdent_cons, if_neg (hne rfl), if_neg (hne rfl)]
      simp [isNameStart, hc]
    · rw [startsNumber_eq, takeSign_cons, if_neg (hne rfl), if_neg (hne rfl)]
      simp [hdigit, hne (d := '.') rfl]
  have hstart : start c cs = (.ident (String.ofList (c :: cs)), []) := by
    rw [hname.start_eq]
    change afterName (takeName (c :: cs)).1 (takeName (c :: cs)).2 = _
    rw [htake _ hw]
    rfl
  have hfirst := first_of_start_append (x := cs) (u := []) (by rw [List.append_nil, hstart])
  rw [List.append_nil] at hfirst
  rw [lexemes_cons, hfirst, lexemes_nil]

/-- Whether a value with its priority has the tokens: those of the value, and behind them the
mark of importance when there is one. -/
def IsSpelledBy (value : List Char) (priority : Priority) (tokens : List Token) : Prop :=
  match priority with
  | .normal => tokens = significant (lexemes value)
  | .important => ∃ word, Text.sameLetters word "important".toList = true ∧
      tokens = significant (lexemes value) ++ [.delim '!', .ident (String.ofList word)]

theorem Reads.token_of_mark (h : Reads (l :: ls) after) (htext : l.text = ['!']) :
    l.token = .delim '!' := by
  obtain ⟨c, x, htext', hstart⟩ := h.start
  obtain ⟨rfl, rfl⟩ := List.cons.inj (htext.symm.trans htext')
  rw [List.nil_append, start_mark] at hstart
  exact (Prod.mk.inj hstart).1.symm

theorem isBlank_or_isAlpha_of_trim {s : List Char}
    (h : Text.sameLetters (Text.trim s) "important".toList = true) :
    ∀ c ∈ s, c.isAlpha = true ∨ Text.isBlank c = true := by
  obtain ⟨front, back, hs, hfront, hback⟩ := Text.trimBy_eq Text.isBlank s
  intro c hc
  rw [hs, List.mem_append, List.mem_append] at hc
  rcases hc with (hc | hc) | hc
  · exact .inr (hfront c hc)
  · exact .inl (isAlpha_of_sameLetters h c hc)
  · exact .inr (hback c hc)

/-- The exclamation mark is a token, since a word and blanks are all that follows it. -/
theorem Stands.exists_mark (h : Stands ls after) {before behind : List Char}
    (hcut : source (kept ls) = before ++ '!' :: behind) (hlast : '!' ∉ behind)
    (hword : ∀ c ∈ behind, c.isAlpha = true ∨ Text.isBlank c = true) :
    ∃ a l b, ls = a ++ l :: b ∧ l.text = ['!'] ∧ l.token = .delim '!' ∧
      before = source (kept a) ∧ behind = source (kept b) := by
  obtain ⟨a, l, b, x, y, rfl, hcomment, htext, rfl, rfl⟩ := exists_of_source_kept_eq hcut
  have hblank : l.token.isBlank = false := by
    rw [Bool.eq_false_iff]
    intro hblank
    exact absurd (h.drop.reads.isSpace hblank '!' (by simp [htext])) (by decide)
  have hsolid := Lexeme.isSolid_of_isPlain (h.plain l (by simp))
    (by rw [Token.isSpacing, hblank, hcomment]; rfl)
  have hmark : l.text = ['!'] := by
    refine text_eq_mark hsolid htext fun c hc => ⟨?_, hword c (List.mem_append_left _ hc)⟩
    rintro rfl
    exact hlast (List.mem_append_left _ hc)
  obtain ⟨rfl, rfl⟩ : x = [] ∧ y = [] := by
    have hlength := congrArg List.length (hmark.symm.trans htext)
    simp only [List.length_append, List.length_cons, List.length_nil] at hlength
    exact ⟨List.length_eq_zero_iff.1 (by omega), List.length_eq_zero_iff.1 (by omega)⟩
  exact ⟨a, l, b, rfl, hmark, h.drop.reads.token_of_mark hmark, List.append_nil _, rfl⟩

/-- What is read behind the colon. -/
theorem Stands.isSpelledBy_splitPriority (h : Stands ls after) :
    IsSpelledBy (splitPriority (Text.trim (source (kept ls)))).1
      (splitPriority (Text.trim (source (kept ls)))).2 (significant ls) := by
  have hnormal (heq : splitPriority (Text.trim (source (kept ls))) =
      (Text.trim (source (kept ls)), .normal)) :
      IsSpelledBy (splitPriority (Text.trim (source (kept ls)))).1
        (splitPriority (Text.trim (source (kept ls)))).2 (significant ls) := by
    rw [heq]
    exact h.significant_trim.symm
  cases hlast : Text.splitAtLast? (· == '!') (Text.trim (source (kept ls))) with
  | none => exact hnormal (by rw [splitPriority, hlast])
  | some parts =>
    obtain ⟨before, behind⟩ := parts
    by_cases himportant : Text.sameLetters (Text.trim behind) "important".toList = true
    swap
    · exact hnormal (by simp only [splitPriority, hlast, himportant, if_false, Bool.false_eq_true])
    have hsplit : splitPriority (Text.trim (source (kept ls))) =
        (Text.trimEnd before, .important) := by
      simp only [splitPriority, hlast, himportant, if_true]
    obtain ⟨m, rest, hm, hcore, htrim, hsame⟩ := h.exists_trim
    obtain ⟨c, hc, hcut, hbehind⟩ := Text.splitAtLast?_eq_some hlast
    obtain rfl : c = '!' := by simpa using hc
    -- the mark is a lexeme, so the text is cut where the lexemes are
    obtain ⟨a, l, b, rfl, hmark, htoken, rfl, rfl⟩ := hm.exists_mark (htrim ▸ hcut)
      (fun hmem => by simpa using hbehind '!' hmem) (isBlank_or_isAlpha_of_trim himportant)
    have ha : Stands a (source (l :: b) ++ rest) := by
      refine hm.take ?_
      rw [source_cons, hmark]
      exact .of_head (.inl rfl) _
    have hvalue : Text.trimEnd (source (kept a)) = Text.trim (source (kept a)) := by
      have hhead : ∀ l ∈ a.head?, l.token.isSpacing = false := by
        intro n hn
        refine hcore.head n ?_
        rw [List.head?_append, Option.mem_def.1 hn]
        rfl
      exact Text.trimEnd_eq_trim (not_isBlank_head_kept ha.plain ha.reads hhead)
    have hwordne : Text.trim (source (kept b)) ≠ [] := by
      intro hnil
      rw [hnil] at himportant
      cases himportant
    refine hsplit ▸ ⟨Text.trim (source (kept b)), himportant, ?_⟩
    rw [hsame, significant_append, significant_of_not (by rw [htoken]; rfl), htoken, hvalue,
      ha.significant_trim, ← hm.drop.tail.significant_trim,
      lexemes_word hwordne (isAlpha_of_sameLetters himportant)]
    rfl

/-! ## Declarations -/

/-- Whether the first colon of the text, comments apart, is a token. -/
def leadsToColon (ls : List Lexeme) : Bool :=
  (ls.takeWhile fun l => l.text != [':']).all fun l =>
    l.token.isComment || l.text.all (· != ':')

/-- What follows the first colon. -/
def behindColon (ls : List Lexeme) : List Lexeme :=
  (ls.dropWhile fun l => l.text != [':']).tail

/-- Whether comments and the colon are found where they are, and behind the colon no lexeme
is spoiled by trimming and no two become one without the comments between them. -/
def isTidy (ls : List Lexeme) : Bool :=
  isClear ls && leadsToColon ls && (behindColon ls).all Lexeme.isPlain && isApart (behindColon ls)

theorem notMem_source_kept {c : Char}
    (h : ∀ l ∈ ls, (l.token.isComment || l.text.all (· != c)) = true) : c ∉ source (kept ls) := by
  rw [source, List.mem_flatMap]
  rintro ⟨l, hl, hc⟩
  obtain ⟨hl, hcomment⟩ := List.mem_filter.1 hl
  have hfree := h l hl
  rw [Bool.not_eq_true'] at hcomment
  rw [hcomment, Bool.false_or, List.all_eq_true] at hfree
  simpa using hfree c hc

theorem Reads.token_of_colon (h : Reads (l :: ls) after) (htext : l.text = [':']) :
    l = ⟨.colon, [':']⟩ := by
  obtain ⟨token, text⟩ := l
  obtain rfl : text = [':'] := htext
  obtain ⟨c, x, htext', hstart⟩ := h.start
  obtain ⟨rfl, rfl⟩ := List.cons.inj htext'
  obtain rfl : Token.colon = token := (Prod.mk.inj hstart).1
  rfl

/-- What is read of a tidy declaration has the tokens behind its colon. -/
theorem isSpelledBy_of_readPart? (h : Reads ls after) (hafter : Follows after)
    (htidy : isTidy ls = true) {d : Declaration} (hread : readPart? (source ls) = some d) :
    ∃ front back, ls = front ++ ⟨.colon, [':']⟩ :: back ∧ (∀ l ∈ front, l.text ≠ [':']) ∧
      IsSpelledBy d.value.toList d.priority (significant back) := by
  simp only [isTidy, Bool.and_eq_true, List.all_eq_true] at htidy
  obtain ⟨⟨⟨hclear, hcolon⟩, hplain⟩, hapart⟩ := htidy
  rw [leadsToColon, List.all_eq_true] at hcolon
  rw [readPart?, uncommented_source h hafter hclear] at hread
  have hcut := List.takeWhile_append_dropWhile (p := fun l : Lexeme => l.text != [':']) (l := ls)
  have hfront : ∀ l ∈ ls.takeWhile (fun l : Lexeme => l.text != [':']), l.text ≠ [':'] :=
    fun l hl => by simpa using List.all_eq_true.1 List.all_takeWhile l hl
  generalize ls.takeWhile (fun l : Lexeme => l.text != [':']) = front at hcut hcolon hfront
  have hnot := notMem_source_kept hcolon
  cases hdrop : ls.dropWhile (fun l : Lexeme => l.text != [':']) with
  | nil =>
    -- no lexeme is a colon, and none holds one: nothing would have been read
    rw [hdrop, List.append_nil] at hcut
    rw [hcut] at hnot
    cases hsplit : Text.splitAt? (· == ':') (source (kept ls)) with
    | none =>
      rw [readDeclaration?, hsplit] at hread
      cases hread
    | some parts =>
      obtain ⟨c, hc, hsource, -⟩ := Text.splitAt?_eq_some_iff.1 hsplit
      obtain rfl : c = ':' := by simpa using hc
      exact absurd (by rw [hsource]; simp) hnot
  | cons l back =>
    have hl : l.text = [':'] := by
      have hhead := List.head?_dropWhile_not (fun l : Lexeme => l.text != [':']) ls
      simpa [hdrop] using hhead
    rw [behindColon, hdrop, List.tail_cons] at hplain hapart
    rw [hdrop] at hcut
    subst hcut
    have hback : Stands back after := ⟨h.drop.tail, hafter, hplain, hapart⟩
    obtain rfl := h.drop.token_of_colon hl
    refine ⟨front, back, rfl, hfront, ?_⟩
    have hsplit : Text.splitAt? (· == ':') (source (kept (front ++ ⟨.colon, [':']⟩ :: back))) =
        some (source (kept front), source (kept back)) := by
      refine Text.splitAt?_eq_some_iff.2 ⟨':', rfl, ?_, fun c hc => ?_⟩
      · rw [kept_append, kept_of_not rfl, source_append, source_cons]
        rfl
      · rw [beq_eq_false_iff_ne]
        rintro rfl
        exact hnot hc
    rw [readDeclaration?_of_split hsplit, declaration?] at hread
    split at hread
    · cases hread
    cases hread
    rw [String.toList_ofList]
    exact hback.isSpelledBy_splitPriority

end

/-! ## Texts of declarations -/

/-- The components between the semicolons that stand in no block. -/
def parts (s : List Char) : List (List Component) :=
  (components s).splitOnP Component.isSemicolon

open Component (flatOf textOf)

/-- A part is read in front of its semicolon, or of the end of a text that ends apart. -/
theorem exists_reads_part {s : List Char} {part : List Component}
    {ahead behind : List (List Component)} (h : parts s = ahead ++ part :: behind)
    (hend : behind = [] → EndsApart s) : ∃ after, Reads (flatOf part) after ∧ Follows after := by
  obtain ⟨front, back, hparts, hback, hne⟩ := Text.exists_of_splitOnP_eq h
  have hlexemes := flatOf_components s
  rw [hparts, Component.flatOf_append, Component.flatOf_append] at hlexemes
  cases back with
  | nil =>
    have hapart := lexemes_append (hend (by simpa using hne)) isTail_bracket
    rw [← hlexemes, lexemes_bracket, lexemes_nil, Component.flatOf, List.append_nil,
      List.append_assoc] at hapart
    exact ⟨_, .of_lexemes hapart, .of_head (.inr (.inr rfl)) []⟩
  | cons c back =>
    have hreads : Reads (flatOf part ++ flatOf (c :: back)) [] :=
      .of_lexemes (b := []) (by rw [List.append_nil, ← hlexemes])
    refine ⟨_, hreads.take, ?_⟩
    obtain ⟨text, rfl⟩ : ∃ text, c = .token ⟨.semicolon, text⟩ := by
      have hsemicolon := hback c rfl
      unfold Component.isSemicolon at hsemicolon
      split at hsemicolon
      · exact ⟨_, rfl⟩
      · cases hsemicolon
    rw [Component.flatOf, Component.flat, List.singleton_append] at hreads ⊢
    obtain ⟨d, x, htext, hstart⟩ := hreads.drop.start
    have hd : d = ';' := eq_semicolon_of_start (by rw [hstart])
    rw [source_cons, htext, hd]
    exact .of_head (.inr (.inl rfl)) _

/-- Declarations are read from the parts of a text, which hold its lexemes.  In a tidy part
that ends at its semicolon, or with a text that ends apart, nothing behind the colon is lost,
altered, cut or joined but blanks, comments and the mark of importance. -/
theorem readDeclarations_isSpelledBy (s : List Char) :
    readDeclarations s = (parts s).filterMap (fun part => readPart? (textOf part)) ∧
      flatOf (components s) = lexemes s ∧
      ∀ ahead part behind, parts s = ahead ++ part :: behind → (behind = [] → EndsApart s) →
        isTidy (flatOf part) = true → ∀ d, readPart? (textOf part) = some d →
          ∃ front back, flatOf part = front ++ ⟨.colon, [':']⟩ :: back ∧
            (∀ l ∈ front, l.text ≠ [':']) ∧
            IsSpelledBy d.value.toList d.priority (significant back) := by
  refine ⟨rfl, flatOf_components s, fun ahead part behind hparts hend htidy d hread => ?_⟩
  obtain ⟨after, hreads, hafter⟩ := exists_reads_part hparts hend
  rw [← Component.source_flatOf] at hread
  exact isSpelledBy_of_readPart? hreads hafter htidy hread

namespace Commented

/-- Comments beside an address, beside a string and within the mark of importance. -/
def text : List Char :=
  "a:url(b/c) /* d */\"e!\"/**/! /*;*/IMPORTANT".toList

theorem readDeclarations_isSpelledBy_commented :
    (parts text = [] ++ components text :: [] ∧ EndsApart text ∧
      isTidy (flatOf (components text)) = true ∧
      readPart? (textOf (components text)) = some ⟨"a", "url(b/c) \"e!\"", .important⟩) ∧
      ∃ front back, flatOf (components text) = front ++ ⟨.colon, [':']⟩ :: back ∧
        (∀ l ∈ front, l.text ≠ [':']) ∧
        IsSpelledBy "url(b/c) \"e!\"".toList .important (significant back) := by
  have hparts : parts text = [] ++ components text :: [] := by cbv
  have hend : EndsApart text := by
    rw [EndsApart]
    cbv
  have htidy : isTidy (flatOf (components text)) = true := by cbv
  have hread : readPart? (textOf (components text)) =
      some ⟨"a", "url(b/c) \"e!\"", .important⟩ := by cbv
  exact ⟨⟨hparts, hend, htidy, hread⟩, (readDeclarations_isSpelledBy text).2.2 [] (components text)
    [] hparts (fun _ => hend) htidy _ hread⟩

end Commented

/-- A slash and a star in an address are taken for the beginning of a comment. -/
example : readDeclarations "a:url(https://x/*/y)".toList = [⟨"a", "url(https://x", .normal⟩] := by
  cbv

/-- A comment between two words leaves one word. -/
example : readDeclarations "a:b/**/c".toList = [⟨"a", "bc", .normal⟩] := by
  cbv

end Css
end SvgCompact
