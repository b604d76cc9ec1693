import SvgCompact.Proofs.Selector.Names

/-!
What components say to the reader of selectors.

The reader looks at the tokens of components, at what is inside their blocks, and at
whether blanks stand between them.  Comments count for nothing, nor does the text of a
token.  Lists are alike when they say the same up to a comma or the end, which both end a
selector, and then they begin with the same.
-/

namespace SvgCompact
namespace SelectorReader

open Css
open Css.Component (IsOpened)

/-! ## What components say to the reader -/

/-- What a component says, with a flag for blanks in front of it. -/
inductive Sense
  | token (spaced : Bool) (token : Token)
  | block (spaced : Bool) (opener : Token) (bracket : Bracket) (body : List Sense)
  /-- An argument that is kept as text. -/
  | argument (spaced : Bool) (opener : Token) (bracket : Bracket) (text : List Char)

/-- Whether a token opens an argument that is kept as text. -/
def keepsText : Token → Bool
  | .function name => dynamicFunctions.contains (Text.lowerWord name)
  | _ => false

mutual

def sense (spaced : Bool) : Component → Sense
  | .token lexeme => .token spaced lexeme.token
  | .block opener bracket body _ =>
    if keepsText opener.token then
      .argument spaced opener.token bracket (Text.trim (Component.textOf body))
    else .block spaced opener.token bracket (senses none body)

/-- What components say in a row.  The flag tells whether there are blanks behind the
component in front of them, if there is one. -/
def senses (spaced : Option Bool) : List Component → List Sense
  | [] => []
  | c :: rest =>
    if c.isSpacing then senses (spaced.map (· || c.isBlank)) rest
    else sense (spaced.getD false) c :: senses (some false) rest

end

/-- Whether there are blanks in front of the first component that is neither blank nor
comment. -/
def gap (cs : List Component) : Bool :=
  (cs.takeWhile Component.isSpacing).any Component.isBlank

variable {c d : Component} {cs ds rest rest' front tail tail' : List Component}
  {spaced : Option Bool}

theorem senses_of_skip_nil (h : skip cs = []) : senses spaced cs = [] := by
  induction cs generalizing spaced with
  | nil => rw [senses]
  | cons c cs ih =>
    by_cases hc : c.isSpacing = true
    · rw [skip, List.dropWhile_cons_of_pos hc] at h
      rw [senses, if_pos hc, ih h]
    · rw [skip, List.dropWhile_cons_of_neg hc] at h
      cases h

theorem senses_of_skip_cons (h : skip cs = c :: rest) :
    senses spaced cs =
      sense ((spaced.map (· || gap cs)).getD false) c :: senses (some false) rest := by
  induction cs generalizing spaced with
  | nil => cases h
  | cons b cs ih =>
    by_cases hb : b.isSpacing = true
    · rw [skip, List.dropWhile_cons_of_pos hb] at h
      rw [senses, if_pos hb, ih h, gap, gap, List.takeWhile_cons_of_pos hb, List.any_cons]
      cases spaced <;> simp [Bool.or_assoc]
    · rw [skip, List.dropWhile_cons_of_neg hb] at h
      cases h
      rw [senses, if_neg hb, gap, List.takeWhile_cons_of_neg hb]
      cases spaced <;> simp

theorem not_isSpacing_of_skip (h : skip cs = c :: rest) : c.isSpacing = false := by
  have hhead := List.head?_dropWhile_not Component.isSpacing cs
  rw [show cs.dropWhile Component.isSpacing = c :: rest from h] at hhead
  simpa using hhead

theorem skip_of_not_isSpacing (h : c.isSpacing = false) (rest : List Component) :
    skip (c :: rest) = c :: rest := by
  rw [skip, List.dropWhile_cons_of_neg (by simp [h])]

theorem skip_skip (cs : List Component) : skip (skip cs) = skip cs := by
  cases h : skip cs with
  | nil => rfl
  | cons c rest => exact skip_of_not_isSpacing (not_isSpacing_of_skip h) rest

theorem gap_skip (cs : List Component) : gap (skip cs) = false := by
  cases h : skip cs with
  | nil => rfl
  | cons c rest =>
    rw [gap, List.takeWhile_cons_of_neg (by simp [not_isSpacing_of_skip h])]
    rfl

theorem senses_skip (cs : List Component) : senses (some false) (skip cs) = senses none cs := by
  cases h : skip cs with
  | nil => rw [senses_of_skip_nil h, senses]
  | cons c rest =>
    have hskip := (skip_skip cs).trans h
    rw [← h, senses_of_skip_cons h, senses_of_skip_cons hskip, gap_skip]
    rfl

/-! ### Commas -/

def Sense.isComma : Sense → Bool
  | .token _ .comma => true
  | _ => false

theorem isComma_sense (spaced : Bool) (c : Component) :
    (sense spaced c).isComma = c.isComma := by
  cases c with
  | token l =>
    obtain ⟨t, x⟩ := l
    cases t <;> rfl
  | block opener bracket body closer =>
    rw [sense]
    split <;> rfl

theorem not_isComma_of_isSpacing (h : c.isSpacing = true) : c.isComma = false := by
  cases c with
  | token l =>
    obtain ⟨t, x⟩ := l
    cases t <;> first | rfl | cases h
  | block => rfl

theorem senses_untilComma (spaced : Option Bool) (cs : List Component) :
    senses spaced (untilComma cs) = (senses spaced cs).takeWhile (!·.isComma) := by
  induction cs generalizing spaced with
  | nil => rw [untilComma, List.takeWhile_nil, senses, List.takeWhile_nil]
  | cons c cs ih =>
    rw [untilComma] at ih ⊢
    by_cases hspacing : c.isSpacing = true
    · rw [List.takeWhile_cons_of_pos (by simp [not_isComma_of_isSpacing hspacing]), senses, senses,
        if_pos hspacing, if_pos hspacing, ih]
    · rw [senses.eq_2 spaced c cs, if_neg hspacing]
      by_cases hcomma : c.isComma = true
      · rw [List.takeWhile_cons_of_neg (by simp [hcomma]),
          List.takeWhile_cons_of_neg (by simp [isComma_sense, hcomma]), senses]
      · rw [List.takeWhile_cons_of_pos (by simp [hcomma]),
          List.takeWhile_cons_of_pos (by simp [isComma_sense, hcomma]), senses, if_neg hspacing, ih]

theorem behindComma?_cons (c : Component) (cs : List Component) :
    behindComma? (c :: cs) = if c.isComma then some cs else behindComma? cs := by
  by_cases hcomma : c.isComma = true
  · rw [behindComma?, List.dropWhile_cons_of_neg (by simp [hcomma]), if_pos hcomma]
  · rw [behindComma?, List.dropWhile_cons_of_pos (by simp [hcomma]), if_neg hcomma, behindComma?]

theorem senses_behindComma? (spaced : Option Bool) (cs : List Component) :
    (behindComma? cs).map (senses (some false)) =
      ((senses spaced cs).dropWhile (!·.isComma)).tail? := by
  induction cs generalizing spaced with
  | nil => rw [senses]; rfl
  | cons c cs ih =>
    rw [behindComma?_cons, senses]
    by_cases hspacing : c.isSpacing = true
    · rw [if_pos hspacing, not_isComma_of_isSpacing hspacing, ← ih]
      rfl
    · rw [if_neg hspacing]
      by_cases hcomma : c.isComma = true
      · rw [if_pos hcomma, List.dropWhile_cons_of_neg (by simp [isComma_sense, hcomma])]
        rfl
      · rw [if_neg hcomma, List.dropWhile_cons_of_pos (by simp [isComma_sense, hcomma]), ← ih]

/-! ## Components that say the same -/

/-- Whether bodies say the same behind one opening token. -/
def SameBody (opener : Token) (body body' : List Component) : Prop :=
  if keepsText opener then
    Text.trim (Component.textOf body) = Text.trim (Component.textOf body')
  else senses none body = senses none body'

inductive Similar : Component → Component → Prop
  | token (token : Token) (x y : List Char) : Similar (.token ⟨token, x⟩) (.token ⟨token, y⟩)
  | block {opener : Token} (x y : List Char) (bracket : Bracket) {body body' : List Component}
      (closer closer' : List Char) (h : SameBody opener body body') :
      Similar (.block ⟨opener, x⟩ bracket body closer) (.block ⟨opener, y⟩ bracket body' closer')

theorem Similar.head_eq (h : Similar c d) : c.head = d.head := by
  cases h <;> rfl

theorem similar_of_sense_eq {s s' : Bool} (h : sense s c = sense s' d) :
    s = s' ∧ Similar c d := by
  cases c with
  | token l =>
    cases d with
    | token l' =>
      obtain ⟨t, x⟩ := l
      obtain ⟨t', y⟩ := l'
      rw [sense, sense] at h
      obtain ⟨rfl, rfl⟩ := Sense.token.inj h
      exact ⟨rfl, .token t x y⟩
    | block opener bracket body closer =>
      rw [sense, sense] at h
      split at h <;> cases h
  | block opener bracket body closer =>
    cases d with
    | token l =>
      rw [sense, sense] at h
      split at h <;> cases h
    | block opener' bracket' body' closer' =>
      obtain ⟨t, x⟩ := opener
      obtain ⟨t', y⟩ := opener'
      rw [sense, sense] at h
      split at h
      · next hkeeps =>
        split at h
        · obtain ⟨rfl, rfl, rfl, htext⟩ := Sense.argument.inj h
          exact ⟨rfl, .block x y bracket closer closer' (by rwa [SameBody, if_pos hkeeps])⟩
        · cases h
      · next hkeeps =>
        split at h
        · cases h
        · obtain ⟨rfl, rfl, rfl, hbody⟩ := Sense.block.inj h
          exact ⟨rfl, .block x y bracket closer closer' (by rwa [SameBody, if_neg hkeeps])⟩

theorem Similar.sense_eq (h : Similar c d) (spaced : Bool) : sense spaced c = sense spaced d := by
  cases h with
  | token => rw [sense, sense]
  | block x y bracket closer closer' hsame =>
    rw [SameBody] at hsame
    rw [sense, sense]
    split at hsame
    · next hkeeps => rw [if_pos hkeeps, if_pos hkeeps, hsame]
    · next hkeeps => rw [if_neg hkeeps, if_neg hkeeps, hsame]

theorem Similar.isComma_eq (h : Similar c d) : c.isComma = d.isComma := by
  cases h with
  | token t x y => cases t <;> rfl
  | block => rfl

theorem Similar.symm (h : Similar c d) : Similar d c := by
  cases h with
  | token t x y => exact .token t y x
  | block x y bracket closer closer' hsame =>
    refine .block y x bracket closer' closer ?_
    rw [SameBody] at hsame ⊢
    split at hsame
    · next hkeeps => rw [if_pos hkeeps, hsame]
    · next hkeeps => rw [if_neg hkeeps, hsame]

/-- Without what stands in front, blanks at the front say nothing. -/
theorem senses_none_eq (h : senses (some false) cs = senses (some false) ds) :
    senses none cs = senses none ds := by
  cases hc : skip cs with
  | nil =>
    cases hd : skip ds with
    | nil => rw [senses_of_skip_nil hc, senses_of_skip_nil hd]
    | cons d rest' =>
      rw [senses_of_skip_nil hc, senses_of_skip_cons hd] at h
      cases h
  | cons c rest =>
    cases hd : skip ds with
    | nil =>
      rw [senses_of_skip_nil hd, senses_of_skip_cons hc] at h
      cases h
    | cons d rest' =>
      rw [senses_of_skip_cons hc, senses_of_skip_cons hd, List.cons.injEq] at h
      rw [senses_of_skip_cons hc, senses_of_skip_cons hd, h.2]
      exact congrArg (· :: _) ((similar_of_sense_eq h.1).2.sense_eq false)

theorem behindComma?_of_same {body body' : List Component}
    (hsame : senses none body = senses none body') :
    (behindComma? body).map (senses (some false)) =
      (behindComma? body').map (senses (some false)) := by
  rw [senses_behindComma? none, senses_behindComma? none, hsame]

/-! ## Alike up to an end -/

/-- Where a selector ends: with the components, or at a comma. -/
def IsEnd (tail : List Component) : Prop :=
  tail = [] ∨ ∃ x rest, tail = .token ⟨.comma, x⟩ :: rest

theorem isEnd_nil : IsEnd [] := .inl rfl

theorem IsEnd.skip_eq (h : IsEnd tail) : skip tail = tail := by
  rcases h with rfl | ⟨x, rest, rfl⟩
  · rfl
  · exact skip_of_not_isSpacing rfl rest

/-- Components that say the same up to where a selector ends in each of them. -/
structure Alike (tail tail' cs ds : List Component) : Prop where
  ends : IsEnd tail
  ends' : IsEnd tail'
  opened : ∀ c ∈ cs, c.IsOpened
  opened' : ∀ d ∈ ds, d.IsOpened
  fronts : ∃ front front', cs = front ++ tail ∧ ds = front' ++ tail' ∧
    senses (some false) front = senses (some false) front'

theorem Alike.symm (h : Alike tail tail' cs ds) : Alike tail' tail ds cs := by
  obtain ⟨front, front', hcs, hds, hsenses⟩ := h.fronts
  exact ⟨h.ends', h.ends, h.opened', h.opened, front', front, hds, hcs, hsenses.symm⟩

theorem alike_skip (hopened : ∀ c ∈ cs, c.IsOpened) (hopened' : ∀ d ∈ ds, d.IsOpened)
    (h : senses none cs = senses none ds) : Alike [] [] (skip cs) (skip ds) where
  ends := isEnd_nil
  ends' := isEnd_nil
  opened c hc := hopened c ((List.dropWhile_suffix _).subset hc)
  opened' d hd := hopened' d ((List.dropWhile_suffix _).subset hd)
  fronts := ⟨skip cs, skip ds, (List.append_nil _).symm, (List.append_nil _).symm,
    by rw [senses_skip, senses_skip, h]⟩

/-- What two lists begin with, blanks and comments apart. -/
inductive Ahead (tail tail' cs ds : List Component) : Prop
  | ended (h : skip cs = tail) (h' : skip ds = tail')
  | found {c d : Component} {rest rest' : List Component} (h : skip cs = c :: rest)
      (h' : skip ds = d :: rest') (hgap : gap cs = gap ds) (hsimilar : Similar c d)
      (hrest : Alike tail tail' rest rest')

theorem skip_append_of_nil (h : skip front = []) (tail : List Component) :
    skip (front ++ tail) = skip tail := by
  rw [skip] at h
  rw [skip, List.dropWhile_append, h]
  rfl

theorem skip_append_of_cons (h : skip front = c :: rest) (tail : List Component) :
    skip (front ++ tail) = c :: (rest ++ tail) := by
  rw [skip] at h
  rw [skip, List.dropWhile_append, h]
  rfl

theorem gap_append_of_cons (h : skip front = c :: rest) (tail : List Component) :
    gap (front ++ tail) = gap front := by
  have happend := List.takeWhile_append_dropWhile (p := Component.isSpacing) (l := front)
  have hlength := congrArg List.length happend
  rw [show front.dropWhile Component.isSpacing = c :: rest from h, List.length_append,
    List.length_cons] at hlength
  rw [gap, gap, List.takeWhile_append, if_neg (by omega)]

theorem suffix_of_skip (h : skip cs = c :: rest) : rest <:+ cs :=
  (List.suffix_cons c rest).trans (h ▸ List.dropWhile_suffix _)

theorem Alike.ahead (h : Alike tail tail' cs ds) : Ahead tail tail' cs ds := by
  obtain ⟨hends, hends', hopened, hopened', front, front', rfl, rfl, hsenses⟩ := h
  cases hfront : skip front with
  | nil =>
    rw [senses_of_skip_nil hfront] at hsenses
    cases hfront' : skip front' with
    | nil =>
      exact .ended ((skip_append_of_nil hfront tail).trans hends.skip_eq)
        ((skip_append_of_nil hfront' tail').trans hends'.skip_eq)
    | cons d rest' =>
      rw [senses_of_skip_cons hfront'] at hsenses
      cases hsenses
  | cons c rest =>
    rw [senses_of_skip_cons hfront] at hsenses
    cases hfront' : skip front' with
    | nil =>
      rw [senses_of_skip_nil hfront'] at hsenses
      cases hsenses
    | cons d rest' =>
      rw [senses_of_skip_cons hfront', List.cons.injEq] at hsenses
      obtain ⟨hsense, hrest⟩ := hsenses
      obtain ⟨hgap, hsimilar⟩ := similar_of_sense_eq hsense
      have hskip := skip_append_of_cons hfront tail
      have hskip' := skip_append_of_cons hfront' tail'
      refine .found hskip hskip' ?_ hsimilar ⟨hends, hends', fun c hc => ?_, fun d hd => ?_,
        rest, rest', rfl, rfl, hrest⟩
      · rw [gap_append_of_cons hfront, gap_append_of_cons hfront']
        simpa using hgap
      · exact hopened c ((suffix_of_skip hskip).subset hc)
      · exact hopened' d ((suffix_of_skip hskip').subset hd)

/-- Tokens that stand in the middle of a selector. -/
def isInner : Token → Bool
  | .comma => false
  | .blank _ => false
  | _ => true

theorem Alike.token_ahead (h : Alike tail tail' cs ds) {t : Token} {x : List Char}
    (hc : skip cs = .token ⟨t, x⟩ :: rest) (ht : isInner t = true) :
    ∃ y rest', skip ds = .token ⟨t, y⟩ :: rest' ∧ Alike tail tail' rest rest' := by
  cases h.ahead with
  | ended hended _ =>
    rcases h.ends with rfl | ⟨x, more, rfl⟩
    · rw [hc] at hended
      cases hended
    · rw [hc] at hended
      cases hended
      cases ht
  | found hfound hd _ hsimilar hrest =>
    rw [hc] at hfound
    cases hfound
    cases hsimilar with
    | token t x y => exact ⟨y, _, hd, hrest⟩

/-- A token that does not stand in front of one list does not stand in front of the other. -/
theorem Alike.no_token_ahead (h : Alike tail tail' cs ds) {t : Token} {y : List Char}
    (hd : skip ds = .token ⟨t, y⟩ :: rest) (ht : isInner t = true)
    (hnone : ∀ x more, skip cs = .token ⟨t, x⟩ :: more → False) : False := by
  obtain ⟨x, more, hc, -⟩ := h.symm.token_ahead hd ht
  exact hnone x more hc

theorem Alike.skip_nil (h : Alike [] [] cs ds) (hc : skip cs = []) : skip ds = [] := by
  cases h.ahead with
  | ended _ hd => exact hd
  | found hfound _ _ _ _ =>
    rw [hc] at hfound
    cases hfound

theorem exists_token_of_isBlank (hopened : c.IsOpened) (h : c.isBlank = true) :
    ∃ text x, c = .token ⟨.blank text, x⟩ := by
  cases c with
  | token l =>
    obtain ⟨t, x⟩ := l
    cases t <;> first | exact ⟨_, x, rfl⟩ | cases h
  | block opener bracket body closer =>
    rw [hopened.isBlank_block] at h
    cases h

theorem skipComments_cases (hopened : ∀ c ∈ cs, c.IsOpened) :
    (gap cs = true ∧ ∃ text x rest, skipComments cs = .token ⟨.blank text, x⟩ :: rest) ∨
      gap cs = false ∧ skipComments cs = skip cs := by
  induction cs with
  | nil => exact .inr ⟨rfl, rfl⟩
  | cons c cs ih =>
    obtain ⟨hc, hcs⟩ := List.forall_mem_cons.1 hopened
    rw [gap, skipComments, skip]
    by_cases hblank : c.isBlank = true
    · obtain ⟨text, x, rfl⟩ := exists_token_of_isBlank hc hblank
      exact .inl ⟨rfl, text, x, cs, rfl⟩
    by_cases hcomment : c.isComment = true
    · have hspacing : c.isSpacing = true := by rw [Component.isSpacing, hcomment, Bool.or_true]
      rw [List.takeWhile_cons_of_pos hspacing, List.any_cons, Bool.eq_false_iff.2 hblank,
        Bool.false_or, List.dropWhile_cons_of_pos hcomment, List.dropWhile_cons_of_pos hspacing]
      exact ih hcs
    · have hspacing : ¬c.isSpacing = true := by simp [Component.isSpacing, hblank, hcomment]
      rw [List.takeWhile_cons_of_neg hspacing, List.dropWhile_cons_of_neg hcomment,
        List.dropWhile_cons_of_neg hspacing]
      exact .inr ⟨rfl, rfl⟩

theorem Alike.next (h : Alike tail tail' cs ds) {c : Component}
    (hc : skipComments cs = c :: rest) (hinner : isInner c.head = true) :
    ∃ d rest', skipComments ds = d :: rest' ∧ Similar c d ∧ Alike tail tail' rest rest' := by
  -- a blank in front would come first
  have hfront : gap cs = false ∧ skipComments cs = skip cs := by
    rcases skipComments_cases h.opened with ⟨-, text, x, more, hblank⟩ | hfront
    · rw [hc] at hblank
      cases hblank
      cases hinner
    · exact hfront
  cases h.ahead with
  | ended hended _ =>
    rw [← hfront.2, hc] at hended
    rcases h.ends with rfl | ⟨x, more, rfl⟩
    · cases hended
    · cases hended
      cases hinner
  | found hfound hd hgap hsimilar hrest =>
    rw [← hfront.2, hc] at hfound
    cases hfound
    rcases skipComments_cases h.opened' with ⟨htrue, -⟩ | ⟨-, heq⟩
    · rw [← hgap, hfront.1] at htrue
      cases htrue
    · exact ⟨_, _, heq.trans hd, hsimilar, hrest⟩

theorem Alike.token_next (h : Alike tail tail' cs ds) {t : Token} {x : List Char}
    (hc : skipComments cs = .token ⟨t, x⟩ :: rest) (ht : isInner t = true) :
    ∃ y rest', skipComments ds = .token ⟨t, y⟩ :: rest' ∧ Alike tail tail' rest rest' := by
  obtain ⟨d, rest', hd, hsimilar, hrest⟩ := h.next hc ht
  cases hsimilar with
  | token t x y => exact ⟨y, rest', hd, hrest⟩

theorem Alike.no_token_next (h : Alike tail tail' cs ds) {t : Token} {y : List Char}
    (hd : skipComments ds = .token ⟨t, y⟩ :: rest) (ht : isInner t = true)
    (hnone : ∀ x more, skipComments cs = .token ⟨t, x⟩ :: more → False) : False := by
  obtain ⟨x, more, hc, -⟩ := h.symm.token_next hd ht
  exact hnone x more hc

/-- Bodies of blocks that say the same, whatever brackets they stand in. -/
structure AlikeBodies (opener : Token) (body body' : List Component) : Prop where
  opened : ∀ c ∈ body, c.IsOpened
  opened' : ∀ d ∈ body', d.IsOpened
  same : SameBody opener body body'

theorem mem_of_skipComments (h : skipComments cs = c :: rest) : c ∈ cs :=
  (List.dropWhile_suffix Component.isComment).subset
    (show c ∈ skipComments cs by rw [h]; exact List.mem_cons_self ..)

theorem isInner_of_opens {opener : Token} {bracket : Bracket} (h : opener.opens? = some bracket) :
    isInner opener = true := by
  cases opener <;> first | rfl | cases h

theorem Alike.block_next (h : Alike tail tail' cs ds) {opener : Token} {x closer : List Char}
    {bracket : Bracket} {body : List Component}
    (hc : skipComments cs = .block ⟨opener, x⟩ bracket body closer :: rest) :
    ∃ y body' closer' rest', skipComments ds = .block ⟨opener, y⟩ bracket body' closer' :: rest' ∧
      AlikeBodies opener body body' ∧ Alike tail tail' rest rest' := by
  have hopened := h.opened _ (mem_of_skipComments hc)
  have hinner : isInner opener = true := by
    cases hopened with
    | block hopens _ => exact isInner_of_opens hopens
  obtain ⟨d, rest', hd, hsimilar, hrest⟩ := h.next hc hinner
  have hopened' := h.opened' d (mem_of_skipComments hd)
  cases hsimilar with
  | block x y bracket closer closer' hsame =>
    exact ⟨y, _, closer', rest', hd, ⟨hopened.forall_body, hopened'.forall_body, hsame⟩, hrest⟩

theorem skip_append (htail : IsEnd tail) (front : List Component) :
    skip (front ++ tail) = skip front ++ tail := by
  cases hfront : skip front with
  | nil => exact (skip_append_of_nil hfront tail).trans htail.skip_eq
  | cons c rest => exact skip_append_of_cons hfront tail

theorem Alike.skip (h : Alike tail tail' cs ds) : Alike tail tail' (skip cs) (skip ds) where
  ends := h.ends
  ends' := h.ends'
  opened c hc := h.opened c ((List.dropWhile_suffix _).subset hc)
  opened' d hd := h.opened' d ((List.dropWhile_suffix _).subset hd)
  fronts := by
    obtain ⟨front, front', rfl, rfl, hsenses⟩ := h.fronts
    refine ⟨_, _, skip_append h.ends front, skip_append h.ends' front', ?_⟩
    rw [senses_skip, senses_skip, senses_none_eq hsenses]

end SelectorReader
end SvgCompact
