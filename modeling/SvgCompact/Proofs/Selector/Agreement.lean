import SvgCompact.Proofs.Selector.Senses

/-!
Components that say the same are read as the same selectors.

Every function of the reader gives the same result on lists that are alike, and leaves lists
that are alike.  So what is read in front of a comma is read in front of the end too.
-/

namespace SvgCompact
namespace SelectorReader

open Css
open Css.Component (IsOpened)

variable {c d : Component} {cs ds rest tail tail' : List Component}

/-! ## Attribute tests -/

section

variable (h : Alike [] [] cs ds)
include h

theorem Alike.finished (hread : finished cs = .ok ()) : finished ds = .ok () := by
  rw [SelectorReader.finished] at hread
  split at hread
  · next hc => rw [SelectorReader.finished, h.skip_nil hc]
  · cases hread

theorem Alike.attributeName {name : String} (hread : attributeName cs = .ok (name, rest)) :
    ∃ rest', attributeName ds = .ok (name, rest') ∧ Alike [] [] rest rest' := by
  rw [SelectorReader.attributeName] at hread
  rw [SelectorReader.attributeName]
  split at hread
  · cases hread
  · next prefixName _ _ hc =>
    obtain ⟨y, more, hd, hmore⟩ := h.token_ahead hc rfl
    rw [hd]
    split at hread
    · next hbar =>
      obtain ⟨_, behind, hbar', hbehind⟩ := hmore.token_next hbar rfl
      dsimp only
      rw [hbar']
      split at hread
      · cases hread
      · next hstem =>
        cases hread
        obtain ⟨_, last, hstem', hlast⟩ := hbehind.token_next hstem rfl
        refine ⟨last, ?_, hlast⟩
        split
        · next heq =>
          cases heq
          rw [hstem']
        · next hnot => exact absurd rfl (hnot _ _)
      · cases hread
    · next hbar =>
      cases hread
      refine ⟨more, ?_, hmore⟩
      dsimp only
      split
      · next hbar' => exact (hmore.no_token_next hbar' rfl hbar).elim
      · rfl
  · cases hread

theorem Alike.attributeValue {value : String} (hread : attributeValue cs = .ok (value, rest)) :
    ∃ rest', attributeValue ds = .ok (value, rest') ∧ Alike [] [] rest rest' := by
  rw [SelectorReader.attributeValue] at hread
  rw [SelectorReader.attributeValue]
  split at hread
  · cases hread
  · next hc =>
    cases hread
    obtain ⟨y, more, hd, hmore⟩ := h.token_ahead hc rfl
    exact ⟨more, by rw [hd], hmore⟩
  · next hc =>
    cases hread
    obtain ⟨y, more, hd, hmore⟩ := h.token_ahead hc rfl
    exact ⟨more, by rw [hd], hmore⟩
  · cases hread

theorem Alike.caseFlag {flag : Bool} (hread : caseFlag cs = .ok (flag, rest)) :
    ∃ rest', caseFlag ds = .ok (flag, rest') ∧ Alike [] [] rest rest' := by
  rw [SelectorReader.caseFlag] at hread
  rw [SelectorReader.caseFlag]
  split at hread
  · next hc =>
    cases hread
    exact ⟨[], by rw [h.skip_nil hc],
      ⟨isEnd_nil, isEnd_nil, by simp, by simp, [], [], rfl, rfl, rfl⟩⟩
  · next word _ _ hc =>
    obtain ⟨y, more, hd, hmore⟩ := h.token_ahead hc rfl
    rw [hd]
    dsimp only
    split at hread
    · next hword =>
      cases hread
      exact ⟨more, if_pos hword, hmore⟩
    · next hword =>
      split at hread
      · next hword' =>
        cases hread
        exact ⟨more, by rw [if_neg hword, if_pos hword'], hmore⟩
      · cases hread
  · cases hread

end

theorem attributeName_skip (cs : List Component) :
    attributeName (skip cs) = attributeName cs := by
  rw [attributeName, attributeName, skip_skip]

theorem attributeSelector_of_alike {body body' : List Component}
    (hopened : ∀ c ∈ body, c.IsOpened) (hopened' : ∀ d ∈ body', d.IsOpened)
    (hsame : senses none body = senses none body') {a : AttributeSelector}
    (hread : attributeSelector body = .ok a) : attributeSelector body' = .ok a := by
  obtain ⟨⟨name, rest⟩, hname, hread⟩ := bind_eq_ok hread
  rw [← attributeName_skip] at hname
  obtain ⟨rest', hname', hrest⟩ := (alike_skip hopened hopened' hsame).attributeName hname
  rw [attributeName_skip] at hname'
  rw [attributeSelector, hname']
  dsimp only [bind, Except.bind] at hread ⊢
  cases hrest.ahead with
  | ended hc hd =>
    rw [hc] at hread
    rw [hd]
    exact hread
  | found hc hd _ hsimilar hmore =>
    rw [hc] at hread
    rw [hd]
    dsimp only at hread ⊢
    rw [← hsimilar.head_eq]
    split at hread
    · cases hread
    · obtain ⟨⟨value, behind⟩, hvalue, hread⟩ := bind_eq_ok hread
      obtain ⟨behind', hvalue', hbehind⟩ := hmore.attributeValue hvalue
      obtain ⟨⟨flag, last⟩, hflag, hread⟩ := bind_eq_ok hread
      obtain ⟨last', hflag', hlast⟩ := hbehind.caseFlag hflag
      obtain ⟨_, hfinished, hread⟩ := bind_eq_ok hread
      rw [hvalue']
      dsimp only
      rw [hflag']
      dsimp only
      rw [hlast.finished hfinished]
      exact hread

/-! ## Positions -/

section

variable {nth : Nth} {k sign : Int} {name full : List Char}

theorem nth_skip (cs : List Component) : Nth.skip cs = skip cs := rfl

theorem Alike.readUnsigned (h : Alike [] [] cs ds)
    (hread : Nth.readUnsigned k sign cs = .ok (nth, rest)) :
    ∃ rest', Nth.readUnsigned k sign ds = .ok (nth, rest') ∧ Alike [] [] rest rest' := by
  rw [Nth.readUnsigned, nth_skip] at hread
  rw [Nth.readUnsigned, nth_skip]
  split at hread
  · cases hread
  · next hc =>
    cases hread
    obtain ⟨y, more, hd, hmore⟩ := h.token_ahead hc rfl
    exact ⟨more, by rw [hd], hmore⟩
  · cases hread

theorem Alike.readOffset (h : Alike [] [] cs ds)
    (hread : Nth.readOffset k cs = .ok (nth, rest)) :
    ∃ rest', Nth.readOffset k ds = .ok (nth, rest') ∧ Alike [] [] rest rest' := by
  rw [Nth.readOffset, nth_skip] at hread
  rw [Nth.readOffset, nth_skip]
  split at hread
  · next hc =>
    obtain ⟨y, more, hd, hmore⟩ := h.token_ahead hc rfl
    rw [hd]
    exact hmore.readUnsigned hread
  · next hc =>
    obtain ⟨y, more, hd, hmore⟩ := h.token_ahead hc rfl
    rw [hd]
    exact hmore.readUnsigned hread
  · next hc =>
    cases hread
    obtain ⟨y, more, hd, hmore⟩ := h.token_ahead hc rfl
    exact ⟨more, by rw [hd], hmore⟩
  · next hplus hminus hnumber =>
    cases hread
    refine ⟨ds, ?_, h⟩
    split
    · next hd => exact (h.no_token_ahead hd rfl hplus).elim
    · next hd => exact (h.no_token_ahead hd rfl hminus).elim
    · next hd => exact (h.no_token_ahead hd rfl (hnumber _ _)).elim
    · rfl

theorem Alike.readName (h : Alike [] [] cs ds)
    (hread : Nth.readName k name full cs = .ok (nth, rest)) :
    ∃ rest', Nth.readName k name full ds = .ok (nth, rest') ∧ Alike [] [] rest rest' := by
  rw [Nth.readName] at hread
  rw [Nth.readName]
  split at hread
  · next hname =>
    rw [if_pos hname]
    exact h.readOffset hread
  · next hname =>
    rw [if_neg hname]
    split at hread
    · next hdash =>
      rw [if_pos hdash]
      exact h.readUnsigned hread
    · next hdash =>
      rw [if_neg hdash]
      split at hread
      · next hdigits =>
        cases hread
        exact ⟨ds, rfl, h⟩
      · cases hread

theorem Alike.readKeyword (h : Alike [] [] cs ds)
    (hread : Nth.readKeyword name cs = .ok (nth, rest)) :
    ∃ rest', Nth.readKeyword name ds = .ok (nth, rest') ∧ Alike [] [] rest rest' := by
  unfold Nth.readKeyword at hread ⊢
  split at hread
  · next heven =>
    cases hread
    exact ⟨ds, by rw [if_pos heven], h⟩
  · next heven =>
    rw [if_neg heven]
    split at hread
    · next hodd =>
      cases hread
      exact ⟨ds, by rw [if_pos hodd], h⟩
    · next hodd =>
      rw [if_neg hodd]
      split at hread
      · exact h.readName hread
      · exact h.readName hread

/-- After a plus sign a name has to follow, with nothing but comments between. -/
theorem readFront_plus {text : List Char} (hc : skip cs = .token ⟨.delim '+', text⟩ :: rest) :
    Nth.readFront cs = match skipComments rest with
      | [] => .error .ended
      | .token ⟨.ident name, _⟩ :: rest => Nth.readName 1 name.toList name.toList rest
      | c :: _ => .error (.unexpected c.head) := by
  rw [Nth.readFront, nth_skip, hc]
  rfl

theorem Alike.readFront (h : Alike [] [] cs ds)
    (hread : Nth.readFront cs = .ok (nth, rest)) :
    ∃ rest', Nth.readFront ds = .ok (nth, rest') ∧ Alike [] [] rest rest' := by
  rw [Nth.readFront, nth_skip] at hread
  split at hread
  · cases hread
  · next hc =>
    cases hread
    obtain ⟨y, more, hd, hmore⟩ := h.token_ahead hc rfl
    exact ⟨more, by rw [Nth.readFront, nth_skip, hd], hmore⟩
  · next hc =>
    obtain ⟨y, more, hd, hmore⟩ := h.token_ahead hc rfl
    rw [Nth.readFront, nth_skip, hd]
    exact hmore.readName hread
  · next hc =>
    obtain ⟨y, more, hd, hmore⟩ := h.token_ahead hc rfl
    rw [Nth.readFront, nth_skip, hd]
    exact hmore.readKeyword hread
  · next hc =>
    obtain ⟨y, more, hd, hmore⟩ := h.token_ahead hc rfl
    rw [readFront_plus hd]
    split at hread
    · cases hread
    · next hname =>
      obtain ⟨z, behind, hname', hbehind⟩ := hmore.token_next hname rfl
      rw [hname']
      exact hbehind.readName hread
    · cases hread
  · cases hread

end

theorem readFront_skip (cs : List Component) : Nth.readFront (skip cs) = Nth.readFront cs := by
  rw [Nth.readFront, Nth.readFront, nth_skip, nth_skip, skip_skip]

theorem nth_of_alike {body body' : List Component} (hopened : ∀ c ∈ body, c.IsOpened)
    (hopened' : ∀ d ∈ body', d.IsOpened) (hsame : senses none body = senses none body') {nth : Nth}
    (hread : Nth.read body = .ok nth) : Nth.read body' = .ok nth := by
  obtain ⟨⟨found, rest⟩, hfront, hread⟩ := bind_eq_ok hread
  rw [← readFront_skip] at hfront
  obtain ⟨rest', hfront', hrest⟩ := (alike_skip hopened hopened' hsame).readFront hfront
  rw [readFront_skip] at hfront'
  rw [Nth.read, hfront']
  dsimp only [bind, Except.bind] at hread ⊢
  rw [nth_skip] at hread ⊢
  split at hread
  · next hc =>
    rw [hrest.skip_nil hc]
    exact hread
  · cases hread

/-! ## Compounds -/

theorem lowerWord_of_keepsText {name : String} (h : keepsText (.function name) = true) :
    Text.lowerWord name = "lang" ∨ Text.lowerWord name = "dir" := by
  have hmem : Text.lowerWord name ∈ dynamicFunctions := List.contains_iff_mem.1 h
  simpa [dynamicFunctions] using hmem

theorem not_sameWord_of_keepsText {name : String} (h : keepsText (.function name) = true) :
    ¬Text.sameWord name "not" = true := by
  intro hnot
  have hword : Text.lowerWord name = Text.lowerWord "not" := by
    rw [Text.lowerWord, Text.lowerWord, eq_of_beq hnot]
  rcases lowerWord_of_keepsText h with heq | heq <;> rw [hword] at heq <;>
    exact absurd heq (by decide)

theorem pseudoFunction_of_alike {name : String} {body body' : List Component}
    (h : AlikeBodies (.function name) body body') {s : SimpleSelector}
    (hread : pseudoFunction name body = .ok s) : pseudoFunction name body' = .ok s := by
  have hsame := h.same
  rw [SameBody] at hsame
  rw [pseudoFunction] at hread ⊢
  split at hsame
  · next hkeeps =>
    have hnone : Counting.all.find? (·.name == Text.lowerWord name) = none := by
      rcases lowerWord_of_keepsText hkeeps with heq | heq <;> rw [heq] <;> decide
    rw [hnone] at hread ⊢
    dsimp only at hread ⊢
    rwa [← hsame]
  · next hkeeps =>
    have hkeeps : ¬dynamicFunctions.contains (Text.lowerWord name) = true := hkeeps
    split at hread
    · next counting hcounting =>
      cases hnth : Nth.read body with
      | error fault =>
        rw [hnth] at hread
        cases hread
      | ok nth =>
        rw [hnth] at hread
        rw [nth_of_alike h.opened h.opened' hsame hnth]
        exact hread
    · rw [if_neg hkeeps] at hread
      cases hread

theorem Alike.pseudoElement (h : Alike tail tail' cs ds) {s : SimpleSelector}
    (hread : pseudoElement cs = .ok (s, rest)) :
    ∃ rest', pseudoElement ds = .ok (s, rest') ∧ Alike tail tail' rest rest' := by
  rw [SelectorReader.pseudoElement] at hread
  rw [SelectorReader.pseudoElement]
  split at hread
  · cases hread
  · next hc =>
    cases hread
    obtain ⟨y, more, hd, hmore⟩ := h.token_next hc rfl
    exact ⟨more, by rw [hd], hmore⟩
  · cases hread

theorem not_keepsText_of_square {t : Token} (h : t.opens? = some .square) :
    keepsText t = false := by
  cases t <;> first | rfl | cases h

/-- Steps that go on with what says the same. -/
inductive Step.Alike (tail tail' : List Component) : Step → Step → Prop
  | simple (s : SimpleSelector) {rest rest' : List Component}
      (hrest : SelectorReader.Alike tail tail' rest rest') :
      Step.Alike tail tail' (.simple s rest) (.simple s rest')
  | negation {body body' rest rest' : List Component} (hopened : ∀ c ∈ body, c.IsOpened)
      (hopened' : ∀ d ∈ body', d.IsOpened) (hsame : senses none body = senses none body')
      (hrest : SelectorReader.Alike tail tail' rest rest') :
      Step.Alike tail tail' (.negation body rest) (.negation body' rest')
  | stop : Step.Alike tail tail' .stop .stop

section

variable (h : Alike tail tail' cs ds) {found : Step}
include h

theorem Alike.afterColon (hread : afterColon cs = .ok found) :
    ∃ found', afterColon ds = .ok found' ∧ found.Alike tail tail' found' := by
  rw [SelectorReader.afterColon] at hread
  rw [SelectorReader.afterColon]
  split at hread
  · cases hread
  · next hc =>
    obtain ⟨y, more, hd, hmore⟩ := h.token_next hc rfl
    obtain ⟨⟨s, behind⟩, hs, rfl⟩ := map_eq_ok hread
    obtain ⟨behind', hs', hbehind⟩ := hmore.pseudoElement hs
    rw [hd]
    dsimp only
    rw [hs']
    exact ⟨_, rfl, .simple s hbehind⟩
  · next hc =>
    obtain ⟨y, more, hd, hmore⟩ := h.token_next hc rfl
    obtain ⟨s, hs, rfl⟩ := map_eq_ok hread
    rw [hd]
    dsimp only
    rw [hs]
    exact ⟨_, rfl, .simple s hmore⟩
  · next name _ _ body _ _ hc =>
    obtain ⟨y, body', closer', more, hd, hbodies, hmore⟩ := h.block_next hc
    rw [hd]
    dsimp only
    split at hread
    · next hnot =>
      cases hread
      have hkeeps : ¬keepsText (.function name) = true :=
        fun hkeeps => not_sameWord_of_keepsText hkeeps hnot
      have hsame := hbodies.same
      rw [SameBody, if_neg hkeeps] at hsame
      rw [if_pos hnot]
      exact ⟨_, rfl, .negation hbodies.opened hbodies.opened' hsame hmore⟩
    · next hnot =>
      obtain ⟨s, hs, rfl⟩ := map_eq_ok hread
      rw [if_neg hnot, pseudoFunction_of_alike hbodies hs]
      exact ⟨_, rfl, .simple s hmore⟩
  · cases hread

theorem Alike.afterStop (hread : afterStop cs = .ok found) :
    ∃ found', afterStop ds = .ok found' ∧ found.Alike tail tail' found' := by
  rw [SelectorReader.afterStop] at hread
  rw [SelectorReader.afterStop]
  split at hread
  · cases hread
  · next hc =>
    cases hread
    obtain ⟨y, more, hd, hmore⟩ := h.token_next hc rfl
    rw [hd]
    exact ⟨_, rfl, .simple _ hmore⟩
  · cases hread

theorem Alike.step {isFirst : Bool} (hread : step isFirst cs = .ok found) :
    ∃ found', step isFirst ds = .ok found' ∧ found.Alike tail tail' found' := by
  rw [SelectorReader.step] at hread
  split at hread
  · next hc =>
    obtain ⟨y, more, hd, hmore⟩ := h.token_next hc rfl
    rw [SelectorReader.step, hd]
    dsimp only
    split at hread
    · next hfirst =>
      cases hread
      rw [if_pos hfirst]
      exact ⟨_, rfl, .simple _ hmore⟩
    · cases hread
  · next hc =>
    obtain ⟨y, more, hd, hmore⟩ := h.token_next hc rfl
    split at hread
    · next hfirst =>
      cases hread
      refine ⟨_, ?_, .simple _ hmore⟩
      rw [SelectorReader.step, hd]
      exact if_pos hfirst
    · cases hread
  · next hc =>
    cases hread
    obtain ⟨y, more, hd, hmore⟩ := h.token_next hc rfl
    rw [SelectorReader.step, hd]
    exact ⟨_, rfl, .simple _ hmore⟩
  · next hc =>
    obtain ⟨y, more, hd, hmore⟩ := h.token_next hc rfl
    rw [SelectorReader.step, hd]
    exact hmore.afterStop hread
  · next hc =>
    obtain ⟨y, more, hd, hmore⟩ := h.token_next hc rfl
    rw [SelectorReader.step, hd]
    exact hmore.afterColon hread
  · next opener body _ _ hc =>
    obtain ⟨t, x⟩ := opener
    obtain ⟨y, body', closer', more, hd, hbodies, hmore⟩ := h.block_next hc
    have hkeeps : ¬keepsText t = true := by
      cases h.opened _ (mem_of_skipComments hc) with
      | block hopens _ => rw [not_keepsText_of_square hopens]; exact Bool.false_ne_true
    have hsame := hbodies.same
    rw [SameBody, if_neg hkeeps] at hsame
    obtain ⟨a, ha, rfl⟩ := map_eq_ok hread
    rw [SelectorReader.step, hd]
    dsimp only
    rw [attributeSelector_of_alike hbodies.opened hbodies.opened' hsame ha]
    exact ⟨_, rfl, .simple _ hmore⟩
  · next hident huniversal hid hstop hcolon hsquare =>
    cases hread
    refine ⟨.stop, ?_, .stop⟩
    rw [SelectorReader.step]
    -- what another step begins with would be in front of both lists
    split
    · next hd => exact (h.no_token_next hd rfl (hident _)).elim
    · next hd => exact (h.no_token_next hd rfl huniversal).elim
    · next hd => exact (h.no_token_next hd rfl (hid _)).elim
    · next hd => exact (h.no_token_next hd rfl hstop).elim
    · next hd => exact (h.no_token_next hd rfl hcolon).elim
    · next opener body _ _ hd =>
      obtain ⟨t, x⟩ := opener
      obtain ⟨_, _, _, _, hc, -⟩ := h.symm.block_next hd
      exact absurd hc (hsquare _ _ _ _)
    · rfl

end

/-! ### Negations -/

section

variable {isFirst : Bool} {body more : List Component} (h : Alike tail tail' cs ds)
include h

theorem Alike.step_simple {s : SimpleSelector}
    (hs : SelectorReader.step isFirst cs = .ok (.simple s more)) :
    ∃ more', SelectorReader.step isFirst ds = .ok (.simple s more') ∧
      Alike tail tail' more more' := by
  obtain ⟨_, hs', hfound⟩ := h.step hs
  cases hfound with
  | simple _ hmore => exact ⟨_, hs', hmore⟩

theorem Alike.step_negation (hs : SelectorReader.step isFirst cs = .ok (.negation body more)) :
    ∃ body' more', SelectorReader.step isFirst ds = .ok (.negation body' more') ∧
      ((∀ c ∈ body, c.IsOpened) ∧ (∀ d ∈ body', d.IsOpened) ∧
        senses none body = senses none body') ∧ Alike tail tail' more more' := by
  obtain ⟨_, hs', hfound⟩ := h.step hs
  cases hfound with
  | negation hopened hopened' hsame hmore =>
    exact ⟨_, _, hs', ⟨hopened, hopened', hsame⟩, hmore⟩

theorem Alike.step_stop (hs : SelectorReader.step isFirst cs = .ok .stop) :
    SelectorReader.step isFirst ds = .ok .stop := by
  obtain ⟨_, hs', hfound⟩ := h.step hs
  cases hfound
  exact hs'

end

mutual

theorem SimplesRead.alike {isFirst : Bool} {cs rest : List Component} {l : List SimpleSelector}
    (hread : SimplesRead isFirst cs l rest) {tail tail' ds : List Component}
    (h : Alike tail tail' cs ds) :
    ∃ rest', SimplesRead isFirst ds l rest' ∧ Alike tail tail' rest rest' := by
  cases hread with
  | stop hs => exact ⟨ds, .stop (h.step_stop hs), h⟩
  | simple hs hothers =>
    obtain ⟨more', hs', hmore⟩ := h.step_simple hs
    obtain ⟨rest', hothers', hrest⟩ := hothers.alike hmore
    exact ⟨rest', .simple hs' hothers', hrest⟩
  | negation hs hbody hothers =>
    obtain ⟨body', more', hs', ⟨hopened, hopened', hsame⟩, hmore⟩ := h.step_negation hs
    obtain ⟨rest', hothers', hrest⟩ := hothers.alike hmore
    exact ⟨rest', .negation hs' (hbody.of_same hopened hopened' hsame) hothers', hrest⟩

theorem NegationRead.of_same {body : List Component} {options : List CompoundSelector}
    (hread : NegationRead body options) {body' : List Component}
    (hopened : ∀ c ∈ body, c.IsOpened) (hopened' : ∀ d ∈ body', d.IsOpened)
    (hsame : senses none body = senses none body') : NegationRead body' options := by
  have hfront : untilComma body <+: body := List.takeWhile_prefix _
  have hfront' : untilComma body' <+: body' := List.takeWhile_prefix _
  have hpart := alike_skip (fun c hc => hopened c (hfront.subset hc))
    (fun d hd => hopened' d (hfront'.subset hd))
    (by rw [senses_untilComma, senses_untilComma, hsame])
  have hbehind := behindComma?_of_same hsame
  cases hread with
  | last h hne hrest hlast =>
    obtain ⟨rest', h', halike⟩ := h.alike hpart
    rw [hlast] at hbehind
    exact .last h' hne (halike.finished hrest) (Option.map_eq_none_iff.1 hbehind.symm)
  | more h hne hrest hmore hothers =>
    obtain ⟨rest', h', halike⟩ := h.alike hpart
    rw [hmore] at hbehind
    obtain ⟨more', hmore', hsenses⟩ := Option.map_eq_some_iff.1 hbehind.symm
    exact .more h' hne (halike.finished hrest) hmore'
      (hothers.of_same (fun c hc => hopened c ((suffix_behindComma hmore).subset hc))
        (fun d hd => hopened' d ((suffix_behindComma hmore').subset hd))
        (senses_none_eq hsenses.symm))

end

/-! ## Complex selectors -/

theorem Alike.compound (h : Alike tail tail' cs ds) {l : CompoundSelector}
    (hread : compound cs = .ok (l, rest)) :
    ∃ rest', compound ds = .ok (l, rest') ∧ Alike tail tail' rest rest' := by
  rw [SelectorReader.compound] at hread
  rw [SelectorReader.compound]
  split at hread
  · cases hread
  · cases hread
  · next hne hs =>
    cases hread
    obtain ⟨rest', hread', hrest⟩ := (SimplesRead.of_simples hs).alike h
    rw [hread'.simples_eq_ok]
    refine ⟨rest', ?_, hrest⟩
    split
    · next heq => cases heq
    · next heq =>
      cases heq
      exact absurd rfl hne
    · next heq =>
      cases heq
      rfl

theorem Similar.combinator?_eq_some (h : Similar c d) {k : Combinator}
    (hc : combinator? c = some k) : combinator? d = some k := by
  unfold combinator? at hc
  split at hc <;> cases hc <;> cases h <;> rfl

theorem Similar.combinator?_eq_none (h : Similar c d) (hc : combinator? c = none) :
    combinator? d = none := by
  cases hd : combinator? d with
  | none => rfl
  | some k =>
    rw [h.symm.combinator?_eq_some hd] at hc
    cases hc

theorem link?_of_isEnd (h : IsEnd (SelectorReader.skip cs)) : link? cs = .ok none := by
  rw [link?]
  rcases h with hc | ⟨x, rest, hc⟩
  · rw [hc]
  · rw [hc]
    rfl

/-- A selector ends in both lists, or goes on behind the same combinator. -/
inductive LinkAlike (tail tail' : List Component) :
    Option (Combinator × List Component) → Option (Combinator × List Component) → Prop
  | ended : LinkAlike tail tail' none none
  | linked (k : Combinator) {rest rest' : List Component} (h : Alike tail tail' rest rest') :
      LinkAlike tail tail' (some (k, rest)) (some (k, rest'))

theorem Alike.link? (h : Alike tail tail' cs ds) {found : Option (Combinator × List Component)}
    (hread : link? cs = .ok found) :
    ∃ found', link? ds = .ok found' ∧ LinkAlike tail tail' found found' := by
  cases h.ahead with
  | ended hc hd =>
    rw [link?_of_isEnd (hc ▸ h.ends)] at hread
    cases hread
    exact ⟨none, link?_of_isEnd (hd ▸ h.ends'), .ended⟩
  | found hc hd hgap hsimilar hrest =>
    have hskip := h.skip
    rw [hc, hd] at hskip
    rw [SelectorReader.link?, hc] at hread
    rw [SelectorReader.link?, hd]
    dsimp only at hread ⊢
    split at hread
    · next k hk =>
      cases hread
      rw [hsimilar.combinator?_eq_some hk]
      exact ⟨_, rfl, .linked k hrest⟩
    · next hnone =>
      rw [hsimilar.combinator?_eq_none hnone]
      dsimp only
      rw [← hsimilar.isComma_eq, show (ds.takeWhile Component.isSpacing).any Component.isBlank = _
        from hgap.symm]
      split at hread
      · next hcomma =>
        cases hread
        rw [if_pos hcomma]
        exact ⟨none, rfl, .ended⟩
      · next hcomma =>
        rw [if_neg hcomma]
        split at hread
        · next hblank =>
          cases hread
          refine ⟨_, if_pos hblank, .linked _ hskip⟩
        · cases hread

theorem ChainRead.alike {left s : ComplexSelector} {cs rest : List Component}
    (hread : ChainRead left cs s rest) {tail tail' ds : List Component}
    (h : Alike tail tail' cs ds) :
    ∃ rest', ChainRead left ds s rest' ∧ Alike tail tail' rest rest' := by
  induction hread generalizing ds with
  | stop hl =>
    obtain ⟨_, hl', hfound⟩ := h.link? hl
    cases hfound
    exact ⟨ds, .stop hl', h⟩
  | link hl hc _ ih =>
    obtain ⟨_, hl', hfound⟩ := h.link? hl
    cases hfound with
    | linked _ hmore =>
      obtain ⟨behind', hc', hbehind⟩ := hmore.skip.compound hc
      obtain ⟨rest', hrest', halike⟩ := ih hbehind
      exact ⟨rest', .link hl' hc' hrest', halike⟩

theorem Alike.complex (h : Alike tail tail' cs ds) {s : ComplexSelector}
    (hread : complex cs = .ok (s, rest)) :
    ∃ rest', complex ds = .ok (s, rest') ∧ Alike tail tail' rest rest' := by
  rw [SelectorReader.complex] at hread
  rw [SelectorReader.complex]
  split at hread
  · cases hread
  · next hc =>
    obtain ⟨behind, hc', hbehind⟩ := h.skip.compound hc
    obtain ⟨rest', hread', hrest⟩ := (ChainRead.of_chain hread).alike hbehind
    rw [hc']
    exact ⟨rest', hread'.chain_eq_ok, hrest⟩

theorem complex_skip (cs : List Component) : complex (skip cs) = complex cs := by
  rw [complex, complex, skip_skip]

end SelectorReader
end SvgCompact
