import SvgCompact.Proofs.Css.Declarations
import SvgCompact.Proofs.Css.Gluing
import SvgCompact.Stylesheet.Reader

/-!
Pieces of a style sheet that can be written side by side.

Selectors, declarations, preludes and bodies are cut out of a text, and written with
fresh marks between them.  A piece stays apart when nothing is open at its end and it
holds, outside of blocks, nothing at which reading would stop.
-/

namespace SvgCompact
namespace Stylesheet

open Css

/-! ## Pieces -/

/-- A block in curly brackets, which ends a selector list or a prelude. -/
def isBody : Component → Bool
  | .block _ .curly _ _ => true
  | _ => false

/-- What ends a declaration or cuts a body short. -/
def endsDeclaration (c : Component) : Bool :=
  isStray c || c.isSemicolon

def endsPrelude (c : Component) : Bool :=
  endsDeclaration c || isBody c

def endsSelector (c : Component) : Bool :=
  endsPrelude c || c.isComma

/-- A whole text without a component at which reading stops. -/
structure IsPiece (stops : Component → Bool) (s : List Char) : Prop where
  whole : IsWhole s
  unbroken : ∀ c ∈ components s, stops c = false

/-- A text that is left alone when comments are dropped from it. -/
def HasNoComment (s : List Char) : Prop :=
  uncommented s = s

variable {stops : Component → Bool} {s : List Char}

/-- A piece by computation. -/
theorem isPiece_iff : IsPiece stops s ↔
    ((lexemes (s ++ ['\x7d'])).getLast?.map Lexeme.text == some ['\x7d'] &&
      ((lexemes s).foldl Component.Nesting.add Component.Nesting.empty).frames.isEmpty &&
      (components s).all (!stops ·)) = true := by
  simp only [Bool.and_eq_true, beq_iff_eq, List.isEmpty_iff, List.all_eq_true,
    Bool.not_eq_true']
  exact ⟨fun h => ⟨⟨h.whole.apart, h.whole.closed⟩, h.unbroken⟩,
    fun h => ⟨⟨h.1.1, h.1.2⟩, h.2⟩⟩

theorem not_closing_of_isStray {cs : List Component} (h : ∀ c ∈ cs, isStray c = false) :
    ∀ l, .token l ∈ cs → l.token ≠ .closing .curly := by
  intro l hl hclosing
  have hstray := h _ hl
  obtain ⟨token, text⟩ := l
  obtain rfl : token = .closing .curly := hclosing
  cases hstray

theorem endsDeclaration_iff {c : Component} :
    endsDeclaration c = false ↔ isStray c = false ∧ c.isSemicolon = false := by
  rw [endsDeclaration, Bool.or_eq_false_iff]

theorem endsPrelude_iff {c : Component} :
    endsPrelude c = false ↔ endsDeclaration c = false ∧ isBody c = false := by
  rw [endsPrelude, Bool.or_eq_false_iff]

theorem endsSelector_iff {c : Component} :
    endsSelector c = false ↔ endsPrelude c = false ∧ c.isComma = false := by
  rw [endsSelector, Bool.or_eq_false_iff]

/-! ### Pieces in a row -/

/-- A character that is a token of its own and stands between pieces. -/
structure IsSeparator (mark : Char) (token : Token) : Prop where
  isMark : isMark mark = true
  start : ∀ cs, start mark cs = (token, cs)
  opens : token.opens? = none

theorem isSeparator_comma : IsSeparator ',' .comma :=
  ⟨by decide, fun _ => rfl, rfl⟩

theorem isSeparator_semicolon : IsSeparator ';' .semicolon :=
  ⟨by decide, fun _ => rfl, rfl⟩

variable {mark : Char} {token : Token}

theorem IsSeparator.isClosed (h : IsSeparator mark token) : IsClosed [mark] :=
  isClosed_single h.start h.opens

theorem IsSeparator.components_append (h : IsSeparator mark token) (hs : IsWhole s)
    (rest : List Char) :
    components (s ++ mark :: rest) =
      components s ++ .token ⟨token, [mark]⟩ :: components rest := by
  rw [hs.components_append (isTail_cons h.isMark rest), components_of_start h.start h.opens]

theorem IsSeparator.isWhole_intercalate (h : IsSeparator mark token) {texts : List (List Char)}
    (htexts : ∀ s ∈ texts, IsWhole s) : IsWhole ([mark].intercalate texts) := by
  induction texts with
  | nil => exact isClosed_nil.isWhole
  | cons s rest ih =>
    obtain ⟨hs, hrest⟩ := List.forall_mem_cons.1 htexts
    cases rest with
    | nil => rwa [List.intercalate_singleton]
    | cons next rest =>
      rw [List.intercalate_cons_cons]
      exact (hs.append_isClosed h.isMark h.isClosed).append_isWhole (ih hrest)

theorem IsSeparator.components_intercalate (h : IsSeparator mark token)
    {texts : List (List Char)} (htexts : ∀ s ∈ texts, IsWhole s) :
    components ([mark].intercalate texts) =
      [.token ⟨token, [mark]⟩].intercalate (texts.map components) := by
  induction texts with
  | nil => exact components_nil
  | cons s rest ih =>
    obtain ⟨hs, hrest⟩ := List.forall_mem_cons.1 htexts
    cases rest with
    | nil => rw [List.intercalate_singleton, List.map_singleton, List.intercalate_singleton]
    | cons next rest =>
      rw [List.intercalate_cons_cons, List.append_assoc, List.singleton_append,
        h.components_append hs, ih hrest, List.map_cons, List.map_cons, List.map_cons,
        List.intercalate_cons_cons, List.append_assoc, List.singleton_append]

theorem mem_intercalate_cases {α : Type} {separator x : α} {parts : List (List α)}
    (h : x ∈ [separator].intercalate parts) : x = separator ∨ ∃ part ∈ parts, x ∈ part := by
  induction parts with
  | nil => cases h
  | cons part rest ih =>
    cases rest with
    | nil =>
      rw [List.intercalate_singleton] at h
      exact .inr ⟨part, List.mem_cons_self .., h⟩
    | cons next rest =>
      rw [List.intercalate_cons_cons, List.mem_append, List.mem_append,
        List.mem_singleton] at h
      rcases h with (h | h) | h
      · exact .inr ⟨part, List.mem_cons_self .., h⟩
      · exact .inl h
      · obtain hsep | ⟨p, hp, hx⟩ := ih h
        · exact .inl hsep
        · exact .inr ⟨p, List.mem_cons_of_mem _ hp, hx⟩

/-- Pieces in a row are a piece wherever the mark between them may stand. -/
theorem IsSeparator.isPiece_intercalate (h : IsSeparator mark token)
    (hmark : stops (.token ⟨token, [mark]⟩) = false) {texts : List (List Char)}
    (htexts : ∀ s ∈ texts, IsPiece stops s) : IsPiece stops ([mark].intercalate texts) where
  whole := h.isWhole_intercalate fun s hs => (htexts s hs).whole
  unbroken c hc := by
    rw [h.components_intercalate fun s hs => (htexts s hs).whole] at hc
    rcases mem_intercalate_cases hc with rfl | ⟨part, hpart, hc⟩
    · exact hmark
    · obtain ⟨s, hs, rfl⟩ := List.mem_map.1 hpart
      exact (htexts s hs).unbroken c hc

/-- What is joined by marks is cut at them. -/
theorem IsSeparator.splitOnP_components (h : IsSeparator mark token)
    (hmark : stops (.token ⟨token, [mark]⟩) = true) {texts : List (List Char)}
    (htexts : ∀ s ∈ texts, IsPiece stops s) (hne : texts ≠ []) :
    (components ([mark].intercalate texts)).splitOnP stops = texts.map components := by
  rw [h.components_intercalate fun s hs => (htexts s hs).whole,
    Text.splitOnP_intercalate hmark _ (by simpa using hne)]
  intro part hpart
  obtain ⟨s, hs, rfl⟩ := List.mem_map.1 hpart
  exact (htexts s hs).unbroken

theorem IsPiece.mono {weaker : Component → Bool} (h : IsPiece stops s)
    (hstops : ∀ c, stops c = false → weaker c = false) : IsPiece weaker s where
  whole := h.whole
  unbroken c hc := hstops c (h.unbroken c hc)

/-! ## Declarations -/

/-- A declaration that stays apart from those around it. -/
structure IsApart (d : Declaration) : Prop where
  piece : IsPiece endsDeclaration d.write
  uncommented : HasNoComment d.write

theorem declarationsOf_write {ds : List Declaration} (hapart : ∀ d ∈ ds, IsApart d)
    (hread : ∀ d ∈ ds, readDeclaration? d.write = some d) :
    declarationsOf (components (writeDeclarations ds)) = ds := by
  by_cases hne : ds = []
  · subst hne
    rw [writeDeclarations, List.map_nil, List.intercalate_nil, components_nil]
    cbv
  · have hpieces : ∀ s ∈ ds.map Declaration.write, IsPiece Component.isSemicolon s := by
      intro s hs
      obtain ⟨d, hd, rfl⟩ := List.mem_map.1 hs
      exact (hapart d hd).piece.mono fun c hc => (endsDeclaration_iff.1 hc).2
    have hone (d : Declaration) (hd : d ∈ ds) :
        readDeclaration? (uncommented (Component.textOf (components d.write))) = some d := by
      rw [textOf_components, (hapart d hd).uncommented, hread d hd]
    rw [writeDeclarations, declarationsOf,
      isSeparator_semicolon.splitOnP_components rfl hpieces (by simpa using hne), List.map_map,
      List.filterMap_map]
    exact (List.filterMap_congr hone).trans List.filterMap_some

theorem isPiece_writeDeclarations {ds : List Declaration} (hapart : ∀ d ∈ ds, IsApart d) :
    IsPiece isStray (writeDeclarations ds) := by
  refine isSeparator_semicolon.isPiece_intercalate rfl ?_
  intro s hs
  obtain ⟨d, hd, rfl⟩ := List.mem_map.1 hs
  exact (hapart d hd).piece.mono fun c hc => (endsDeclaration_iff.1 hc).1

/-! ## Selectors -/

/-- Selectors that stay apart from each other and from the body behind them, and at
which a style rule begins. -/
structure IsSelectorList (selectors : List String) : Prop where
  pieces : ∀ s ∈ selectors, IsPiece endsSelector s.toList
  uncommented : ∀ s ∈ selectors, HasNoComment s.toList
  begins : ∃ c ∈ (components ([','].intercalate (selectors.map String.toList))).head?,
    Begun.first c = .selectors c.text
  ends : ∀ c ∈ ([','].intercalate (selectors.map String.toList)).getLast?, (c == '\x7b') = false

theorem splitSelectors_intercalate {selectors : List String} (h : IsSelectorList selectors)
    (hne : selectors ≠ []) (hsqueezed : ∀ s ∈ selectors, Text.squeeze s.toList = s.toList) :
    splitSelectors ([','].intercalate (selectors.map String.toList)) = selectors := by
  have hpieces : ∀ s ∈ selectors.map String.toList, IsPiece Component.isComma s := by
    intro s hs
    obtain ⟨x, hx, rfl⟩ := List.mem_map.1 hs
    exact (h.pieces x hx).mono fun c hc => (endsSelector_iff.1 hc).2
  rw [splitSelectors, isSeparator_comma.splitOnP_components rfl hpieces (by simpa using hne),
    List.map_map, List.map_map]
  refine (List.map_congr_left fun s hs => ?_).trans (List.map_id' selectors)
  simp only [Function.comp_apply]
  rw [textOf_components, h.uncommented s hs, hsqueezed s hs, String.ofList_toList]

theorem isPiece_selectors {selectors : List String} (h : IsSelectorList selectors) :
    IsPiece endsPrelude ([','].intercalate (selectors.map String.toList)) := by
  refine isSeparator_comma.isPiece_intercalate rfl ?_
  intro s hs
  obtain ⟨x, hx, rfl⟩ := List.mem_map.1 hs
  exact (h.pieces x hx).mono fun c hc => (endsSelector_iff.1 hc).1

theorem selectorsOf_intercalate {selectors : List String} (h : IsSelectorList selectors)
    (hne : selectors ≠ []) (hsqueezed : ∀ s ∈ selectors, Text.squeeze s.toList = s.toList) :
    selectorsOf ([','].intercalate (selectors.map String.toList)) = selectors := by
  rw [selectorsOf, Text.trimEndBy_eq_self h.ends, splitSelectors_intercalate h hne hsqueezed]

/-! ## Heads of at-rules -/

/-- A name that is written as it stands. -/
structure IsPlainName (name : List Char) : Prop where
  begins : startsIdent name = true
  plain : ∀ c ∈ name, Css.isNameChar c = true

/-- The name and the prelude of an at-rule, with the mark behind them. -/
structure IsHead (mark : Char) (name prelude : String) : Prop where
  name : IsPlainName name.toList
  piece : IsPiece endsPrelude prelude.toList
  ends : ∀ c ∈ prelude.toList.getLast?, (c == mark) = false

theorem takeName_append {name rest : List Char} (hname : ∀ c ∈ name, Css.isNameChar c = true)
    (hrest : takeName rest = ([], rest)) : takeName (name ++ rest) = (name, rest) := by
  induction name with
  | nil => exact hrest
  | cons c cs ih =>
    obtain ⟨hc, hcs⟩ := List.forall_mem_cons.1 hname
    rw [List.cons_append, takeName, if_pos hc, ih hcs]

theorem IsPlainName.startsIdent_append {name : List Char} (h : IsPlainName name)
    (rest : List Char) : startsIdent (name ++ rest) = true := by
  cases name with
  | nil => exact absurd h.begins (by decide)
  | cons c cs =>
    have hbegins := h.begins
    have hplain := h.plain c (List.mem_cons_self ..)
    rw [startsIdent_cons] at hbegins
    rw [List.cons_append, startsIdent_cons]
    split at hbegins
    · next hhyphen =>
      rw [if_pos hhyphen]
      cases cs with
      | nil => cases hbegins
      | cons d ds => exact hbegins
    · next hhyphen =>
      rw [if_neg hhyphen]
      split at hbegins
      · next hslash =>
        subst hslash
        exact absurd hplain (by decide)
      · next hslash =>
        rw [if_neg hslash, hbegins]

theorem first_at {name rest : List Char} (hname : IsPlainName name)
    (hrest : takeName rest = ([], rest)) :
    first '@' (name ++ rest) = (⟨.atKeyword (String.ofList name), '@' :: name⟩, rest) := by
  have hstart : start '@' (name ++ rest) = (.atKeyword (String.ofList name), rest) := by
    rw [start_at, hname.startsIdent_append, if_pos rfl, takeName_append hname.plain hrest]
  simp [first, hstart]

theorem first_blank {s : List Char} (h : ∀ c ∈ s.head?, Text.isSpace c = false) :
    first ' ' s = (⟨.blank " ", [' ']⟩, s) := by
  have htake : s.takeWhile Text.isSpace = [] ∧ s.dropWhile Text.isSpace = s := by
    cases s with
    | nil => exact ⟨rfl, rfl⟩
    | cons c cs => simp [h c rfl]
  have hstart : start ' ' s = (.blank " ", s) := by
    have hblank : start ' ' s =
        (.blank (String.ofList (' ' :: s.takeWhile Text.isSpace)), s.dropWhile Text.isSpace) := rfl
    rw [hblank, htake.1, htake.2]
  exact first_of_start hstart

/-- The components of the head of an at-rule: its name, and its prelude behind a blank. -/
def headComponents (name prelude : String) : List Component :=
  .token ⟨.atKeyword name, '@' :: name.toList⟩ ::
    if prelude.isEmpty then []
    else .token ⟨.blank " ", [' ']⟩ :: components prelude.toList

variable {name prelude : String}

theorem endsPrelude_headComponents (h : IsHead mark name prelude) :
    ∀ c ∈ headComponents name prelude, endsPrelude c = false := by
  rw [headComponents]
  refine List.forall_mem_cons.2 ⟨rfl, ?_⟩
  split
  · exact List.forall_mem_nil _
  · exact List.forall_mem_cons.2 ⟨rfl, h.piece.unbroken⟩

/-- The prelude with the blank in front of it. -/
def spacedPrelude (prelude : String) : List Char :=
  if prelude.isEmpty then [] else ' ' :: prelude.toList

theorem takeName_spacedPrelude (prelude : String) {tail : List Char} (h : IsTail tail) :
    takeName (spacedPrelude prelude ++ tail) = ([], spacedPrelude prelude ++ tail) := by
  rw [spacedPrelude]
  split
  · exact takeName_tail h
  · simp [takeName, Css.isNameChar]

theorem first_head (h : IsHead mark name prelude) {tail : List Char} (htail : IsTail tail) :
    first '@' (name.toList ++ spacedPrelude prelude ++ tail) =
      (⟨.atKeyword name, '@' :: name.toList⟩, spacedPrelude prelude ++ tail) := by
  rw [List.append_assoc, first_at h.name (takeName_spacedPrelude prelude htail),
    String.ofList_toList]

theorem first_prelude (hne : prelude.isEmpty = false)
    (hsqueezed : Text.squeeze prelude.toList = prelude.toList) (tail : List Char) :
    first ' ' (prelude.toList ++ tail) = (⟨.blank " ", [' ']⟩, prelude.toList ++ tail) := by
  refine first_blank fun c hc => ?_
  cases hprelude : prelude.toList with
  | nil => simp_all
  | cons d ds =>
    rw [hprelude] at hc hsqueezed
    cases hc
    exact Text.not_isSpace_of_head?_squeeze (s := c :: ds) (by rw [hsqueezed]; rfl)

theorem isWhole_writeHead (h : IsHead mark name prelude)
    (hsqueezed : Text.squeeze prelude.toList = prelude.toList) :
    IsWhole (Rule.writeHead name prelude) := by
  refine .of_first (fun tail htail => first_head h htail) rfl ?_
  rw [spacedPrelude]
  split
  · exact isClosed_nil.isWhole
  · next hne =>
    exact .of_first (fun tail _ => first_prelude (by simpa using hne) hsqueezed tail) rfl
      h.piece.whole

theorem components_writeHead (h : IsHead mark name prelude)
    (hsqueezed : Text.squeeze prelude.toList = prelude.toList) :
    components (Rule.writeHead name prelude) = headComponents name prelude := by
  have hfirst := first_head h isTail_nil
  rw [List.append_nil, List.append_nil] at hfirst
  refine (components_of_first hfirst rfl).trans (congrArg _ ?_)
  rw [spacedPrelude]
  split
  · exact components_nil
  · next hne =>
    have hblank := first_prelude (by simpa using hne) hsqueezed []
    rw [List.append_nil] at hblank
    exact components_of_first hblank rfl

theorem isPiece_writeHead (h : IsHead mark name prelude)
    (hsqueezed : Text.squeeze prelude.toList = prelude.toList) :
    IsPiece endsPrelude (Rule.writeHead name prelude) where
  whole := isWhole_writeHead h hsqueezed
  unbroken := by
    rw [components_writeHead h hsqueezed]
    exact endsPrelude_headComponents h

end Stylesheet
end SvgCompact
