import Mathlib
import SvgCompact.Proofs.Css.Gluing
import SvgCompact.Proofs.Selector.Equations
import SvgCompact.Proofs.Selector.Leaves
import SvgCompact.Selector.Names
import SvgCompact.Selector.Reader

/-!
The names in the text of a selector.

Every class and every id that a selector names is among the names of the text it is
read from, and stays there when further texts are scanned (`scanned_of_read`).  Part of a
text has no names that the whole text does not have, where the part keeps the order and
leaves nothing out in the middle.
-/

namespace SvgCompact

namespace SelectorNames

open Css

structure Within (a b : SelectorNames) : Prop where
  classes : a.classes ⊆ b.classes
  ids : a.ids ⊆ b.ids

namespace Within

variable {a b c : SelectorNames}

theorem refl (a : SelectorNames) : a.Within a := ⟨fun _ => id, fun _ => id⟩

theorem trans (hab : a.Within b) (hbc : b.Within c) : a.Within c :=
  ⟨List.Subset.trans hab.classes hbc.classes, List.Subset.trans hab.ids hbc.ids⟩

theorem empty (a : SelectorNames) : SelectorNames.empty.Within a := ⟨nofun, nofun⟩

theorem append_left (a b : SelectorNames) : a.Within (a.append b) :=
  ⟨List.subset_append_left _ _, List.subset_append_left _ _⟩

theorem append_right (a b : SelectorNames) : b.Within (a.append b) :=
  ⟨List.subset_append_right _ _, List.subset_append_right _ _⟩

theorem append_mono (h : b.Within c) (a : SelectorNames) : (a.append b).Within (a.append c) :=
  ⟨fun _ hx => List.mem_append.2 ((List.mem_append.1 hx).imp_right (h.classes ·)),
    fun _ hx => List.mem_append.2 ((List.mem_append.1 hx).imp_right (h.ids ·))⟩

theorem addToken (afterStop : Bool) (token : Token) (a : SelectorNames) :
    a.Within (addToken afterStop token a) := by
  unfold SelectorNames.addToken
  split
  · split
    · exact ⟨List.subset_cons_self _ _, fun _ => id⟩
    · exact refl a
  · exact ⟨fun _ => id, List.subset_cons_self _ _⟩
  · exact ⟨fun _ => id, List.subset_cons_self _ _⟩
  · exact refl a

theorem addToken_mono (h : a.Within b) (afterStop : Bool) (token : Token) :
    (SelectorNames.addToken afterStop token a).Within
      (SelectorNames.addToken afterStop token b) := by
  unfold SelectorNames.addToken
  split
  · split
    · exact ⟨List.cons_subset_cons _ h.classes, h.ids⟩
    · exact h
  · exact ⟨h.classes, List.cons_subset_cons _ h.ids⟩
  · exact ⟨h.classes, List.cons_subset_cons _ h.ids⟩
  · exact h

end Within

/-! ## Parts of a text -/

/-- A full stop before the text only adds names. -/
theorem within_afterStop (afterStop : Bool) (cs : List Component) :
    (ofComponents false cs).Within (ofComponents afterStop cs) := by
  cases afterStop with
  | false => exact .refl _
  | true =>
    induction cs with
    | nil =>
      rw [ofComponents]
      exact .empty _
    | cons c rest ih =>
      cases c with
      | token lexeme =>
        rw [ofComponents, ofComponents]
        split
        · exact ih
        · unfold addToken
          split
          · exact ⟨List.subset_cons_self _ _, fun _ => id⟩
          all_goals exact .refl _
      | block opener bracket body closer =>
        rw [ofComponents, ofComponents]
        exact .refl _

theorem within_of_suffix {rest cs : List Component} (h : rest <:+ cs) :
    (ofComponents false rest).Within (ofComponents false cs) := by
  obtain ⟨front, rfl⟩ := h
  induction front with
  | nil => exact .refl _
  | cons c front ih =>
    refine ih.trans ?_
    cases c with
    | token lexeme =>
      rw [List.cons_append, ofComponents]
      split
      · exact .refl _
      · exact (within_afterStop _ _).trans (.addToken _ _ _)
    | block opener bracket body closer =>
      rw [List.cons_append, ofComponents]
      exact .append_right _ _

theorem within_of_front {front cs : List Component} (h : front <+: cs) (afterStop : Bool) :
    (ofComponents afterStop front).Within (ofComponents afterStop cs) := by
  obtain ⟨rest, rfl⟩ := h
  induction front generalizing afterStop with
  | nil =>
    rw [ofComponents]
    exact .empty _
  | cons c front ih =>
    cases c with
    | token lexeme =>
      rw [List.cons_append, ofComponents, ofComponents]
      split
      · exact ih afterStop
      · exact (ih _).addToken_mono _ _
    | block opener bracket body closer =>
      rw [List.cons_append, ofComponents, ofComponents]
      exact (ih false).append_mono _

theorem within_body (opener : Lexeme) (bracket : Bracket) (body : List Component)
    (closer : List Char) (rest : List Component) :
    (ofComponents false body).Within
      (ofComponents false (.block opener bracket body closer :: rest)) := by
  rw [ofComponents]
  exact .append_left _ _

/-- Comments in front do not matter, not even after a full stop. -/
theorem ofComponents_skipComments {cs : List Component} (h : ∀ c ∈ cs, c.IsOpened)
    (afterStop : Bool) :
    ofComponents afterStop (SelectorReader.skipComments cs) = ofComponents afterStop cs := by
  unfold SelectorReader.skipComments
  induction cs with
  | nil => rfl
  | cons c rest ih =>
    rw [List.dropWhile_cons]
    split
    · next hcomment =>
      rw [ih fun c hc => h c (List.mem_cons_of_mem _ hc)]
      cases c with
      | token lexeme =>
        rw [ofComponents, if_pos (show lexeme.token.isComment = true from hcomment)]
      | block opener bracket body closer =>
        rw [(h _ (List.mem_cons_self ..)).isComment_block] at hcomment
        cases hcomment
    · rfl

/-! ## Selectors -/

/-- Whether the name of a simple selector, if it is a class or an id, is listed. -/
def Lists (names : SelectorNames) : SimpleSelector → Prop
  | .hasClass name => name ∈ names.classes
  | .id name => name ∈ names.ids
  | _ => True

theorem Lists.mono {a b : SelectorNames} {t : SimpleSelector} (ht : a.Lists t) (h : a.Within b) :
    b.Lists t := by
  cases t with
  | hasClass name => exact h.classes ht
  | id name => exact h.ids ht
  | _ => trivial

end SelectorNames

namespace SelectorReader

open Css SelectorNames

/-- The names of a step are among those of the components that it is read from. -/
def Step.IsNamed (cs : List Component) : Step → Prop
  | .simple s rest => rest <:+ cs ∧ ∀ t ∈ s.leaves, (ofComponents false cs).Lists t
  | .negation body rest => rest <:+ cs ∧ (∀ c ∈ body, c.IsOpened) ∧
      (ofComponents false body).Within (ofComponents false cs)
  | .stop => True

theorem suffix_of_skipComments {cs rest : List Component} {c : Component}
    (hc : skipComments cs = c :: rest) : rest <:+ cs :=
  (List.suffix_cons c rest).trans (hc ▸ List.dropWhile_suffix _)

/-- A step that names neither classes nor ids. -/
theorem Step.IsNamed.simple {cs rest : List Component} {s : SimpleSelector} (h : rest <:+ cs)
    (hs : ∀ names : SelectorNames, ∀ t ∈ s.leaves, names.Lists t) :
    (Step.simple s rest).IsNamed cs :=
  ⟨h, hs _⟩

theorem Step.IsNamed.of_suffix {cs rest : List Component} {s : Step} (h : s.IsNamed rest)
    (hrest : rest <:+ cs) : s.IsNamed cs := by
  cases s with
  | simple s more =>
    exact ⟨h.1.trans hrest, fun t ht => (h.2 t ht).mono (within_of_suffix hrest)⟩
  | negation body more => exact ⟨h.1.trans hrest, h.2.1, h.2.2.trans (within_of_suffix hrest)⟩
  | stop => trivial

theorem lists_pseudoName {name : String} {s : SimpleSelector} (h : pseudoName name = .ok s)
    (names : SelectorNames) : ∀ t ∈ s.leaves, names.Lists t := by
  rw [pseudoName] at h
  split at h
  · cases h
    simp [SimpleSelector.leaves, SelectorNames.Lists]
  · split at h
    · cases h
      simp [SimpleSelector.leaves, SelectorNames.Lists]
    · split at h
      · cases h
        simp [SimpleSelector.leaves, SelectorNames.Lists]
      · cases h

theorem lists_pseudoFunction {name : String} {body : List Component} {s : SimpleSelector}
    (h : pseudoFunction name body = .ok s) (names : SelectorNames) :
    ∀ t ∈ s.leaves, names.Lists t := by
  rw [pseudoFunction] at h
  split at h
  · cases hn : Nth.read body with
    | error fault =>
      rw [hn] at h
      cases h
    | ok nth =>
      rw [hn] at h
      cases h
      simp [SimpleSelector.leaves, SelectorNames.Lists]
  · split at h
    · cases h
      simp [SimpleSelector.leaves, SelectorNames.Lists]
    · cases h

theorem isNamed_afterColon {cs : List Component} (hcs : ∀ c ∈ cs, c.IsOpened) {s : Step}
    (h : afterColon cs = .ok s) : s.IsNamed cs := by
  unfold afterColon at h
  split at h
  · cases h
  · next rest hc =>
    unfold pseudoElement at h
    split at h
    · cases h
    · next more hr =>
      cases h
      exact .simple ((suffix_of_skipComments hr).trans (suffix_of_skipComments hc))
        (by simp [SimpleSelector.leaves, SelectorNames.Lists])
    · cases h
  · next name _ rest hc =>
    cases hp : pseudoName name with
    | error fault =>
      rw [hp] at h
      cases h
    | ok p =>
      rw [hp] at h
      cases h
      exact .simple (suffix_of_skipComments hc) (lists_pseudoName hp)
  · next name text bracket body closer rest hc =>
    have hopened : (Component.block ⟨.function name, text⟩ bracket body closer).IsOpened := by
      refine hcs _ ((List.dropWhile_suffix Component.isComment).subset ?_)
      rw [show cs.dropWhile Component.isComment = _ from hc]
      exact List.mem_cons_self ..
    split at h
    · cases h
      refine ⟨suffix_of_skipComments hc, hopened.forall_body, ?_⟩
      rw [← ofComponents_skipComments hcs, hc]
      exact within_body ..
    · cases hp : pseudoFunction name body with
      | error fault =>
        rw [hp] at h
        cases h
      | ok p =>
        rw [hp] at h
        cases h
        exact .simple (suffix_of_skipComments hc) (lists_pseudoFunction hp)
  · cases h

theorem isNamed_step {isFirst : Bool} {cs : List Component} (hcs : ∀ c ∈ cs, c.IsOpened) {s : Step}
    (h : step isFirst cs = .ok s) : s.IsNamed cs := by
  have hrest : ∀ {c rest}, skipComments cs = c :: rest → ∀ c ∈ rest, c.IsOpened :=
    fun hc c hmem => hcs c ((suffix_of_skipComments hc).subset hmem)
  unfold step at h
  split at h
  · next hc =>
    split at h
    · cases h
      exact .simple (suffix_of_skipComments hc)
        (by simp [SimpleSelector.leaves, SelectorNames.Lists])
    · cases h
  · next hc =>
    split at h
    · cases h
      exact .simple (suffix_of_skipComments hc)
        (by simp [SimpleSelector.leaves, SelectorNames.Lists])
    · cases h
  · next name text rest hc =>
    cases h
    refine ⟨suffix_of_skipComments hc, fun t ht => ?_⟩
    obtain rfl := List.mem_singleton.1 ht
    rw [← ofComponents_skipComments hcs, hc, ofComponents, if_neg (by simp [Token.isComment])]
    exact List.mem_cons_self ..
  · next text rest hc =>
    -- the name behind a full stop is listed since nothing but comments is between
    unfold afterStop at h
    split at h
    · cases h
    · next name nameText more hname =>
      cases h
      refine ⟨(suffix_of_skipComments hname).trans (suffix_of_skipComments hc), fun t ht => ?_⟩
      obtain rfl := List.mem_singleton.1 ht
      rw [← ofComponents_skipComments hcs, hc, ofComponents, if_neg (by simp [Token.isComment]),
        show isStop (.delim '.') = true from rfl, ← ofComponents_skipComments (hrest hc), hname,
        ofComponents, if_neg (by simp [Token.isComment])]
      exact List.mem_cons_self ..
    · cases h
  · next text rest hc =>
    exact (isNamed_afterColon (hrest hc) h).of_suffix (suffix_of_skipComments hc)
  · next opener body closer rest hc =>
    cases ha : attributeSelector body with
    | error fault =>
      rw [ha] at h
      cases h
    | ok a =>
      rw [ha] at h
      cases h
      exact .simple (suffix_of_skipComments hc)
        (by simp [SimpleSelector.leaves, SelectorNames.Lists])
  · cases h
    trivial

mutual

theorem SimplesRead.lists {isFirst : Bool} {cs rest : List Component} {l : List SimpleSelector}
    (h : SimplesRead isFirst cs l rest) (hcs : ∀ c ∈ cs, c.IsOpened) :
    rest <:+ cs ∧ ∀ t ∈ SimpleSelector.leavesOfAll l, (ofComponents false cs).Lists t := by
  cases h with
  | stop hs => exact ⟨List.suffix_refl _, List.forall_mem_nil _⟩
  | simple hs hread =>
    obtain ⟨hmore, hnamed⟩ := isNamed_step hcs hs
    obtain ⟨hrest, hothers⟩ := hread.lists fun c hc => hcs c (hmore.subset hc)
    exact ⟨hrest.trans hmore, List.forall_mem_append.2
      ⟨hnamed, fun t ht => (hothers t ht).mono (within_of_suffix hmore)⟩⟩
  | negation hs hoptions hread =>
    obtain ⟨hmore, hbody, hwithin⟩ := isNamed_step hcs hs
    obtain ⟨hrest, hothers⟩ := hread.lists fun c hc => hcs c (hmore.subset hc)
    exact ⟨hrest.trans hmore, List.forall_mem_append.2
      ⟨fun t ht => (hoptions.lists hbody t ht).mono hwithin,
        fun t ht => (hothers t ht).mono (within_of_suffix hmore)⟩⟩

theorem NegationRead.lists {body : List Component} {options : List CompoundSelector}
    (h : NegationRead body options) (hbody : ∀ c ∈ body, c.IsOpened) :
    ∀ t ∈ SimpleSelector.leavesOfOptions options, (ofComponents false body).Lists t := by
  have hpart : skip (untilComma body) <:+ untilComma body := List.dropWhile_suffix _
  have hfront : untilComma body <+: body := List.takeWhile_prefix _
  have hwithin := (within_of_suffix hpart).trans (within_of_front hfront false)
  have hopened : ∀ c ∈ skip (untilComma body), c.IsOpened :=
    fun c hc => hbody c (hfront.subset (hpart.subset hc))
  cases h with
  | last h =>
    intro t ht
    rw [SimpleSelector.leavesOfOptions, SimpleSelector.leavesOfOptions, List.append_nil] at ht
    exact ((h.lists hopened).2 t ht).mono hwithin
  | more h hne hrest hmore hothers =>
    have hbehind := suffix_behindComma hmore
    exact List.forall_mem_append.2
      ⟨fun t ht => ((h.lists hopened).2 t ht).mono hwithin,
        fun t ht => (hothers.lists (fun c hc => hbody c (hbehind.subset hc)) t ht).mono
          (within_of_suffix hbehind)⟩

end

theorem lists_compound {cs rest : List Component} {c : CompoundSelector}
    (hcs : ∀ c ∈ cs, c.IsOpened) (h : compound cs = .ok (c, rest)) :
    rest <:+ cs ∧ ∀ t ∈ SimpleSelector.leavesOfAll c, (ofComponents false cs).Lists t := by
  unfold compound at h
  split at h
  · cases h
  · cases h
  · next hs =>
    cases h
    exact (SimplesRead.of_simples hs).lists hcs

theorem ChainRead.lists {names : SelectorNames} {left s : ComplexSelector}
    {cs rest : List Component} (h : ChainRead left cs s rest) (hcs : ∀ c ∈ cs, c.IsOpened)
    (hnames : (ofComponents false cs).Within names) (hleft : ∀ t ∈ left.leaves, names.Lists t) :
    rest <:+ cs ∧ ∀ t ∈ s.leaves, names.Lists t := by
  induction h with
  | stop => exact ⟨List.suffix_refl _, hleft⟩
  | @link left cs k more c behind s rest hl hc _ ih =>
    have hskip : skip more <:+ cs := (List.dropWhile_suffix _).trans (suffix_link hl)
    obtain ⟨hbehind, hlists⟩ := lists_compound (fun c hc => hcs c (hskip.subset hc)) hc
    have hwithin := (within_of_suffix hskip).trans hnames
    have hsuffix := hbehind.trans hskip
    refine (ih (fun c hc => hcs c (hsuffix.subset hc))
      ((within_of_suffix hsuffix).trans hnames) ?_).imp_left (·.trans hsuffix)
    rw [ComplexSelector.leaves_combined]
    exact List.forall_mem_append.2 ⟨hleft, fun t ht => (hlists t ht).mono hwithin⟩

theorem lists_complex {s : ComplexSelector} {cs rest : List Component}
    (hcs : ∀ c ∈ cs, c.IsOpened) (h : complex cs = .ok (s, rest)) :
    rest <:+ cs ∧ ∀ t ∈ s.leaves, (ofComponents false cs).Lists t := by
  have hskip : skip cs <:+ cs := List.dropWhile_suffix _
  unfold complex at h
  split at h
  · cases h
  · next c behind hc =>
    obtain ⟨hbehind, hlists⟩ := lists_compound (fun c hc => hcs c (hskip.subset hc)) hc
    have hsuffix := hbehind.trans hskip
    refine ((ChainRead.of_chain h).lists (fun c hc => hcs c (hsuffix.subset hc))
      (within_of_suffix hsuffix) ?_).imp_left (·.trans hsuffix)
    intro t ht
    rw [ComplexSelector.leaves_compound] at ht
    exact (hlists t ht).mono (within_of_suffix hskip)

theorem SelectorsRead.lists {l : SelectorList} {cs : List Component} (h : SelectorsRead cs l)
    (hcs : ∀ c ∈ cs, c.IsOpened) : ∀ s ∈ l, ∀ t ∈ s.leaves, (ofComponents false cs).Lists t := by
  induction h with
  | last hs => exact List.forall_mem_singleton.2 (lists_complex hcs hs).2
  | @more cs s rest c behind l hs hr _ _ ih =>
    obtain ⟨hrest, hlists⟩ := lists_complex hcs hs
    have hbehind : behind <:+ cs := (List.suffix_cons c behind).trans
      ((hr ▸ List.dropWhile_suffix _ : c :: behind <:+ rest).trans hrest)
    have hfound := ih fun c hc => hcs c (hbehind.subset hc)
    exact List.forall_mem_cons.2
      ⟨hlists, fun s hs t ht => (hfound s hs t ht).mono (within_of_suffix hbehind)⟩

end SelectorReader

/-- The classes and ids of a list, at any depth, are among the names of its text. -/
theorem SelectorList.lists_of_read {text : String} {l : SelectorList}
    (h : SelectorList.read text = .ok l) :
    ∀ s ∈ l, ∀ t ∈ s.leaves, (SelectorNames.ofText text).Lists t :=
  (SelectorList.selectorsRead_of_read h).lists (Css.isOpened_components text.toList)

theorem ComplexSelector.lists_of_read {text : String} {s : ComplexSelector}
    (h : ComplexSelector.read text = .ok s) :
    ∀ t ∈ s.leaves, (SelectorNames.ofText text).Lists t := by
  rw [read] at h
  split at h
  · cases h
  · next single hs =>
    cases h
    exact SelectorList.lists_of_read hs s (List.mem_singleton.2 rfl)
  · cases h

/-! ## Several texts -/

namespace SelectorNames

/-- The names that were found before and those of another text. -/
def scan (names : SelectorNames) (text : String) : SelectorNames :=
  names.append (ofText text)

/-- Further texts take no name away. -/
theorem within_foldl_scan (texts : List String) (names : SelectorNames) :
    names.Within (texts.foldl scan names) := by
  induction texts generalizing names with
  | nil => exact .refl names
  | cons text rest ih => exact (Within.append_left names (ofText text)).trans (ih (names.scan text))

theorem ofText_within_foldl_scan {texts : List String} {text : String} (h : text ∈ texts)
    (names : SelectorNames) : (ofText text).Within (texts.foldl scan names) := by
  induction texts generalizing names with
  | nil => cases h
  | cons first rest ih =>
    rcases List.mem_cons.1 h with rfl | h
    · exact (Within.append_right names _).trans (within_foldl_scan rest (names.scan text))
    · exact ih h (names.scan first)

/-- Among the names of texts are the classes and ids of every selector that one of them is
read as, those in negations included, and they stay when further texts are scanned. -/
theorem scanned_of_read {text : String} {l : SelectorList} (h : SelectorList.read text = .ok l)
    (names : SelectorNames) (earlier later : List String) :
    (∀ s ∈ l, ∀ name,
        (.hasClass name ∈ s.leaves →
          name ∈ ((earlier ++ text :: later).foldl scan names).classes) ∧
        (.id name ∈ s.leaves → name ∈ ((earlier ++ text :: later).foldl scan names).ids)) ∧
      (earlier.foldl scan names).Within ((earlier ++ text :: later).foldl scan names) := by
  have hfound : (ofText text).Within ((earlier ++ text :: later).foldl scan names) :=
    ofText_within_foldl_scan (by simp) names
  refine ⟨fun s hs name => ⟨fun hname => ?_, fun hname => ?_⟩, ?_⟩
  · exact hfound.classes (SelectorList.lists_of_read h s hs _ hname)
  · exact hfound.ids (SelectorList.lists_of_read h s hs _ hname)
  · rw [List.foldl_append]
    exact within_foldl_scan (text :: later) _

/-! ### A class in a negation in a negation -/

namespace Nested

open Css SelectorReader

def inner : List Component :=
  [.token ⟨.delim '.', ['.']⟩, .token ⟨.comment "", ['/', '*', '*', '/']⟩,
    .token ⟨.ident "c", ['c']⟩]

def behind : List Component :=
  [.token ⟨.colon, [':']⟩, .block ⟨.function "not", ['n', 'o', 't', '(']⟩ .round inner [')']]

def outer : List Component :=
  .token ⟨.idHash "b", ['#', '\\', '6', '2', ' ']⟩ :: .token ⟨.comma, [',']⟩ :: behind

def text : String := ".a:not(#\\62 ,:not(./**/c))"

def selector : ComplexSelector :=
  .compound [.hasClass "a", .negation [[.id "b"], [.negation [[.hasClass "c"]]]]]

theorem components_text : components text.toList =
    [.token ⟨.delim '.', ['.']⟩, .token ⟨.ident "a", ['a']⟩, .token ⟨.colon, [':']⟩,
      .block ⟨.function "not", ['n', 'o', 't', '(']⟩ .round outer [')']] := by
  cbv

theorem simples_nil : simples false [] = .ok ([], []) := by
  rw [simples_eq]
  rfl

theorem negated_inner : negated inner = .ok [[.hasClass "c"]] := by
  have hstep : step true (skip (untilComma inner)) = .ok (.simple (.hasClass "c") []) := rfl
  rw [negated_eq, simples_eq, hstep]
  dsimp only
  rw [simples_nil]
  rfl

theorem negated_behind : negated behind = .ok [[.negation [[.hasClass "c"]]]] := by
  have hstep : step true (skip (untilComma behind)) = .ok (.negation inner []) := rfl
  rw [negated_eq, simples_eq, hstep]
  dsimp only
  rw [negated_inner, simples_nil]
  rfl

theorem negated_outer : negated outer = .ok [[.id "b"], [.negation [[.hasClass "c"]]]] := by
  have hstep : step true (skip (untilComma outer)) = .ok (.simple (.id "b") []) := rfl
  have hbehind : behindComma? outer = some behind := rfl
  rw [negated_eq, simples_eq, hstep, hbehind]
  dsimp only
  rw [simples_nil, negated_behind]
  rfl

theorem read_text : SelectorList.read text = .ok [selector] := by
  have hclass : step true (skip (components text.toList)) = .ok (.simple (.hasClass "a")
      [.token ⟨.colon, [':']⟩,
        .block ⟨.function "not", ['n', 'o', 't', '(']⟩ .round outer [')']]) := by
    rw [components_text]
    rfl
  have hnot : step false [.token ⟨.colon, [':']⟩,
      .block ⟨.function "not", ['n', 'o', 't', '(']⟩ .round outer [')']] =
      .ok (.negation outer []) := rfl
  have hcomplex : complex (components text.toList) = .ok (selector, []) := by
    rw [complex, compound, simples_eq, hclass]
    dsimp only
    rw [simples_eq, hnot]
    dsimp only
    rw [negated_outer, simples_nil]
    dsimp only [Except.bind, Except.map]
    rw [chain_eq]
    rfl
  rw [SelectorList.read, selectors_eq, hcomplex]
  rfl

theorem scanned_nested :
    SelectorList.read text = .ok [selector] ∧ .hasClass "c" ∈ selector.leaves ∧
      .id "b" ∈ selector.leaves ∧ "c" ∈ (["g.d", text, "#e"].foldl scan empty).classes ∧
      "b" ∈ (["g.d", text, "#e"].foldl scan empty).ids := by
  have hclass : .hasClass "c" ∈ selector.leaves := by
    simp [selector, SimpleSelector.leavesOfAll, SimpleSelector.leaves,
      SimpleSelector.leavesOfOptions]
  have hid : .id "b" ∈ selector.leaves := by
    simp [selector, SimpleSelector.leavesOfAll, SimpleSelector.leaves,
      SimpleSelector.leavesOfOptions]
  obtain ⟨hnames, -⟩ := scanned_of_read read_text empty ["g.d"] ["#e"]
  have hselector := List.mem_singleton.2 (Eq.refl selector)
  exact ⟨read_text, hclass, hid, (hnames selector hselector "c").1 hclass,
    (hnames selector hselector "b").2 hid⟩

end Nested
end SelectorNames
end SvgCompact
