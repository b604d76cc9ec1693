import SvgCompact.Proofs.Selector.Writing
import SvgCompact.Proofs.Selector.Leaves

/-!
Selectors that were read are read back from their texts.

The simple selectors of a compound keep their components behind each other, and so do
compounds around a combinator and selectors around a comma.  Nothing but the parts of
compounds is in the way of the reader, so it stops where each of them ends.
-/

namespace SvgCompact

open Css SelectorReader

namespace SimpleSelector

/-! ## Compounds -/

/-- What can stand behind the text of a compound. -/
structure EndsAll (c : CompoundSelector) (rest : List Char) : Prop where
  isEdge : IsEdge rest
  hyphens : c.getLast?.any isHyphens = true → rest.head? ≠ some '>'

/-- Simple selectors whose text has components of its own, from which they are read. -/
structure AllReadBack (c : CompoundSelector) : Prop where
  begins : Begins (c.head?.any isElemental) (writeAll c)
  whole : IsWholeBefore (EndsAll c) (writeAll c)
  parts : ∀ x ∈ components (writeAll c), x.isPart = true
  read : ∀ (isFirst : Bool) (rest : List Component),
    (c.head?.any isElemental = true → isFirst = true) → simples false rest = .ok ([], rest) →
    simples isFirst (components (writeAll c) ++ rest) = .ok (c, rest)

variable {s : SimpleSelector} {c : CompoundSelector}

theorem allReadBack_single (h : s.ReadsBack) : AllReadBack [s] := by
  have hwrite : writeAll [s] = s.write := by rw [writeAll, writeAll, List.append_nil]
  refine ⟨?_, ?_, ?_, fun isFirst rest hfirst hrest => ?_⟩
  · rw [hwrite]
    exact h.begins
  · rw [hwrite]
    exact h.whole.mono fun rest hrest => ⟨hrest.isEdge, hrest.hyphens⟩
  · rw [hwrite]
    exact h.parts
  · rw [hwrite, h.read isFirst rest hfirst, hrest]
    rfl

theorem allReadBack_cons (h : s.ReadsBack) (hc : AllReadBack c)
    (hfront : c.head?.any isElemental = false) : AllReadBack (s :: c) := by
  have hbegins := hc.begins
  rw [hfront] at hbegins
  have hends : ∀ rest, s.Ends (writeAll c ++ rest) := fun rest =>
    ⟨(hbegins.append rest).isEdge.1, fun _ => (hbegins.append rest).isEdge.2⟩
  have hnil : s.Ends (writeAll c) := by simpa using hends []
  have hne : c ≠ [] := by
    rintro rfl
    exact hbegins.ne_nil (by rw [writeAll])
  have hlast : (s :: c).getLast? = c.getLast? := by
    rw [List.getLast?_cons_of_ne_nil hne]
  have hcomponents := h.whole.components_append hnil
  refine ⟨?_, ?_, ?_, fun isFirst rest hfirst hrest => ?_⟩
  · rw [writeAll]
    exact h.begins.append _
  · rw [writeAll]
    have hwhole := hc.whole.mono fun rest (hrest : EndsAll (s :: c) rest) =>
      (⟨hrest.isEdge, hlast ▸ hrest.hyphens⟩ : EndsAll c rest)
    exact h.whole.append hwhole hnil fun rest _ => hends rest
  · rw [writeAll, hcomponents]
    exact List.forall_mem_append.2 ⟨h.parts, hc.parts⟩
  · rw [writeAll, hcomponents, List.append_assoc, h.read isFirst _ hfirst,
      hc.read false rest (by simp [hfront]) hrest]
    rfl

theorem allReadBack (hne : c ≠ []) (hfront : ∀ s ∈ c.tail, s.isElemental = false)
    (hall : ∀ s ∈ c, s.ReadsBack) : AllReadBack c := by
  induction c with
  | nil => exact absurd rfl hne
  | cons s c ih =>
    obtain ⟨hs, hall⟩ := List.forall_mem_cons.1 hall
    cases c with
    | nil => exact allReadBack_single hs
    | cons t c =>
      rw [List.tail_cons] at hfront
      obtain ⟨ht, hbehind⟩ := List.forall_mem_cons.1 hfront
      exact allReadBack_cons hs (ih (List.cons_ne_nil t c) hbehind hall) ht

/-- The first component of a compound is not skipped. -/
theorem AllReadBack.exists_head (h : AllReadBack c) :
    ∃ x cs, components (writeAll c) = x :: cs ∧ x.isPart = true := by
  cases hcomponents : components (writeAll c) with
  | nil =>
    have htext := textOf_components (writeAll c)
    rw [hcomponents] at htext
    exact absurd htext.symm h.begins.ne_nil
  | cons x cs => exact ⟨x, cs, rfl, h.parts x (by simp [hcomponents])⟩

theorem AllReadBack.skip (h : AllReadBack c) (rest : List Component) :
    SelectorReader.skip (components (writeAll c) ++ rest) = components (writeAll c) ++ rest := by
  obtain ⟨x, cs, hcs, hx⟩ := h.exists_head
  rw [hcs, List.cons_append, SelectorReader.skip, List.dropWhile_cons_of_neg]
  rw [Component.isSpacing_of_isPart hx]
  decide

theorem AllReadBack.ne_nil (h : AllReadBack c) : c ≠ [] := by
  rintro rfl
  exact h.begins.ne_nil (by rw [writeAll])

theorem AllReadBack.read_alone (h : AllReadBack c) :
    simples true (SelectorReader.skip (components (writeAll c))) = .ok (c, []) := by
  have hread := h.read true [] (fun _ => rfl) (simples_of_stop rfl)
  have hskip := h.skip []
  rw [List.append_nil] at hread hskip
  rw [hskip, hread]

/-! ## Negations -/

/-- The options of a negation, as they are read back. -/
structure OptionsReadBack (options : List CompoundSelector) : Prop where
  whole : IsWholeBefore (·.head? = some ')') (writeOptions options)
  free : ∀ l, .token l ∈ components (writeOptions options) → l.token ≠ .closing .round
  read : negated (components (writeOptions options)) = .ok options

variable {options : List CompoundSelector}

theorem components_comma (s : List Char) :
    components (',' :: s) = .token ⟨.comma, [',']⟩ :: components s :=
  components_of_start (fun _ => rfl) rfl s

theorem isClosed_comma : IsClosed [','] :=
  isClosed_single (fun _ => rfl) rfl

theorem endsAll_cons {d : Char} (hd : d ∈ edges) (hne : d ≠ '>') (rest : List Char) :
    EndsAll c (d :: rest) :=
  ⟨isEdge_cons hd, fun _ h => hne (Option.some.inj h)⟩

theorem AllReadBack.notComma (h : AllReadBack c) :
    ∀ x ∈ components (writeAll c), (!x.isComma) = true := by
  intro x hx
  rw [Component.isComma_of_isPart (h.parts x hx)]
  rfl

theorem optionsReadBack_single (h : AllReadBack c) : OptionsReadBack [c] := by
  have hwrite : writeOptions [c] = writeAll c := by rw [writeOptions]
  refine ⟨?_, fun l hl => ?_, ?_⟩
  · rw [hwrite]
    refine h.whole.mono fun rest hrest => ?_
    obtain ⟨rest, rfl⟩ := List.head?_eq_some_iff.1 hrest
    exact endsAll_cons (by decide) (by decide) rest
  · rw [hwrite] at hl
    exact Component.isPart_token_ne_closing (h.parts _ hl) _
  · have hfront : untilComma (components (writeAll c)) = components (writeAll c) :=
      List.takeWhile_eq_self_iff.2 h.notComma
    have hbehind : behindComma? (components (writeAll c)) = none := by
      rw [behindComma?, List.dropWhile_eq_nil_iff.2 h.notComma]
    rw [hwrite, negated_eq, hfront, h.read_alone]
    dsimp only
    rw [if_neg (by simpa using h.ne_nil), hbehind]
    rfl

theorem optionsReadBack_cons (h : AllReadBack c) (hne : options ≠ [])
    (hoptions : OptionsReadBack options) : OptionsReadBack (c :: options) := by
  have hwrite : writeOptions (c :: options) = writeAll c ++ ',' :: writeOptions options := by
    obtain ⟨d, ds, rfl⟩ := List.exists_cons_of_ne_nil hne
    rw [writeOptions]
    simp
  have hcomma : EndsAll c (',' :: writeOptions options) := endsAll_cons (by decide) (by decide) _
  have hcomponents : components (writeOptions (c :: options)) = components (writeAll c) ++
      .token ⟨.comma, [',']⟩ :: components (writeOptions options) := by
    rw [hwrite, h.whole.components_append hcomma, components_comma]
  refine ⟨?_, fun l hl => ?_, ?_⟩
  · rw [hwrite]
    have hbehind := isClosed_comma.before.append (P := fun _ => True) hoptions.whole trivial
      fun _ _ => trivial
    exact h.whole.append hbehind hcomma fun rest _ => endsAll_cons (by decide) (by decide) _
  · rw [hcomponents, List.mem_append, List.mem_cons] at hl
    rcases hl with hl | hl | hl
    · exact Component.isPart_token_ne_closing (h.parts _ hl) _
    · rw [Component.token.inj hl]
      intro hcomma
      cases hcomma
    · exact hoptions.free l hl
  · have hfront : untilComma (components (writeOptions (c :: options))) =
        components (writeAll c) := by
      rw [hcomponents, untilComma, List.takeWhile_append_of_pos h.notComma]
      simp [Component.isComma]
    have hbehind : behindComma? (components (writeOptions (c :: options))) =
        some (components (writeOptions options)) := by
      rw [hcomponents, behindComma?, List.dropWhile_append_of_pos h.notComma]
      rfl
    rw [negated_eq, hfront, h.read_alone]
    dsimp only
    rw [if_neg (by simpa using h.ne_nil), hbehind]
    dsimp only [finished, SelectorReader.skip, List.dropWhile_nil, Except.bind]
    rw [hoptions.read]
    rfl

theorem optionsReadBack (hne : options ≠ []) (hall : ∀ c ∈ options, AllReadBack c) :
    OptionsReadBack options := by
  induction options with
  | nil => exact absurd rfl hne
  | cons c options ih =>
    obtain ⟨hc, hall⟩ := List.forall_mem_cons.1 hall
    cases options with
    | nil => exact optionsReadBack_single hc
    | cons d options =>
      have hne := List.cons_ne_nil d options
      exact optionsReadBack_cons hc hne (ih hne hall)

theorem readsBack_negation (h : OptionsReadBack options) : (negation options).ReadsBack := by
  have hname : IsPlainName "not" := by decide
  have hwrite : (negation options).write =
      ':' :: "not".toList ++ '(' :: writeOptions options ++ [')'] := by
    rw [write]
    rfl
  refine .of_function hname hwrite h.whole h.free fun isFirst rest => ?_
  have hstep : step isFirst (functionComponents "not" (writeOptions options) ++ rest) =
      .ok (.negation (components (writeOptions options)) rest) := rfl
  rw [simples_eq, hstep]
  dsimp only
  rw [h.read]
  rfl

/-! ## Selectors that were read -/

/-- Whether the text of a simple selector says what the selector is, negations apart. -/
def IsSpelled : SimpleSelector → Prop
  | attr a => a.IsQualified
  | dynamic _ (some argument) => IsArgument argument.toList
  | pseudoElement name => spellIdent name.toList = name.toList
  | _ => True

theorem mem_leavesOfAll {t : SimpleSelector} (hs : s ∈ c) (ht : t ∈ s.leaves) :
    t ∈ leavesOfAll c := by
  induction c with
  | nil => cases hs
  | cons other c ih =>
    rcases List.mem_cons.1 hs with rfl | hs
    · exact List.mem_append_left _ ht
    · exact List.mem_append_right _ (ih hs)

theorem mem_leavesOfOptions {t : SimpleSelector} (hc : c ∈ options) (ht : t ∈ leavesOfAll c) :
    t ∈ leavesOfOptions options := by
  induction options with
  | nil => cases hc
  | cons other options ih =>
    rcases List.mem_cons.1 hc with rfl | hc
    · exact List.mem_append_left _ ht
    · exact List.mem_append_right _ (ih hc)

theorem readsBack_leaf (hs : ∀ options, s ≠ negation options) (h : s.IsProper)
    (hspelled : s.IsSpelled) : s.ReadsBack := by
  cases s with
  | universal => exact readsBack_universal
  | type name => exact readsBack_type h
  | id name => exact readsBack_id h
  | hasClass name => exact readsBack_hasClass h
  | attr a => exact readsBack_attr h hspelled
  | place p => exact readsBack_place p
  | nth counting n => exact readsBack_nth counting h
  | negation options => exact absurd rfl (hs options)
  | dynamic name argument =>
    cases argument with
    | none => exact readsBack_dynamic h
    | some argument => exact readsBack_argument h.1 h.2 hspelled
  | pseudoElement name => exact readsBack_pseudoElement h.1 h.2 hspelled

theorem Holds.readsBack (h : s.Holds IsProper) (hspelled : ∀ t ∈ s.leaves, t.IsSpelled) :
    s.ReadsBack := by
  induction h with
  | @leaf s hs h =>
    have hleaves : s.leaves = [s] := by
      cases s <;> first | rfl | exact absurd rfl (hs _)
    exact readsBack_leaf hs h (hspelled s (by simp [hleaves]))
  | negation hne hcompounds hfront _ ih =>
    refine readsBack_negation (optionsReadBack hne fun c hc => ?_)
    refine allReadBack (hcompounds c hc) (hfront c hc) fun s hs => ih c hc s hs fun t ht => ?_
    exact hspelled t (mem_leavesOfOptions hc (mem_leavesOfAll hs ht))

end SimpleSelector

theorem CompoundSelector.Holds.readBack {c : CompoundSelector}
    (h : CompoundSelector.Holds SimpleSelector.IsProper c)
    (hspelled : ∀ t ∈ SimpleSelector.leavesOfAll c, t.IsSpelled) : SimpleSelector.AllReadBack c :=
  SimpleSelector.allReadBack h.ne_nil h.front fun s hs => (h.all s hs).readsBack
    fun t ht => hspelled t (SimpleSelector.mem_leavesOfAll hs ht)

/-! ## Complex selectors -/

namespace ComplexSelector

def last : ComplexSelector → CompoundSelector
  | compound c => c
  | combined _ _ c => c

/-- Whether no name `--` stands in front of a child combinator. -/
def keepsHyphens : ComplexSelector → Bool
  | compound _ => true
  | combined left k _ =>
    left.keepsHyphens && !(k == .child && left.last.getLast?.any SimpleSelector.isHyphens)

/-- A complex selector whose text has components of its own, from which it is read. -/
structure ReadsBack (s : ComplexSelector) : Prop where
  whole : IsWholeBefore (SimpleSelector.EndsAll s.last) s.write
  read : ∀ rest, simples false rest = .ok ([], rest) →
    complex (components s.write ++ rest) = chain s rest

variable {s left : ComplexSelector} {c : CompoundSelector} {k : Combinator}

theorem compound_eq (h : SimpleSelector.AllReadBack c) {rest : List Component}
    (hrest : simples false rest = .ok ([], rest)) :
    SelectorReader.compound (components (SimpleSelector.writeAll c) ++ rest) = .ok (c, rest) := by
  rw [SelectorReader.compound, h.read true rest (fun _ => rfl) hrest]
  split
  · next heq => cases heq
  · next heq => exact absurd (Prod.mk.inj (Except.ok.inj heq)).1 h.ne_nil
  · next heq => exact heq ▸ rfl

theorem readsBack_compound (h : SimpleSelector.AllReadBack c) : (compound c).ReadsBack where
  whole := h.whole
  read rest hrest := by
    rw [write, complex, h.skip, compound_eq h hrest]

/-- A blank in front of a compound is a descendant combinator. -/
theorem link?_combinator (h : SimpleSelector.AllReadBack c) (k : Combinator)
    (rest : List Component) :
    link? (.token ⟨k.token, [k.write]⟩ :: (components (SimpleSelector.writeAll c) ++ rest)) =
      .ok (some (k, components (SimpleSelector.writeAll c) ++ rest)) := by
  cases k with
  | descendant =>
    obtain ⟨x, cs, hcs, hx⟩ := h.exists_head
    have hspacing : ¬x.isSpacing = true := by
      rw [Component.isSpacing_of_isPart hx]
      decide
    have hskip : SelectorReader.skip (.token ⟨.blank " ", [' ']⟩ :: x :: (cs ++ rest)) =
        x :: (cs ++ rest) := by
      rw [SelectorReader.skip, List.dropWhile_cons_of_pos rfl, List.dropWhile_cons_of_neg hspacing]
    have htake : List.takeWhile Component.isSpacing
        (.token ⟨.blank " ", [' ']⟩ :: x :: (cs ++ rest)) = [.token ⟨.blank " ", [' ']⟩] := by
      rw [List.takeWhile_cons_of_pos rfl, List.takeWhile_cons_of_neg hspacing]
    rw [hcs, List.cons_append]
    change link? (.token ⟨.blank " ", [' ']⟩ :: x :: (cs ++ rest)) = _
    rw [link?, hskip, htake]
    dsimp only
    rw [Component.combinator?_of_isPart hx, Component.isComma_of_isPart hx]
    rfl
  | child => rfl
  | nextSibling => rfl
  | laterSibling => rfl

theorem simples_combinator (k : Combinator) (rest : List Component) :
    simples false (.token ⟨k.token, [k.write]⟩ :: rest) =
      .ok ([], .token ⟨k.token, [k.write]⟩ :: rest) :=
  simples_of_stop (by cases k <;> rfl)

theorem readsBack_combined (hleft : left.ReadsBack) (h : SimpleSelector.AllReadBack c)
    (hhyphens : (k == .child && left.last.getLast?.any SimpleSelector.isHyphens) = false) :
    (combined left k c).ReadsBack := by
  have hwhole :
      IsWholeBefore (SimpleSelector.EndsAll c) (k.write :: SimpleSelector.writeAll c) := by
    refine ⟨fun rest hrest => ?_, ?_⟩
    · rw [List.cons_append, k.lexemes_write (h.begins.append rest).standsOff,
        k.lexemes_write h.begins.standsOff, h.whole.splits rest hrest, List.cons_append]
    · exact closed_of_first (k.first_write h.begins.standsOff) k.opens?_token h.whole.closed
  have hends : ∀ rest, SimpleSelector.EndsAll left.last (k.write :: rest) := by
    refine fun rest => ⟨isEdge_cons (by cases k <;> decide), fun hlast hchild => ?_⟩
    rw [hlast, Bool.and_true, beq_eq_false_iff_ne] at hhyphens
    cases k <;> first | exact hhyphens rfl | cases hchild
  have hcomponents : components (combined left k c).write = components left.write ++
      .token ⟨k.token, [k.write]⟩ :: components (SimpleSelector.writeAll c) := by
    rw [write, hleft.whole.components_append (hends _),
      components_of_first (k.first_write h.begins.standsOff) k.opens?_token]
  refine ⟨hleft.whole.append hwhole (hends _) fun rest _ => hends _, fun rest hrest => ?_⟩
  rw [hcomponents, List.append_assoc, List.cons_append, hleft.read _ (simples_combinator k _),
    chain_eq, link?_combinator h]
  dsimp only
  rw [h.skip, compound_eq h hrest]

/-- Whether the text of a selector says what the selector is. -/
structure IsWritable (s : ComplexSelector) : Prop where
  spelled : ∀ t ∈ s.leaves, t.IsSpelled
  hyphens : s.keepsHyphens = true

theorem readsBack (hs : ∀ c ∈ s.compounds, CompoundSelector.Holds SimpleSelector.IsProper c)
    (hspelled : ∀ t ∈ s.leaves, t.IsSpelled) (hhyphens : s.keepsHyphens = true) : s.ReadsBack := by
  induction s with
  | compound c =>
    exact readsBack_compound ((hs c (by simp [compounds])).readBack (by simpa using hspelled))
  | combined left k c ih =>
    rw [compounds] at hs
    rw [leaves_combined] at hspelled
    rw [keepsHyphens, Bool.and_eq_true, Bool.not_eq_true'] at hhyphens
    obtain ⟨hleft, hc⟩ := List.forall_mem_append.1 hs
    obtain ⟨hbefore, hlast⟩ := List.forall_mem_append.1 hspelled
    exact readsBack_combined (ih hleft hbefore hhyphens.1)
      ((hc c (List.mem_singleton.2 rfl)).readBack hlast) hhyphens.2

end ComplexSelector

/-! ## Lists -/

namespace SelectorList

variable {l : SelectorList} {s : ComplexSelector}

/-- The selectors of a list with commas between them. -/
def writeAll (l : SelectorList) : List Char :=
  [','].intercalate (l.map ComplexSelector.write)

theorem selectors_single (h : s.ReadsBack) : selectors (components (writeAll [s])) = .ok [s] := by
  have hread := h.read [] (simples_of_stop rfl)
  rw [List.append_nil, chain_eq] at hread
  have hwrite : writeAll [s] = s.write := by simp [writeAll, List.intercalate]
  rw [hwrite, selectors_eq, hread]
  rfl

theorem selectors_cons (h : s.ReadsBack) (hne : l ≠ [])
    (hl : selectors (components (writeAll l)) = .ok l) :
    selectors (components (writeAll (s :: l))) = .ok (s :: l) := by
  have hwrite : writeAll (s :: l) = s.write ++ ',' :: writeAll l := by
    obtain ⟨t, l, rfl⟩ := List.exists_cons_of_ne_nil hne
    simp [writeAll, List.intercalate]
  have hcomma : ∀ cs : List Component, simples false (.token ⟨.comma, [',']⟩ :: cs) =
      .ok ([], .token ⟨.comma, [',']⟩ :: cs) := fun _ => simples_of_stop rfl
  have hread := h.read _ (hcomma (components (writeAll l)))
  rw [chain_eq] at hread
  rw [hwrite, h.whole.components_append (SimpleSelector.endsAll_cons (by decide) (by decide) _),
    SimpleSelector.components_comma, selectors_eq, hread]
  change (selectors (components (writeAll l))).map (s :: ·) = _
  rw [hl]
  rfl

theorem selectors_writeAll (hne : l ≠ []) (hl : ∀ s ∈ l, s.ReadsBack) :
    selectors (components (writeAll l)) = .ok l := by
  induction l with
  | nil => exact absurd rfl hne
  | cons s l ih =>
    obtain ⟨hs, hl⟩ := List.forall_mem_cons.1 hl
    cases l with
    | nil => exact selectors_single hs
    | cons t l =>
      have hne := List.cons_ne_nil t l
      exact selectors_cons hs hne (ih hne hl)

/-- A list of selectors that was read is read back from its text. -/
theorem read_text_of_isWritable {text : String} (h : read text = .ok l)
    (hwritable : ∀ s ∈ l, s.IsWritable) : read l.text = .ok l := by
  have hproper := holds_of_read h
  have hl : ∀ s ∈ l, s.ReadsBack := fun s hs =>
    ComplexSelector.readsBack (hproper s hs) (hwritable s hs).spelled (hwritable s hs).hyphens
  have hselectors := selectors_writeAll (ne_nil_of_read h) hl
  have htext : l.text.toList = writeAll l := String.toList_ofList
  rw [read, htext, hselectors]
  rfl

/-! ### A list with one of everything -/

namespace Various

def text : String := "a.\\31 >[x|y=b i]:not(b,#c) ::d:nth-child(odd),:lang( en )"

def list : SelectorList :=
  [.combined
      (.combined (.compound [.type "a", .hasClass "1"]) .child
        [.attr ⟨"x:y", .equals, "b", true⟩, .negation [[.type "b"], [.id "c"]]])
      .descendant [.pseudoElement "d", .nth ⟨false, false⟩ ⟨2, 1⟩],
    .compound [.dynamic "lang" (some "en")]]

/-- The components behind the comma, behind the blank and behind the angle bracket. -/
def behindComma : List Component :=
  [.token ⟨.colon, [':']⟩,
    .block ⟨.function "lang", "lang(".toList⟩ .round
      [.token ⟨.blank " ", [' ']⟩, .token ⟨.ident "en", ['e', 'n']⟩, .token ⟨.blank " ", [' ']⟩]
      [')']]

def behindBlank : List Component :=
  [.token ⟨.colon, [':']⟩, .token ⟨.colon, [':']⟩, .token ⟨.ident "d", ['d']⟩,
    .token ⟨.colon, [':']⟩,
    .block ⟨.function "nth-child", "nth-child(".toList⟩ .round [.token ⟨.ident "odd", "odd".toList⟩]
      [')'],
    .token ⟨.comma, [',']⟩] ++ behindComma

def options : List Component :=
  [.token ⟨.ident "b", ['b']⟩, .token ⟨.comma, [',']⟩, .token ⟨.idHash "c", ['#', 'c']⟩]

def behindChild : List Component :=
  [.block ⟨.opening .square, ['[']⟩ .square
      [.token ⟨.ident "x", ['x']⟩, .token ⟨.delim '|', ['|']⟩, .token ⟨.ident "y", ['y']⟩,
        .token ⟨.delim '=', ['=']⟩, .token ⟨.ident "b", ['b']⟩, .token ⟨.blank " ", [' ']⟩,
        .token ⟨.ident "i", ['i']⟩] [']'],
    .token ⟨.colon, [':']⟩, .block ⟨.function "not", ['n', 'o', 't', '(']⟩ .round options [')'],
    .token ⟨.blank " ", [' ']⟩] ++ behindBlank

theorem components_text : Css.components text.toList =
    [.token ⟨.ident "a", ['a']⟩, .token ⟨.delim '.', ['.']⟩,
      .token ⟨.ident "1", ['\\', '3', '1', ' ']⟩, .token ⟨.delim '>', ['>']⟩] ++ behindChild := by
  cbv

theorem negated_options : negated options = .ok [[.type "b"], [.id "c"]] := by
  have hb : SimpleSelector.AllReadBack [.type "b"] :=
    SimpleSelector.allReadBack_single (SimpleSelector.readsBack_type ⟨by decide, by decide⟩)
  have hc : SimpleSelector.AllReadBack [.id "c"] :=
    SimpleSelector.allReadBack_single (SimpleSelector.readsBack_id ⟨by decide, by decide⟩)
  have hoptions : SimpleSelector.OptionsReadBack [[.type "b"], [.id "c"]] :=
    SimpleSelector.optionsReadBack (by simp) (by simp [hb, hc])
  have hcomponents : components (SimpleSelector.writeOptions [[.type "b"], [.id "c"]]) =
      options := by
    cbv
  exact hcomponents ▸ hoptions.read

theorem compound_child : SelectorReader.compound behindChild =
    .ok ([.attr ⟨"x:y", .equals, "b", true⟩, .negation [[.type "b"], [.id "c"]]],
      .token ⟨.blank " ", [' ']⟩ :: behindBlank) := by
  have hstep : step false behindChild.tail =
      .ok (.negation options (.token ⟨.blank " ", [' ']⟩ :: behindBlank)) := rfl
  have hnegation : simples false behindChild.tail =
      .ok ([.negation [[.type "b"], [.id "c"]]], .token ⟨.blank " ", [' ']⟩ :: behindBlank) := by
    rw [simples_eq, hstep]
    dsimp only
    rw [negated_options, simples_of_stop rfl]
    rfl
  have hattr : step true behindChild =
      .ok (.simple (.attr ⟨"x:y", .equals, "b", true⟩) behindChild.tail) := rfl
  rw [SelectorReader.compound, simples_of_step hattr, hnegation]
  rfl

theorem compound_blank : SelectorReader.compound behindBlank =
    .ok ([.pseudoElement "d", .nth ⟨false, false⟩ ⟨2, 1⟩],
      .token ⟨.comma, [',']⟩ :: behindComma) := by
  rw [SelectorReader.compound, simples_of_step rfl, simples_of_step rfl, simples_of_stop rfl]
  rfl

theorem read_various : read text = .ok list := by
  have hfirst : SelectorReader.compound (components text.toList) =
      .ok ([.type "a", .hasClass "1"], .token ⟨.delim '>', ['>']⟩ :: behindChild) := by
    rw [components_text, SelectorReader.compound, simples_of_step rfl, simples_of_step rfl,
      simples_of_stop rfl]
    rfl
  have hcomma : selectors behindComma = .ok [.compound [.dynamic "lang" (some "en")]] := by
    rw [selectors_eq, complex_of_step rfl rfl rfl]
    rfl
  have hskip : SelectorReader.skip (components text.toList) = components text.toList := by
    rw [components_text]
    rfl
  have hchild : link? (.token ⟨.delim '>', ['>']⟩ :: behindChild) =
      .ok (some (.child, behindChild)) := rfl
  have hblank : link? (.token ⟨.blank " ", [' ']⟩ :: behindBlank) =
      .ok (some (.descendant, behindBlank)) := rfl
  have hend : link? (.token ⟨.comma, [',']⟩ :: behindComma) = .ok none := rfl
  have hskipChild : SelectorReader.skip behindChild = behindChild := rfl
  have hskipBlank : SelectorReader.skip behindBlank = behindBlank := rfl
  rw [SelectorList.read, selectors_eq, complex, hskip, hfirst]
  dsimp only
  rw [chain_eq, hchild]
  dsimp only
  rw [hskipChild, compound_child]
  dsimp only
  rw [chain_eq, hblank]
  dsimp only
  rw [hskipBlank, compound_blank]
  dsimp only
  rw [chain_eq, hend]
  change ((selectors behindComma).map _).mapError _ = _
  rw [hcomma]
  rfl

theorem isArgument_en : SimpleSelector.IsArgument ['e', 'n'] where
  whole := ⟨by rw [EndsApart]; cbv, by cbv⟩
  free l hl := by
    have hcomponents : components ['e', 'n'] = [.token ⟨.ident "en", ['e', 'n']⟩] := by cbv
    rw [hcomponents, List.mem_singleton] at hl
    rw [Component.token.inj hl]
    exact Token.ne_closing_of_isPart rfl _

theorem isQualified_attr : AttributeSelector.IsQualified ⟨"x:y", .equals, "b", true⟩ := by
  rintro label stem ⟨⟩
  exact ⟨by simp, by simp⟩

theorem isWritable_list : ∀ s ∈ list, s.IsWritable := by
  refine List.forall_mem_cons.2 ⟨⟨?_, rfl⟩, List.forall_mem_singleton.2 ⟨?_, rfl⟩⟩
  · have hspelled : spellIdent ['d'] = ['d'] := by decide
    simp [SimpleSelector.leavesOfAll, SimpleSelector.leavesOfOptions, SimpleSelector.leaves,
      SimpleSelector.IsSpelled, isQualified_attr, hspelled]
  · simpa [SimpleSelector.leavesOfAll, SimpleSelector.leaves, SimpleSelector.IsSpelled] using
      isArgument_en

theorem read_text_various :
    read text = .ok list ∧ (∀ s ∈ list, s.IsWritable) ∧ read list.text = .ok list :=
  ⟨read_various, isWritable_list, read_text_of_isWritable read_various isWritable_list⟩

end Various

end SelectorList
end SvgCompact
