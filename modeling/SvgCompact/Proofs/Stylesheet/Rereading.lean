import SvgCompact.Pass.Values
import SvgCompact.Proofs.Document.Editing
import SvgCompact.Proofs.Stylesheet.Pieces
import SvgCompact.Proofs.Stylesheet.Selectors

/-!
A style sheet is read back from what it is written as, if its pieces stay apart.

What reading makes of a text gives the rest: blanks are squeezed, declarations are well
formed, and rules are numbered in order.  A rule that is written is then read first,
whatever stands behind it.
-/

namespace SvgCompact
namespace Stylesheet

open Css

variable {mark : Char} {name prelude : String}

/-! ## Reading a prelude -/

/-- What has begun, with more text. -/
def extended (more : List Char) : Begun → Begun
  | .nothing => .nothing
  | .selectors text => .selectors (text ++ more)
  | .atRule name text => .atRule name (text ++ more)

theorem readRules_extended {begun : Begun} (hbegun : begun ≠ .nothing) {c : Component}
    (hc : endsPrelude c = false) (position : Position) (number : Nat) (rest : List Component) :
    readRules begun position number (c :: rest) =
      readRules (extended c.text begun) (position.advance c.text) number rest := by
  obtain ⟨hends, hbody⟩ := endsPrelude_iff.1 hc
  obtain ⟨hstray, hsemicolon⟩ := endsDeclaration_iff.1 hends
  have hother : ∀ opener body closer, c ≠ .block opener .curly body closer := by
    rintro opener body closer rfl
    cases hbody
  cases begun with
  | nothing => exact absurd rfl hbegun
  | selectors text =>
    rw [readRules]
    · simp only [hstray, hsemicolon, Bool.or_false, if_false, Bool.false_eq_true]
      rfl
    · exact fun opener body closer => hother opener body closer
  | atRule name text =>
    rw [readRules]
    · simp only [hstray, hsemicolon, if_false, Bool.false_eq_true]
      rfl
    · exact fun opener body closer => hother opener body closer

theorem readRules_prelude {begun : Begun} (hbegun : begun ≠ .nothing) {cs : List Component}
    (hcs : ∀ c ∈ cs, endsPrelude c = false) (position : Position) (number : Nat)
    (rest : List Component) :
    ∃ behind, readRules begun position number (cs ++ rest) =
      readRules (extended (Component.textOf cs) begun) behind number rest := by
  induction cs generalizing begun position with
  | nil =>
    refine ⟨position, ?_⟩
    cases begun <;> simp [extended, Component.textOf]
  | cons c cs ih =>
    obtain ⟨hc, hcs⟩ := List.forall_mem_cons.1 hcs
    have hnext : extended c.text begun ≠ .nothing := by
      cases begun with
      | nothing => exact absurd rfl hbegun
      | selectors text => simp [extended]
      | atRule name text => simp [extended]
    obtain ⟨behind, hbehind⟩ := ih hnext hcs (position.advance c.text)
    refine ⟨behind, ?_⟩
    rw [List.cons_append, readRules_extended hbegun hc, hbehind]
    cases begun <;> simp [extended, Component.textOf]

theorem readRules_first {c : Component} (hc : endsPrelude c = false) (position : Position)
    (number : Nat) (rest : List Component) :
    readRules .nothing position number (c :: rest) =
      readRules (.first c) (position.advance c.text) number rest := by
  obtain ⟨hends, hbody⟩ := endsPrelude_iff.1 hc
  obtain ⟨hstray, hsemicolon⟩ := endsDeclaration_iff.1 hends
  rw [readRules]
  · simp only [hstray, hsemicolon, Bool.or_false, if_false, Bool.false_eq_true]
  · rintro opener body closer rfl
    cases hbody

/-- The text of selectors or of a prelude, from the component that begins it on. -/
theorem readRules_begun {c : Component} {cs : List Component} {b : Begun} (hb : b ≠ .nothing)
    (hfirst : Begun.first c = b) (hcs : ∀ x ∈ c :: cs, endsPrelude x = false)
    (position : Position) (number : Nat) (rest : List Component) :
    ∃ behind, readRules .nothing position number (c :: cs ++ rest) =
      readRules (extended (Component.textOf cs) b) behind number rest := by
  obtain ⟨hc, hcs⟩ := List.forall_mem_cons.1 hcs
  obtain ⟨behind, hbehind⟩ := readRules_prelude hb hcs (position.advance c.text) number rest
  exact ⟨behind, by rw [List.cons_append, readRules_first hc, hfirst, hbehind]⟩

/-- The block of a body. -/
def bodyBlock (body : List Component) : Component :=
  .block ⟨.opening .curly, ['\x7b']⟩ .curly body ['\x7d']

theorem readRules_style {selectors : List String} (h : IsSelectorList selectors)
    (hne : selectors ≠ []) (hsqueezed : ∀ s ∈ selectors, Text.squeeze s.toList = s.toList)
    (body : List Component) (position : Position) (number : Nat) (rest : List Component) :
    ∃ behind, readRules .nothing position number
        (components ([','].intercalate (selectors.map String.toList)) ++ bodyBlock body :: rest) =
      prepend (.style ⟨number, selectors, declarationsOf body⟩)
        (readRules .nothing behind (number + 1) rest) := by
  obtain ⟨c, hc, hfirst⟩ := h.begins
  have hpiece := (isPiece_selectors h).unbroken
  have htext := textOf_components ([','].intercalate (selectors.map String.toList))
  cases hcs : components ([','].intercalate (selectors.map String.toList)) with
  | nil =>
    rw [hcs] at hc
    cases hc
  | cons d cs =>
    rw [hcs] at hc hpiece htext
    cases hc
    obtain ⟨behind, hbehind⟩ := readRules_begun (by simp) hfirst hpiece position number
      (bodyBlock body :: rest)
    rw [Component.textOf] at htext
    rw [hbehind, extended, htext, bodyBlock, readRules]
    simp only [selectorsOf_intercalate h hne hsqueezed]
    exact ⟨_, rfl⟩

theorem preludeBefore_spacedPrelude (h : IsHead mark name prelude)
    (hsqueezed : Text.squeeze prelude.toList = prelude.toList) :
    preludeBefore mark (spacedPrelude prelude) = prelude := by
  rw [spacedPrelude]
  split
  · next hempty =>
    rw [String.isEmpty_iff] at hempty
    subst hempty
    rfl
  · next hne =>
    have hends : ∀ c ∈ (' ' :: prelude.toList).getLast?, (c == mark) = false := by
      intro c hc
      cases hprelude : prelude.toList with
      | nil => exact absurd (String.toList_inj.1 hprelude) (by simpa using hne)
      | cons d ds =>
        rw [hprelude, List.getLast?_cons_cons] at hc
        exact h.ends c (by rwa [hprelude])
    rw [preludeBefore, Text.trimEndBy_eq_self hends, preludeOf, Text.squeeze_cons_space, hsqueezed,
      String.ofList_toList]

/-- The head of an at-rule, up to its body or its semicolon. -/
theorem readRules_head (h : IsHead mark name prelude) (position : Position) (number : Nat)
    (rest : List Component) :
    ∃ behind, readRules .nothing position number (headComponents name prelude ++ rest) =
      readRules (.atRule name (spacedPrelude prelude)) behind number rest := by
  obtain ⟨behind, hbehind⟩ := readRules_begun (b := .atRule name []) (by simp) rfl
    (endsPrelude_headComponents h) position number rest
  refine ⟨behind, hbehind.trans ?_⟩
  rw [extended, List.nil_append, spacedPrelude]
  split
  · rfl
  · rw [Component.textOf, textOf_components]
    rfl

theorem readRules_semicolon (h : IsHead ';' name prelude)
    (hsqueezed : Text.squeeze prelude.toList = prelude.toList) (position : Position)
    (number : Nat) (rest : List Component) :
    readRules (.atRule name (spacedPrelude prelude)) position number
        (.token ⟨.semicolon, [';']⟩ :: rest) =
      prepend (.statement name prelude)
        (readRules .nothing (position.advance [';']) number rest) := by
  rw [readRules]
  · simp only [isStray, Component.isSemicolon, if_false, if_true, Bool.false_eq_true,
      preludeBefore_spacedPrelude h hsqueezed]
    rfl
  · intro opener body closer
    simp

end Stylesheet

/-! ## Rules -/

namespace Rule

open Css Stylesheet

mutual

/-- The first number that is free behind a rule. -/
def free (number : Nat) : Rule → Nat
  | style _ => number + 1
  | statement _ _ => number
  | group _ _ rules => freeOf number rules
  | verbatim _ _ _ => number

def freeOf (number : Nat) : List Rule → Nat
  | [] => number
  | r :: rest => freeOf (free number r) rest

end

mutual

/-- What reading gives every rule: its number, squeezed texts, declarations that are
well formed, and whether its body is read. -/
def IsReadAs (number : Nat) : Rule → Prop
  | style r =>
    r.number = number ∧ r.selectors ≠ [] ∧
      (∀ s ∈ r.selectors, Text.squeeze s.toList = s.toList) ∧
      ∀ d ∈ r.declarations, readDeclaration? d.write = some d
  | statement _ prelude => Text.squeeze prelude.toList = prelude.toList
  | group name prelude rules =>
    Text.squeeze prelude.toList = prelude.toList ∧ isGrouping name = true ∧
      AreReadAs number rules
  | verbatim name prelude _ =>
    Text.squeeze prelude.toList = prelude.toList ∧ isGrouping name = false

def AreReadAs (number : Nat) : List Rule → Prop
  | [] => True
  | r :: rest => IsReadAs number r ∧ AreReadAs (free number r) rest

end

mutual

/-- Whether the pieces of a rule stay apart when they are written. -/
def IsWritable : Rule → Prop
  | style r => IsSelectorList r.selectors ∧ ∀ d ∈ r.declarations, IsApart d
  | statement name prelude => IsHead ';' name prelude
  | group name prelude rules => IsHead '\x7b' name prelude ∧ AreWritable rules
  | verbatim name prelude body =>
    IsHead '\x7b' name prelude ∧ IsPiece isStray (Text.trim body.toList)

def AreWritable : List Rule → Prop
  | [] => True
  | r :: rest => IsWritable r ∧ AreWritable rest

end

mutual

/-- A rule whose bodies that are kept as text are trimmed. -/
def trimmed : Rule → Rule
  | style r => style r
  | statement name prelude => statement name prelude
  | group name prelude rules => group name prelude (trimmedOf rules)
  | verbatim name prelude body => verbatim name prelude (String.ofList (Text.trim body.toList))

def trimmedOf : List Rule → List Rule
  | [] => []
  | r :: rest => trimmed r :: trimmedOf rest

end

/-! ### What reading gives -/

theorem squeeze_preludeOf (text : List Char) :
    Text.squeeze (preludeOf text).toList = (preludeOf text).toList := by
  rw [preludeOf, String.toList_ofList, Text.squeeze_squeeze]

theorem selectorsOf_ne_nil (text : List Char) : selectorsOf text ≠ [] := by
  rw [selectorsOf, splitSelectors]
  simp

theorem squeeze_of_mem_selectorsOf {text : List Char} {s : String} (h : s ∈ selectorsOf text) :
    Text.squeeze s.toList = s.toList := by
  obtain ⟨part, -, rfl⟩ := List.mem_map.1 h
  rw [String.toList_ofList, Text.squeeze_squeeze]

theorem readDeclaration?_of_mem {body : List Component} {d : Declaration}
    (h : d ∈ declarationsOf body) : readDeclaration? d.write = some d := by
  obtain ⟨part, -, hd⟩ := List.mem_filterMap.1 h
  exact readDeclaration?_write hd

theorem areReadAs_of_readRules {begun : Begun} {position : Position} {low high : Nat}
    {cs : List Component} {rules : List Rule}
    (h : readRules begun position low cs = .ok (rules, high)) :
    AreReadAs low rules ∧ high = freeOf low rules := by
  fun_induction readRules begun position low cs generalizing rules high
  case case1 =>
    cases h
    exact ⟨trivial, rfl⟩
  case case3 =>
    cases h
    exact ⟨⟨squeeze_preludeOf _, trivial⟩, rfl⟩
  case case5 ih =>
    obtain ⟨rest, hrest, rfl⟩ := prepend_eq_ok h
    obtain ⟨hread, hhigh⟩ := ih hrest
    exact ⟨⟨⟨rfl, selectorsOf_ne_nil _, fun _ => squeeze_of_mem_selectorsOf,
      fun _ => readDeclaration?_of_mem⟩, hread⟩, hhigh⟩
  case case6 hgrouping _ _ hbody ihBody ihRest =>
    obtain ⟨rest, hrest, rfl⟩ := prepend_eq_ok h
    obtain ⟨hread, rfl⟩ := ihBody hbody
    obtain ⟨hreadRest, hhigh⟩ := ihRest hrest
    exact ⟨⟨⟨squeeze_preludeOf _, hgrouping, hread⟩, hreadRest⟩, hhigh⟩
  case case9 hgrouping ih =>
    obtain ⟨rest, hrest, rfl⟩ := prepend_eq_ok h
    obtain ⟨hread, hhigh⟩ := ih hrest
    exact ⟨⟨⟨squeeze_preludeOf _, by simpa using hgrouping⟩, hread⟩, hhigh⟩
  case case15 ih =>
    obtain ⟨rest, hrest, rfl⟩ := prepend_eq_ok h
    obtain ⟨hread, hhigh⟩ := ih hrest
    exact ⟨⟨squeeze_preludeOf _, hread⟩, hhigh⟩
  case case11 ih | case13 ih | case16 ih =>
    exact ih h
  all_goals cases h

/-! ### What is written -/

/-- A text whose components are its own, whatever follows it, also inside a block. -/
structure StandsApart (s : List Char) : Prop where
  closed : IsClosed s
  unbroken : ∀ c ∈ components s, isStray c = false

namespace StandsApart

variable {s t front body : List Char}

theorem nil : StandsApart [] where
  closed := isClosed_nil
  unbroken := by simp [components_nil]

theorem append (hs : StandsApart s) (ht : StandsApart t) : StandsApart (s ++ t) where
  closed := hs.closed.append ht.closed
  unbroken := by
    rw [hs.closed.components_append]
    exact List.forall_mem_append.2 ⟨hs.unbroken, ht.unbroken⟩

theorem isPiece (h : StandsApart s) : IsPiece isStray s where
  whole := h.closed.isWhole
  unbroken := h.unbroken

theorem components_withBody (hfront : IsWhole front) (hbody : IsPiece isStray body) :
    components (front ++ '\x7b' :: body ++ ['\x7d']) =
      components front ++ [bodyBlock (components body)] := by
  have hblock := encloses_curly.components_block (hbody.whole.beforeMark (by decide))
    (not_closing_of_isStray hbody.unbroken) []
  rw [components_nil] at hblock
  rw [List.append_assoc, List.cons_append, hfront.components_append (isTail_cons (by decide) _)]
  exact congrArg _ hblock

theorem withBody (hfront : IsPiece endsPrelude front) (hbody : IsPiece isStray body) :
    StandsApart (front ++ '\x7b' :: body ++ ['\x7d']) where
  closed := by
    rw [List.append_assoc]
    exact hfront.whole.append_isClosed (by decide)
      (encloses_curly.isClosed_block (hbody.whole.beforeMark (by decide))
        (not_closing_of_isStray hbody.unbroken))
  unbroken := by
    rw [components_withBody hfront.whole hbody]
    refine List.forall_mem_append.2 ⟨fun c hc => ?_, List.forall_mem_singleton.2 rfl⟩
    exact (endsDeclaration_iff.1 (endsPrelude_iff.1 (hfront.unbroken c hc)).1).1

theorem components_withSemicolon (hfront : IsWhole front) :
    components (front ++ [';']) = components front ++ [.token ⟨.semicolon, [';']⟩] := by
  rw [isSeparator_semicolon.components_append hfront, components_nil]

theorem withSemicolon (hfront : IsPiece endsPrelude front) : StandsApart (front ++ [';']) where
  closed := hfront.whole.append_isClosed (by decide) isSeparator_semicolon.isClosed
  unbroken := by
    rw [components_withSemicolon hfront.whole]
    refine List.forall_mem_append.2 ⟨fun c hc => ?_, List.forall_mem_singleton.2 rfl⟩
    exact (endsDeclaration_iff.1 (endsPrelude_iff.1 (hfront.unbroken c hc)).1).1

end StandsApart

mutual

theorem standsApart_write {number : Nat} : (r : Rule) → r.IsReadAs number → r.IsWritable →
    StandsApart r.write
  | style _, _, hwritable =>
    .withBody (isPiece_selectors hwritable.1) (isPiece_writeDeclarations hwritable.2)
  | statement _ _, hread, hwritable => .withSemicolon (isPiece_writeHead hwritable hread)
  | group _ _ rules, hread, hwritable =>
    .withBody (isPiece_writeHead hwritable.1 hread.1)
      (standsApart_writeAll rules hread.2.2 hwritable.2).isPiece
  | verbatim _ _ _, hread, hwritable =>
    .withBody (isPiece_writeHead hwritable.1 hread.1) hwritable.2

theorem standsApart_writeAll {number : Nat} : (rules : List Rule) → AreReadAs number rules →
    AreWritable rules → StandsApart (writeAll rules)
  | [], _, _ => .nil
  | r :: rest, hread, hwritable =>
    (standsApart_write r hread.1 hwritable.1).append
      (standsApart_writeAll rest hread.2 hwritable.2)

end

/-! ### Reading what is written -/

mutual

/-- A rule that is written is read first, and then what follows it. -/
theorem readRules_write {number : Nat} : (r : Rule) → r.IsReadAs number → r.IsWritable →
    ∀ position rest, ∃ behind, readRules .nothing position number (components r.write ++ rest) =
      prepend r.trimmed (readRules .nothing behind (free number r) rest)
  | style r, hread, hwritable => by
    intro position rest
    obtain ⟨rfl, hne, hsqueezed, hdeclarations⟩ := hread
    obtain ⟨behind, hbehind⟩ := readRules_style hwritable.1 hne hsqueezed
      (components (writeDeclarations r.declarations)) position r.number rest
    refine ⟨behind, ?_⟩
    rw [write, StandsApart.components_withBody (isPiece_selectors hwritable.1).whole
      (isPiece_writeDeclarations hwritable.2), List.append_assoc, List.singleton_append, hbehind,
      declarationsOf_write hwritable.2 hdeclarations]
    rfl
  | statement name prelude, hread, hwritable => by
    intro position rest
    obtain ⟨behind, hbehind⟩ := readRules_head hwritable position number
      (.token ⟨.semicolon, [';']⟩ :: rest)
    have hsemicolon := readRules_semicolon hwritable hread behind number rest
    rw [write, StandsApart.components_withSemicolon (isPiece_writeHead hwritable hread).whole,
      components_writeHead hwritable hread, List.append_assoc, List.singleton_append, hbehind,
      hsemicolon]
    exact ⟨_, rfl⟩
  | group name prelude rules, hread, hwritable => by
    intro position rest
    obtain ⟨hsqueezed, hgrouping, hrules⟩ := hread
    obtain ⟨hhead, hbody⟩ := hwritable
    have hpiece := (standsApart_writeAll rules hrules hbody).isPiece
    obtain ⟨behind, hbehind⟩ := readRules_head hhead position number
      (bodyBlock (components (writeAll rules)) :: rest)
    rw [write, StandsApart.components_withBody (isPiece_writeHead hhead hsqueezed).whole hpiece,
      components_writeHead hhead hsqueezed, List.append_assoc, List.singleton_append, hbehind,
      bodyBlock, readRules]
    simp only [hgrouping, if_true, readRules_writeAll rules hrules hbody,
      preludeBefore_spacedPrelude hhead hsqueezed]
    exact ⟨_, rfl⟩
  | verbatim name prelude body, hread, hwritable => by
    intro position rest
    obtain ⟨hsqueezed, hgrouping⟩ := hread
    obtain ⟨hhead, hpiece⟩ := hwritable
    obtain ⟨behind, hbehind⟩ := readRules_head hhead position number
      (bodyBlock (components (Text.trim body.toList)) :: rest)
    rw [write, StandsApart.components_withBody (isPiece_writeHead hhead hsqueezed).whole hpiece,
      components_writeHead hhead hsqueezed, List.append_assoc, List.singleton_append, hbehind,
      bodyBlock, readRules]
    simp only [hgrouping, if_false, Bool.false_eq_true, textOf_components,
      preludeBefore_spacedPrelude hhead hsqueezed]
    exact ⟨_, rfl⟩

theorem readRules_writeAll {number : Nat} : (rules : List Rule) → AreReadAs number rules →
    AreWritable rules → ∀ position,
    readRules .nothing position number (components (writeAll rules)) =
      .ok (trimmedOf rules, freeOf number rules)
  | [], _, _ => by
    intro position
    rw [writeAll, components_nil, readRules]
    rfl
  | r :: rest, hread, hwritable => by
    intro position
    obtain ⟨behind, hbehind⟩ := readRules_write r hread.1 hwritable.1 position
      (components (writeAll rest))
    rw [writeAll, (standsApart_write r hread.1 hwritable.1).closed.components_append, hbehind,
      readRules_writeAll rest hread.2 hwritable.2 behind]
    rfl

end

/-! ### Bodies that are trimmed -/

mutual

theorem trimmed_trimmed : (r : Rule) → r.trimmed.trimmed = r.trimmed
  | style _ => rfl
  | statement _ _ => rfl
  | group _ _ rules => by rw [trimmed, trimmed, trimmedOf_trimmedOf rules]
  | verbatim _ _ body => by
    have htrim : Text.trim (Text.trim body.toList) = Text.trim body.toList :=
      Text.trimBy_trimBy Text.isBlank body.toList
    rw [trimmed, trimmed, String.toList_ofList, htrim]

theorem trimmedOf_trimmedOf : (rules : List Rule) → trimmedOf (trimmedOf rules) = trimmedOf rules
  | [] => rfl
  | r :: rest => by rw [trimmedOf, trimmedOf, trimmed_trimmed r, trimmedOf_trimmedOf rest]

end

end Rule

/-! ## Style sheets that are read, written and read again

A sheet whose pieces stay apart comes back with its rules in order and nested as they
were, with their numbers, selectors, declarations, names and preludes; only the bodies
that are kept as text lose the blanks around them.  So a `style` element that is
written anew keeps its rules. -/

namespace Document

theorem textContent_replaceText {d : Document} (h : d.IsForest) {id : NodeId} (hid : id < d.size)
    (cdata : Bool) (s : String) : (d.replaceText id cdata s).textContent id = s := by
  have hcharacters : (if cdata then Content.cdata s else .text s).characters? = some s := by
    cases cdata <;> rfl
  rw [textContent, h.children_replaceText hid, if_pos rfl, List.filterMap_cons,
    content_replaceText, if_pos rfl, hcharacters]
  exact String.empty_append

end Document

namespace Stylesheet

/-- Whether the pieces of a sheet stay apart when they are written. -/
def IsWritable (sheet : Stylesheet) : Prop :=
  Rule.AreWritable sheet.rules

def trimmed (sheet : Stylesheet) : Stylesheet :=
  ⟨Rule.trimmedOf sheet.rules⟩

section

variable {text : String} {sheet : Stylesheet}

theorem read_eq_ok (h : read text = .ok sheet) :
    ∃ high, readRules .nothing .start 0 (Css.components text.toList) =
      .ok (sheet.rules, high) := by
  rw [read] at h
  split at h
  · next rules high heq =>
    cases h
    exact ⟨high, heq⟩
  · cases h

theorem read_write_eq (h : read text = .ok sheet) (hwritable : sheet.IsWritable) :
    read sheet.write = .ok sheet.trimmed := by
  obtain ⟨high, hrules⟩ := read_eq_ok h
  have hread := Rule.readRules_writeAll sheet.rules (Rule.areReadAs_of_readRules hrules).1
    hwritable .start
  rw [read, write, String.toList_ofList, hread]
  rfl

/-- The text of an element after its sheet was written anew. -/
theorem textContent_minifySheet (h : read text = .ok sheet) {d : Document} (hd : d.IsForest)
    {id : NodeId} (hid : id < d.size) (htext : d.textContent id = text) :
    (Pass.minifySheet d id).textContent id = text ∨
      (Pass.minifySheet d id).textContent id = sheet.write := by
  simp only [Pass.minifySheet, htext, h]
  split
  · exact .inl htext
  · exact .inr (Document.textContent_replaceText hd hid _ _)

/-- A sheet that was read is read back from what it is written as, and an element in
which it is written anew holds the same rules. -/
theorem read_write_of_isWritable (h : read text = .ok sheet) (hwritable : sheet.IsWritable) :
    read sheet.write = .ok sheet.trimmed ∧
      ∀ (d : Document) (id : NodeId), d.IsForest → id < d.size → d.textContent id = text →
        ∃ held, read ((Pass.minifySheet d id).textContent id) = .ok held ∧
          held.trimmed = sheet.trimmed := by
  have hread := read_write_eq h hwritable
  refine ⟨hread, fun d id hd hid htext => ?_⟩
  rcases textContent_minifySheet h hd hid htext with heq | heq
  · exact ⟨sheet, by rw [heq, h], rfl⟩
  · refine ⟨sheet.trimmed, by rw [heq, hread], ?_⟩
    rw [trimmed, trimmed, Rule.trimmedOf_trimmedOf]

end

/-! ### A sheet with a group and a body that is kept -/

namespace Grouped

open Css

def text : String := "@media x\x7ba,b\x7bc:'\x7d'\x7d\x7d@y\x7b e \x7d"

def declaration : Declaration := ⟨"c", "'\x7d'", .normal⟩

def sheet : Stylesheet :=
  ⟨[.group "media" "x" [.style ⟨0, ["a", "b"], [declaration]⟩], .verbatim "y" "" " e "]⟩

/-- The components of the declaration and of the body that is kept. -/
def body : List Component :=
  [.token ⟨.ident "c", ['c']⟩, .token ⟨.colon, [':']⟩,
    .token ⟨.quoted "\x7d", ['\'', '\x7d', '\'']⟩]

def kept : List Component :=
  [.token ⟨.blank " ", [' ']⟩, .token ⟨.ident "e", ['e']⟩, .token ⟨.blank " ", [' ']⟩]

set_option maxRecDepth 2000 in
theorem components_text : components text.toList =
    [.token ⟨.atKeyword "media", "@media".toList⟩, .token ⟨.blank " ", [' ']⟩,
      .token ⟨.ident "x", ['x']⟩,
      bodyBlock [.token ⟨.ident "a", ['a']⟩, .token ⟨.comma, [',']⟩, .token ⟨.ident "b", ['b']⟩,
        bodyBlock body],
      .token ⟨.atKeyword "y", ['@', 'y']⟩, bodyBlock kept] := by
  cbv

theorem read_text : read text = .ok sheet := by
  have hselectors : selectorsOf ['a', ',', 'b'] = ["a", "b"] := by cbv
  have hdeclarations : declarationsOf body = [declaration] := by cbv
  have hprelude : preludeBefore '\x7b' [' ', 'x'] = "x" := by cbv
  have hnone : preludeBefore '\x7b' [] = "" := by cbv
  have hkept : Component.textOf kept = [' ', 'e', ' '] := by cbv
  have hmedia : isGrouping "media" = true := by decide
  have hother : isGrouping "y" = false := by decide
  rw [read, components_text]
  simp [bodyBlock, readRules, Begun.first, Component.head, isStray, Component.isSemicolon,
    Component.text, hselectors, hdeclarations, hprelude, hnone, hkept, hmedia, hother, prepend,
    Except.map, sheet]

theorem isSelectorList_sheet : IsSelectorList ["a", "b"] where
  pieces := List.forall_mem_cons.2
    ⟨isPiece_iff.2 (by cbv), List.forall_mem_singleton.2 (isPiece_iff.2 (by cbv))⟩
  uncommented := List.forall_mem_cons.2
    ⟨by rw [HasNoComment]; cbv, List.forall_mem_singleton.2 (by rw [HasNoComment]; cbv)⟩
  begins := by
    have hcomponents : components ([','].intercalate (["a", "b"].map String.toList)) =
        [.token ⟨.ident "a", ['a']⟩, .token ⟨.comma, [',']⟩, .token ⟨.ident "b", ['b']⟩] := by
      cbv
    rw [hcomponents]
    exact ⟨_, rfl, rfl⟩
  ends := by simp

theorem isHead_media : IsHead '\x7b' "media" "x" where
  name := ⟨by decide, by simp [Css.isNameChar]⟩
  piece := isPiece_iff.2 (by cbv)
  ends := by simp

theorem isHead_other : IsHead '\x7b' "y" "" where
  name := ⟨by decide, by simp [Css.isNameChar]⟩
  piece := isPiece_iff.2 (by cbv)
  ends := by simp

theorem isWritable_sheet : sheet.IsWritable := by
  have hdeclaration : IsApart declaration :=
    ⟨isPiece_iff.2 (by cbv), by rw [HasNoComment]; cbv⟩
  have hkept : IsPiece isStray (Text.trim " e ".toList) := isPiece_iff.2 (by cbv)
  exact ⟨⟨isHead_media, ⟨isSelectorList_sheet, by simpa using hdeclaration⟩, trivial⟩,
    ⟨isHead_other, hkept⟩, trivial⟩

theorem read_write_grouped :
    read text = .ok sheet ∧ sheet.IsWritable ∧ read sheet.write = .ok sheet.trimmed ∧
      ∀ (d : Document) (id : NodeId), d.IsForest → id < d.size → d.textContent id = text →
        ∃ held, read ((Pass.minifySheet d id).textContent id) = .ok held ∧
          held.trimmed = sheet.trimmed :=
  ⟨read_text, isWritable_sheet, read_write_of_isWritable read_text isWritable_sheet⟩

end Grouped
end Stylesheet

end SvgCompact
