import Mathlib
import SvgCompact.Proofs.Selector.Agreement
import SvgCompact.Proofs.Text.Trimming
import SvgCompact.Stylesheet.Reader

/-!
Selector lists that are cut into texts.

The parts between the commas of a list are read as its selectors, one by one.  The text
that is kept of a part has lost its comments and its runs of blanks, and is read as the same
selector when it says the same as the part: when nothing but blanks between tokens was
squeezed, and no comment was all that kept two tokens apart.
-/

namespace SvgCompact
namespace SelectorReader

open Css

variable {c : Component} {cs : List Component}

/-! ## Lists -/

/-- A single selector has nothing behind it. -/
theorem selectors_eq_singleton {s : ComplexSelector} :
    selectors cs = .ok [s] ↔ ∃ rest, complex cs = .ok (s, rest) ∧ skip rest = [] := by
  constructor
  · intro hread
    cases SelectorsRead.of_selectors hread with
    | last hs hskip => exact ⟨_, hs, hskip⟩
    | more _ _ _ hothers => exact absurd rfl hothers.ne_nil
  · rintro ⟨rest, hs, hskip⟩
    exact (SelectorsRead.last hs hskip).selectors_eq_ok

/-- What says the same is read as the same selector. -/
theorem selectors_of_senses {part part' : List Component} (hopened : ∀ c ∈ part, c.IsOpened)
    (hopened' : ∀ d ∈ part', d.IsOpened) (hsame : senses none part = senses none part')
    {s : ComplexSelector} (hread : selectors part = .ok [s]) : selectors part' = .ok [s] := by
  obtain ⟨rest, hs, hskip⟩ := selectors_eq_singleton.1 hread
  rw [← complex_skip] at hs
  obtain ⟨rest', hs', hrest⟩ := (alike_skip hopened hopened' hsame).complex hs
  rw [complex_skip] at hs'
  exact selectors_eq_singleton.2 ⟨rest', hs', hrest.skip_nil hskip⟩

theorem exists_token_of_isComma (h : c.isComma = true) : ∃ x, c = .token ⟨.comma, x⟩ := by
  cases c with
  | token l =>
    obtain ⟨t, x⟩ := l
    cases t <;> first | exact ⟨x, rfl⟩ | cases h
  | block => cases h

theorem mem_of_behind_complex {s : ComplexSelector} {rest more : List Component}
    (hopened : ∀ c ∈ cs, c.IsOpened) (hs : complex cs = .ok (s, rest))
    (hrest : skip rest = c :: more) : c ∈ cs := by
  have hskip : skip rest <:+ rest := List.dropWhile_suffix _
  exact (hskip.trans (lists_complex hopened hs).1).subset (hrest ▸ List.mem_cons_self ..)

/-- What a list begins with up to its first comma is read as its first selector, and what is
behind the comma as the others. -/
theorem selectors_append {front behind : List Component} {mark : Component} {list : SelectorList}
    (hopened : ∀ c ∈ front ++ mark :: behind, c.IsOpened)
    (hfront : ∀ c ∈ front, c.isComma = false) (hmark : mark.isComma = true)
    (hread : selectors (front ++ mark :: behind) = .ok list) :
    ∃ s others, list = s :: others ∧ selectors front = .ok [s] ∧ selectors behind = .ok others := by
  have hends : IsEnd (mark :: behind) := by
    obtain ⟨x, rfl⟩ := exists_token_of_isComma hmark
    exact .inr ⟨x, behind, rfl⟩
  have hopened' : ∀ c ∈ front, c.IsOpened := fun c hc => hopened c (List.mem_append_left _ hc)
  have halike : Alike (mark :: behind) [] (front ++ mark :: behind) front :=
    ⟨hends, isEnd_nil, hopened, hopened', front, front, rfl, (List.append_nil _).symm, rfl⟩
  cases SelectorsRead.of_selectors hread with
  | last hs hnone =>
    obtain ⟨rest', -, hrest⟩ := halike.complex hs
    cases hrest.ahead with
    | ended hc | found hc => cases hnone.symm.trans hc
  | more hs hsome hcomma hothers =>
    obtain ⟨rest', hs', hrest⟩ := halike.complex hs
    cases hrest.ahead with
    | ended hc hd =>
      cases hsome.symm.trans hc
      exact ⟨_, _, rfl, selectors_eq_singleton.2 ⟨rest', hs', hd⟩, hothers.selectors_eq_ok⟩
    | found hc hd _ hsimilar =>
      cases hsome.symm.trans hc
      -- the reader would have gone past the end of the front
      have hmem := mem_of_behind_complex hopened' hs' hd
      rw [hsimilar.isComma_eq, hfront _ hmem] at hcomma
      cases hcomma

theorem selectors_of_no_comma {list : SelectorList} (hopened : ∀ c ∈ cs, c.IsOpened)
    (hcs : ∀ c ∈ cs, c.isComma = false) (hread : selectors cs = .ok list) : ∃ s, list = [s] := by
  cases SelectorsRead.of_selectors hread with
  | last => exact ⟨_, rfl⟩
  | more hs hrest hcomma =>
    rw [hcs _ (mem_of_behind_complex hopened hs hrest)] at hcomma
    cases hcomma

/-- The parts between the commas of a list are read as its selectors, one by one. -/
theorem map_selectors_splitOnP {cs : List Component} {list : SelectorList}
    (hopened : ∀ c ∈ cs, c.IsOpened) (hread : selectors cs = .ok list) :
    (cs.splitOnP Component.isComma).map selectors = list.map fun s => .ok [s] := by
  rcases Text.splitOnP_cases Component.isComma cs with
    ⟨hcs, heq⟩ | ⟨front, mark, behind, rfl, hfront, hmark, heq⟩
  · obtain ⟨s, rfl⟩ := selectors_of_no_comma hopened hcs hread
    rw [heq, List.map_singleton, hread, List.map_singleton]
  · obtain ⟨s, others, rfl, hs, hothers⟩ := selectors_append hopened hfront hmark hread
    have hbehind : ∀ c ∈ behind, c.IsOpened := fun c hc => hopened c (by simp [hc])
    rw [heq, List.map_cons, List.map_cons, hs, map_selectors_splitOnP hbehind hothers]
termination_by cs.length

end SelectorReader

namespace SelectorList

open SelectorReader

/-- What stands between the commas of a text. -/
def partsOf (text : String) : List (List Css.Component) :=
  (Css.components text.toList).splitOnP Css.Component.isComma

/-- The text that is kept of a part. -/
def keptText (part : List Css.Component) : String :=
  String.ofList (Text.squeeze (Css.uncommented (Css.Component.textOf part)))

theorem splitSelectors_eq (text : String) :
    Stylesheet.splitSelectors text.toList = (partsOf text).map keptText :=
  rfl

/-- Whether the text that is kept of a part says what the part says. -/
def KeepsSense (part : List Css.Component) : Prop :=
  senses none part = senses none (Css.components (keptText part).toList)

theorem forall_isOpened_of_mem_partsOf {text : String} {part : List Css.Component}
    (h : part ∈ partsOf text) : ∀ c ∈ part, c.IsOpened :=
  fun c hc => Css.isOpened_components _ c ((Text.isInfix_of_mem_splitOnP h).subset hc)

theorem read_keptText {part : List Css.Component} (hopened : ∀ c ∈ part, c.IsOpened)
    (hkeeps : KeepsSense part) {s : ComplexSelector} (hread : selectors part = .ok [s]) :
    ComplexSelector.read (keptText part) = .ok s := by
  rw [ComplexSelector.read, SelectorList.read,
    selectors_of_senses hopened (Css.isOpened_components _) hkeeps hread]
  rfl

/-- A list that was read is cut into as many texts as it has selectors.  The parts between its
commas are read as these selectors, and so is every text that says what its part says. -/
theorem read_splitSelectors {text : String} {list : SelectorList}
    (h : SelectorList.read text = .ok list) :
    (Stylesheet.splitSelectors text.toList).length = list.length ∧
      (partsOf text).map selectors = list.map (fun s => .ok [s]) ∧
      ∀ (i : Nat) part (s : ComplexSelector), (partsOf text)[i]? = some part → list[i]? = some s →
        KeepsSense part →
        (Stylesheet.splitSelectors text.toList)[i]?.map ComplexSelector.read = some (.ok s) := by
  have hread : selectors (Css.components text.toList) = .ok list := by
    rw [SelectorList.read] at h
    cases hselectors : selectors (Css.components text.toList) with
    | error fault =>
      rw [hselectors] at h
      cases h
    | ok found =>
      rw [hselectors] at h
      cases h
      rfl
  have hparts : (partsOf text).map selectors = list.map fun s => .ok [s] :=
    map_selectors_splitOnP (Css.isOpened_components _) hread
  rw [splitSelectors_eq]
  refine ⟨?_, hparts, fun i part s hpart hs hkeeps => ?_⟩
  · simpa using congrArg List.length hparts
  · have hone : selectors part = .ok [s] := by
      have hi := congrArg (·[i]?) hparts
      simpa [hpart, hs] using hi
    have hopened := forall_isOpened_of_mem_partsOf (List.mem_of_getElem? hpart)
    rw [List.getElem?_map, hpart, Option.map_some, Option.map_some,
      read_keptText hopened hkeeps hone]

/-- Blanks in a quoted text are squeezed too. -/
example : Stylesheet.splitSelectors "[a='x  y']".toList = ["[a='x y']"] := by
  cbv

/-! ## Two selectors with a quoted blank and a comment -/

namespace Spaced

open Css

def text : String := "[c='d e'] ,\n/*x*/ .b"

def front : List Component :=
  [.block ⟨.opening .square, ['[']⟩ .square
      [.token ⟨.ident "c", ['c']⟩, .token ⟨.delim '=', ['=']⟩,
        .token ⟨.quoted "d e", ['\'', 'd', ' ', 'e', '\'']⟩] [']'],
    .token ⟨.blank " ", [' ']⟩]

def behind : List Component :=
  [.token ⟨.blank "\n", ['\n']⟩, .token ⟨.comment "x", ['/', '*', 'x', '*', '/']⟩,
    .token ⟨.blank " ", [' ']⟩, .token ⟨.delim '.', ['.']⟩, .token ⟨.ident "b", ['b']⟩]

def tested : ComplexSelector := .compound [.attr ⟨"c", .equals, "d e", false⟩]

def classed : ComplexSelector := .compound [.hasClass "b"]

theorem components_text :
    components text.toList = front ++ .token ⟨.comma, [',']⟩ :: behind := by
  cbv

theorem partsOf_text : partsOf text = [front, behind] := by
  rw [partsOf, components_text]
  cbv

theorem read_text : SelectorList.read text = .ok [tested, classed] := by
  have hfront : complex (front ++ .token ⟨.comma, [',']⟩ :: behind) =
      .ok (tested, .token ⟨.blank " ", [' ']⟩ :: .token ⟨.comma, [',']⟩ :: behind) :=
    complex_of_step rfl rfl rfl
  have hskip : skip (.token ⟨.blank " ", [' ']⟩ :: .token ⟨.comma, [',']⟩ :: behind) =
      .token ⟨.comma, [',']⟩ :: behind :=
    rfl
  have hbehind : selectors behind = .ok [classed] :=
    selectors_eq_singleton.2 ⟨[], complex_of_step rfl rfl rfl, rfl⟩
  rw [SelectorList.read, components_text, selectors_eq, hfront]
  dsimp only
  rw [hskip]
  dsimp only
  rw [hbehind]
  rfl

theorem keepsSense_front : KeepsSense front := by
  rw [KeepsSense]
  cbv

theorem keepsSense_behind : KeepsSense behind := by
  rw [KeepsSense]
  cbv

theorem read_splitSelectors_spaced :
    SelectorList.read text = .ok [tested, classed] ∧ KeepsSense front ∧ KeepsSense behind ∧
      (Stylesheet.splitSelectors text.toList).length = 2 ∧
      (Stylesheet.splitSelectors text.toList)[0]?.map ComplexSelector.read =
        some (.ok tested) ∧
      (Stylesheet.splitSelectors text.toList)[1]?.map ComplexSelector.read =
        some (.ok classed) := by
  obtain ⟨hlength, -, hread⟩ := read_splitSelectors read_text
  rw [partsOf_text] at hread
  exact ⟨read_text, keepsSense_front, keepsSense_behind, hlength,
    hread 0 front tested rfl rfl keepsSense_front,
    hread 1 behind classed rfl rfl keepsSense_behind⟩

end Spaced
end SelectorList
end SvgCompact
