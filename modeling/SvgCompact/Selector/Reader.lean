import SvgCompact.Selector.Basic

/-!
Reading selectors from components.

Comments count for nothing, and blanks only between compounds, where they stand
for the descendant combinator.  Every step takes components from the front of
the list or goes into a block, so reading ends.
-/

namespace SvgCompact
namespace SelectorReader

open Css

abbrev Result (α : Type) := Except SelectorFault α

/-! ## Lists of components get smaller -/

theorem sizeOf_le_of_sublist {l₁ l₂ : List Component} (h : l₁.Sublist l₂) :
    sizeOf l₁ ≤ sizeOf l₂ := by
  induction h with
  | slnil => exact Nat.le_refl _
  | cons c _ ih => simp only [List.cons.sizeOf_spec]; omega
  | cons_cons c _ ih => simp only [List.cons.sizeOf_spec]; omega

/-- The components from the first that is neither blank nor comment on. -/
def skip (cs : List Component) : List Component :=
  cs.dropWhile Component.isSpacing

/-- The components from the first that is no comment on. -/
def skipComments (cs : List Component) : List Component :=
  cs.dropWhile Component.isComment

/-- Refuses what is left over. -/
def finished (cs : List Component) : Result Unit :=
  match skip cs with
  | [] => .ok ()
  | c :: _ => .error (.unexpected c.head)

/-! ## Attribute tests -/

def attributeTest? : Token → Option AttributeTest
  | .delim '=' => some .equals
  | .matching sign => some (.matching sign)
  | _ => none

def attributeName (cs : List Component) : Result (String × List Component) :=
  match skip cs with
  | [] => .error .ended
  | .token ⟨.ident name, _⟩ :: rest =>
    match skipComments rest with
    | .token ⟨.delim '|', _⟩ :: rest =>
      match skipComments rest with
      | [] => .error .ended
      | .token ⟨.ident stem, _⟩ :: rest => .ok (name ++ ":" ++ stem, rest)
      | c :: _ => .error (.unexpected c.head)
    | _ => .ok (name, rest)
  | c :: _ => .error (.unexpected c.head)

/-- The flag behind a value that says whether case counts. -/
def caseFlag (cs : List Component) : Result (Bool × List Component) :=
  match skip cs with
  | [] => .ok (false, [])
  | .token ⟨.ident flag, _⟩ :: rest =>
    if Text.sameWord flag "i" then .ok (true, rest)
    else if Text.sameWord flag "s" then .ok (false, rest)
    else .error (.unexpected (.ident flag))
  | c :: _ => .error (.unexpected c.head)

def attributeValue (cs : List Component) : Result (String × List Component) :=
  match skip cs with
  | [] => .error .ended
  | .token ⟨.ident value, _⟩ :: rest => .ok (value, rest)
  | .token ⟨.quoted value, _⟩ :: rest => .ok (value, rest)
  | c :: _ => .error (.unexpected c.head)

def attributeSelector (body : List Component) : Result AttributeSelector := do
  let (name, rest) ← attributeName body
  match skip rest with
  | [] => .ok ⟨name, .present, "", false⟩
  | c :: rest =>
    match attributeTest? c.head with
    | none => .error (.unexpected c.head)
    | some test => do
      let (value, rest) ← attributeValue rest
      let (ignoreCase, rest) ← caseFlag rest
      finished rest
      .ok ⟨name, test, value, ignoreCase⟩

/-! ## Pseudo-classes -/

/-- Pseudo-elements that may be written with a single colon. -/
def singleColonElements : List String := ["before", "after", "first-line", "first-letter"]

def dynamicClasses : List String :=
  ["hover", "active", "focus", "focus-visible", "focus-within", "visited", "link", "any-link",
    "target", "checked", "disabled", "enabled", "indeterminate", "default", "required",
    "optional", "valid", "invalid", "read-only", "read-write", "placeholder-shown", "defined"]

def dynamicFunctions : List String := ["lang", "dir"]

/-- A pseudo-class or pseudo-element written as a name. -/
def pseudoName (name : String) : Result SimpleSelector :=
  let lower := Text.lowerWord name
  match Place.all.find? (·.name == lower) with
  | some place => .ok (.place place)
  | none =>
    if singleColonElements.contains lower then .ok (.pseudoElement lower)
    else if dynamicClasses.contains lower then .ok (.dynamic lower none)
    else .error (.unknownPseudoClass name)

/-- A pseudo-class with an argument that holds no selectors. -/
def pseudoFunction (name : String) (body : List Component) : Result SimpleSelector :=
  let lower := Text.lowerWord name
  match Counting.all.find? (·.name == lower) with
  | some counting => (Nth.read body).map (.nth counting)
  | none =>
    if dynamicFunctions.contains lower then
      .ok (.dynamic lower (some (String.ofList (Text.trim (Component.textOf body)))))
    else .error (.unknownPseudoFunction name)

/-- The name behind two colons. -/
def pseudoElement (cs : List Component) : Result (SimpleSelector × List Component) :=
  match skipComments cs with
  | [] => .error .ended
  | .token ⟨.ident name, _⟩ :: rest => .ok (.pseudoElement (Text.lowerWord name), rest)
  | c :: _ => .error (.unexpected c.head)

/-! ## Compounds -/

/-- What is found at the front of a list: a simple selector, the options of a
negation that are still to be read, or the end of the compound. -/
inductive Step
  | simple (s : SimpleSelector) (rest : List Component)
  | negation (body rest : List Component)
  | stop

def afterColon (cs : List Component) : Result Step :=
  match skipComments cs with
  | [] => .error .ended
  | .token ⟨.colon, _⟩ :: rest => (pseudoElement rest).map fun (s, rest) => .simple s rest
  | .token ⟨.ident name, _⟩ :: rest => (pseudoName name).map (.simple · rest)
  | .block ⟨.function name, _⟩ _ body _ :: rest =>
    if Text.sameWord name "not" then .ok (.negation body rest)
    else (pseudoFunction name body).map (.simple · rest)
  | c :: _ => .error (.unexpected c.head)

def afterStop (cs : List Component) : Result Step :=
  match skipComments cs with
  | [] => .error .ended
  | .token ⟨.ident name, _⟩ :: rest => .ok (.simple (.hasClass name) rest)
  | c :: _ => .error (.unexpected c.head)

/-- The first step of a list.  A type or the universal selector has to come
first in its compound. -/
def step (isFirst : Bool) (cs : List Component) : Result Step :=
  match skipComments cs with
  | .token ⟨.ident name, _⟩ :: rest =>
    if isFirst then .ok (.simple (.type name) rest) else .error .typeNotFirst
  | .token ⟨.delim '*', _⟩ :: rest =>
    if isFirst then .ok (.simple .universal rest) else .error .typeNotFirst
  | .token ⟨.idHash name, _⟩ :: rest => .ok (.simple (.id name) rest)
  | .token ⟨.delim '.', _⟩ :: rest => afterStop rest
  | .token ⟨.colon, _⟩ :: rest => afterColon rest
  | .block _ .square body _ :: rest =>
    (attributeSelector body).map fun a => .simple (.attr a) rest
  | _ => .ok .stop

/-- A step uses up components, and the body of a negation is inside one. -/
def Step.Inside (cs : List Component) : Step → Prop
  | .simple _ rest => sizeOf rest < sizeOf cs
  | .negation body rest => sizeOf body < sizeOf cs ∧ sizeOf rest < sizeOf cs
  | .stop => True

theorem sizeOf_skipComments (cs : List Component) : sizeOf (skipComments cs) ≤ sizeOf cs :=
  sizeOf_le_of_sublist (List.dropWhile_sublist _)

theorem Step.Inside.of_cons {cs rest : List Component} {c : Component} {s : Step}
    (h : s.Inside rest) (hc : skipComments cs = c :: rest) : s.Inside cs := by
  have hs := sizeOf_skipComments cs
  rw [hc, List.cons.sizeOf_spec] at hs
  cases s with
  | simple s r => simp only [Step.Inside] at h ⊢; omega
  | negation b r => simp only [Step.Inside] at h ⊢; omega
  | stop => trivial

theorem simple_inside {cs rest : List Component} {c : Component} {s : SimpleSelector}
    (hc : skipComments cs = c :: rest) : (Step.simple s rest).Inside cs := by
  have hs := sizeOf_skipComments cs
  rw [hc, List.cons.sizeOf_spec] at hs
  simp only [Step.Inside]
  omega

theorem afterColon_inside {cs : List Component} {s : Step} (h : afterColon cs = .ok s) :
    s.Inside cs := by
  unfold afterColon at h
  split at h
  · cases h
  · next rest hc =>
    unfold pseudoElement at h
    split at h
    · cases h
    · next hr => cases h; exact (simple_inside hr).of_cons hc
    · cases h
  · next name _ rest hc =>
    cases hp : pseudoName name with
    | error e => rw [hp] at h; cases h
    | ok p => rw [hp] at h; cases h; exact simple_inside hc
  · next name _ _ body _ rest hc =>
    split at h
    · cases h
      have hs := sizeOf_skipComments cs
      rw [hc, List.cons.sizeOf_spec, Component.block.sizeOf_spec] at hs
      simp only [Step.Inside]
      omega
    · cases hp : pseudoFunction name body with
      | error e => rw [hp] at h; cases h
      | ok p => rw [hp] at h; cases h; exact simple_inside hc
  · cases h

theorem afterStop_inside {cs : List Component} {s : Step} (h : afterStop cs = .ok s) :
    s.Inside cs := by
  unfold afterStop at h
  split at h
  · cases h
  · next hc => cases h; exact simple_inside hc
  · cases h

theorem step_inside {isFirst : Bool} {cs : List Component} {s : Step}
    (h : step isFirst cs = .ok s) : s.Inside cs := by
  unfold step at h
  split at h
  · next hc =>
    split at h
    · cases h; exact simple_inside hc
    · cases h
  · next hc =>
    split at h
    · cases h; exact simple_inside hc
    · cases h
  · next hc => cases h; exact simple_inside hc
  · next hc => exact (afterStop_inside h).of_cons hc
  · next hc => exact (afterColon_inside h).of_cons hc
  · next body _ _ hc =>
    cases ha : attributeSelector body with
    | error e => rw [ha] at h; cases h
    | ok a => rw [ha] at h; cases h; exact simple_inside hc
  · cases h; trivial

/-- The components up to the first comma. -/
def untilComma (cs : List Component) : List Component :=
  cs.takeWhile (!·.isComma)

theorem sizeOf_skip (cs : List Component) : sizeOf (skip cs) ≤ sizeOf cs :=
  sizeOf_le_of_sublist (List.dropWhile_sublist _)

theorem sizeOf_skip_untilComma (cs : List Component) :
    sizeOf (skip (untilComma cs)) ≤ sizeOf cs :=
  Nat.le_trans (sizeOf_skip _) (sizeOf_le_of_sublist (List.takeWhile_sublist _))

/-- The components behind the first comma. -/
def behindComma? (cs : List Component) : Option (List Component) :=
  match cs.dropWhile (!·.isComma) with
  | [] => none
  | _ :: rest => some rest

theorem sizeOf_behindComma {cs rest : List Component} (h : behindComma? cs = some rest) :
    sizeOf rest < sizeOf cs := by
  have hs := sizeOf_le_of_sublist (List.dropWhile_sublist (l := cs) (!·.isComma))
  unfold behindComma? at h
  split at h
  · cases h
  · next hd =>
    cases h
    rw [hd, List.cons.sizeOf_spec] at hs
    omega

mutual

/-- The simple selectors of a compound from the place of one on, and the
components behind them. -/
def simples (isFirst : Bool) (cs : List Component) :
    Result (List SimpleSelector × List Component) :=
  match _h : step isFirst cs with
  | .error fault => .error fault
  | .ok .stop => .ok ([], cs)
  | .ok (.simple s rest) => do
    let (others, rest) ← simples false rest
    .ok (s :: others, rest)
  | .ok (.negation body rest) => do
    let options ← negated body
    let (others, rest) ← simples false rest
    .ok (.negation options :: others, rest)
termination_by (sizeOf cs, 0)
decreasing_by
  · have := step_inside _h
    simp only [Step.Inside] at this
    exact Prod.Lex.left _ _ this
  · have := step_inside _h
    simp only [Step.Inside] at this
    exact Prod.Lex.left _ _ this.1
  · have := step_inside _h
    simp only [Step.Inside] at this
    exact Prod.Lex.left _ _ this.2

/-- The compounds between the commas of a negation.  Each has to take all that
stands between two commas. -/
def negated (body : List Component) : Result (List CompoundSelector) := do
  let part := skip (untilComma body)
  let (c, rest) ← simples true part
  if c.isEmpty then .error .noSelector
  finished rest
  match _h : behindComma? body with
  | none => .ok [c]
  | some more => do
    let others ← negated more
    .ok (c :: others)
termination_by (sizeOf body, 1)
decreasing_by
  · have h := sizeOf_skip_untilComma body
    rcases Nat.lt_or_eq_of_le h with h | h
    · exact Prod.Lex.left _ _ h
    · rw [show sizeOf (skip (untilComma body)) = sizeOf body from h]
      exact Prod.Lex.right _ (by decide)
  · exact Prod.Lex.left _ _ (sizeOf_behindComma _h)

end

/-- What is left behind simple selectors is smaller if there are any. -/
theorem sizeOf_simples {isFirst : Bool} {cs rest : List Component} {l : List SimpleSelector}
    (h : simples isFirst cs = .ok (l, rest)) :
    sizeOf rest ≤ sizeOf cs ∧ (l ≠ [] → sizeOf rest < sizeOf cs) := by
  rw [simples] at h
  split at h
  · cases h
  · cases h; exact ⟨Nat.le_refl _, fun h => absurd rfl h⟩
  · next s more hs =>
    have hm := step_inside hs
    simp only [Step.Inside] at hm
    cases hr : simples false more with
    | error e => rw [hr] at h; cases h
    | ok r =>
      rw [hr] at h
      cases h
      have := (sizeOf_simples hr).1
      exact ⟨by omega, fun _ => by omega⟩
  · next body more hs =>
    have hm := step_inside hs
    simp only [Step.Inside] at hm
    cases hn : negated body with
    | error e => rw [hn] at h; cases h
    | ok options =>
      cases hr : simples false more with
      | error e => rw [hn, hr] at h; cases h
      | ok r =>
        rw [hn, hr] at h
        cases h
        have := (sizeOf_simples hr).1
        exact ⟨by omega, fun _ => by omega⟩
termination_by sizeOf cs
decreasing_by
  · exact hm
  · exact hm.2

def compound (cs : List Component) : Result (CompoundSelector × List Component) :=
  match simples true cs with
  | .error fault => .error fault
  | .ok ([], _) => .error .noSelector
  | .ok (c, rest) => .ok (c, rest)

theorem sizeOf_compound {cs rest : List Component} {c : CompoundSelector}
    (h : compound cs = .ok (c, rest)) : sizeOf rest < sizeOf cs := by
  unfold compound at h
  split at h
  · cases h
  · cases h
  · next hne hs =>
    cases h
    exact (sizeOf_simples hs).2 hne

/-! ## Complex selectors and lists -/

def combinator? : Component → Option Combinator
  | .token ⟨.delim '>', _⟩ => some .child
  | .token ⟨.delim '+', _⟩ => some .nextSibling
  | .token ⟨.delim '~', _⟩ => some .laterSibling
  | _ => none

/-- The combinator at the front and the components behind it, or nothing where
the selector ends. -/
def link? (cs : List Component) : Result (Option (Combinator × List Component)) :=
  match skip cs with
  | [] => .ok none
  | c :: rest =>
    match combinator? c with
    | some k => .ok (some (k, rest))
    | none =>
      if c.isComma then .ok none
      else if (cs.takeWhile Component.isSpacing).any Component.isBlank then
        .ok (some (.descendant, c :: rest))
      else .error (.unexpected c.head)

theorem sizeOf_link {cs rest : List Component} {k : Combinator}
    (h : link? cs = .ok (some (k, rest))) : sizeOf rest ≤ sizeOf cs := by
  have hs := sizeOf_skip cs
  unfold link? at h
  split at h
  · cases h
  · next hc =>
    rw [hc, List.cons.sizeOf_spec] at hs
    split at h
    · cases h; omega
    · split at h
      · cases h
      · split at h
        · cases h; rw [List.cons.sizeOf_spec]; omega
        · cases h

/-- Continues a complex selector. -/
def chain (left : ComplexSelector) (cs : List Component) :
    Result (ComplexSelector × List Component) :=
  match _hl : link? cs with
  | .error fault => .error fault
  | .ok none => .ok (left, cs)
  | .ok (some (k, rest)) =>
    match _hc : compound (skip rest) with
    | .error fault => .error fault
    | .ok (c, more) => chain (.combined left k c) more
termination_by sizeOf cs
decreasing_by
  have h₁ := sizeOf_link _hl
  have h₂ := sizeOf_skip rest
  have h₃ := sizeOf_compound _hc
  omega

def complex (cs : List Component) : Result (ComplexSelector × List Component) :=
  match compound (skip cs) with
  | .error fault => .error fault
  | .ok (c, rest) => chain (.compound c) rest

theorem sizeOf_chain {left s : ComplexSelector} {cs rest : List Component}
    (h : chain left cs = .ok (s, rest)) : sizeOf rest ≤ sizeOf cs := by
  rw [chain] at h
  split at h
  · cases h
  · cases h; exact Nat.le_refl _
  · next more hl =>
    split at h
    · cases h
    · next hc =>
      have h₁ := sizeOf_link hl
      have h₂ := sizeOf_skip more
      have h₃ := sizeOf_compound hc
      have h₄ := sizeOf_chain h
      omega
termination_by sizeOf cs
decreasing_by omega

theorem sizeOf_complex {s : ComplexSelector} {cs rest : List Component}
    (h : complex cs = .ok (s, rest)) : sizeOf rest < sizeOf cs := by
  unfold complex at h
  split at h
  · cases h
  · next hc =>
    have h₁ := sizeOf_skip cs
    have h₂ := sizeOf_compound hc
    have h₃ := sizeOf_chain h
    omega

def selectors (cs : List Component) : Result SelectorList :=
  match _hs : complex cs with
  | .error fault => .error fault
  | .ok (s, rest) =>
    match _hr : skip rest with
    | [] => .ok [s]
    | c :: more =>
      if c.isComma then (selectors more).map (s :: ·) else .error (.unexpected c.head)
termination_by sizeOf cs
decreasing_by
  have h₁ := sizeOf_complex _hs
  have h₂ := sizeOf_skip rest
  rw [_hr, List.cons.sizeOf_spec] at h₂
  omega

end SelectorReader

namespace SelectorList

def read (text : String) : Except SelectorError SelectorList :=
  (SelectorReader.selectors (Css.components text.toList)).mapError (⟨text, ·⟩)

end SelectorList

namespace ComplexSelector

def read (text : String) : Except SelectorError ComplexSelector :=
  match SelectorList.read text with
  | .error e => .error e
  | .ok [s] => .ok s
  | .ok _ => .error ⟨text, .notSingle⟩

end ComplexSelector
end SvgCompact
