import SvgCompact.Proofs.Selector.Senses
import SvgCompact.Proofs.Selector.Tables

/-!
Reading selectors in loops.

A reader in loops goes through the components turn by turn.  It pushes simple selectors,
options, compounds, combinators and selectors at the ends of lists, and looks for a
combinator with a flag that says whether a blank was passed.  What such a loop comes to is
said by relations that have no bound: nothing but the components stops it.

Every turn takes components away, so each loop ends, with one result, on every list of
components.  The lists that come out are the tables of the selectors that are read, or the
fault is the same.
-/

namespace SvgCompact
namespace SelectorReader

open Css

/-! ## Simple selectors and negations -/

mutual

/-- What the loop over the simple selectors of a compound comes to, behind those that were
found. -/
inductive CompoundRuns : List SimpleSelector → List Component →
    Result (CompoundSelector × List Component) → Prop
  | fails {found cs fault} (h : step found.isEmpty cs = .error fault) :
    CompoundRuns found cs (.error fault)
  | lacks {cs} (h : step true cs = .ok .stop) : CompoundRuns [] cs (.error .noSelector)
  | ends {found cs} (h : step found.isEmpty cs = .ok .stop) (hne : found ≠ []) :
    CompoundRuns found cs (.ok (found, cs))
  | simple {found cs s rest result} (h : step found.isEmpty cs = .ok (.simple s rest))
    (hrest : CompoundRuns (found ++ [s]) rest result) : CompoundRuns found cs result
  | negationFails {found cs body rest fault}
    (h : step found.isEmpty cs = .ok (.negation body rest))
    (hbody : NegationRuns [] body (.error fault)) : CompoundRuns found cs (.error fault)
  | negation {found cs body rest options result}
    (h : step found.isEmpty cs = .ok (.negation body rest))
    (hbody : NegationRuns [] body (.ok options))
    (hrest : CompoundRuns (found ++ [.negation options]) rest result) :
    CompoundRuns found cs result

/-- What the loop over the options of a negation comes to, behind those that were found.
An option has to take all up to the next comma. -/
inductive NegationRuns : List CompoundSelector → List Component →
    Result (List CompoundSelector) → Prop
  | fails {found body fault} (h : CompoundRuns [] (skip (untilComma body)) (.error fault)) :
    NegationRuns found body (.error fault)
  | leaves {found body c rest fault}
    (h : CompoundRuns [] (skip (untilComma body)) (.ok (c, rest)))
    (hrest : finished rest = .error fault) : NegationRuns found body (.error fault)
  | ends {found body c rest} (h : CompoundRuns [] (skip (untilComma body)) (.ok (c, rest)))
    (hrest : finished rest = .ok ()) (hlast : behindComma? body = none) :
    NegationRuns found body (.ok (found ++ [c]))
  | goesOn {found body c rest more result}
    (h : CompoundRuns [] (skip (untilComma body)) (.ok (c, rest)))
    (hrest : finished rest = .ok ()) (hmore : behindComma? body = some more)
    (hothers : NegationRuns (found ++ [c]) more result) : NegationRuns found body result

end

section

variable {found : List SimpleSelector} {cs rest body : List Component} {s : SimpleSelector}
  {result : Result (CompoundSelector × List Component)} {fault : SelectorFault}

/-! ### One turn -/

theorem compoundRuns_of_error (h : step found.isEmpty cs = .error fault) :
    CompoundRuns found cs result ↔ result = .error fault := by
  constructor
  · intro hruns
    cases hruns with
    | fails h' => rw [Except.error.inj (h.symm.trans h')]
    | lacks h' | ends h' | simple h' | negationFails h' | negation h' => cases h.symm.trans h'
  · rintro rfl
    exact .fails h

theorem compoundRuns_of_stop (h : step found.isEmpty cs = .ok .stop) :
    CompoundRuns found cs result ↔
      result = if found.isEmpty then .error .noSelector else .ok (found, cs) := by
  constructor
  · intro hruns
    cases hruns with
    | lacks h' => rfl
    | ends h' hne => rw [if_neg (by simpa using hne)]
    | fails h' | simple h' | negationFails h' | negation h' => cases h.symm.trans h'
  · rintro rfl
    cases found with
    | nil => exact .lacks h
    | cons s found => exact .ends h (List.cons_ne_nil s found)

theorem compoundRuns_of_simple (h : step found.isEmpty cs = .ok (.simple s rest)) :
    CompoundRuns found cs result ↔ CompoundRuns (found ++ [s]) rest result := by
  constructor
  · intro hruns
    cases hruns with
    | simple h' hrest =>
      cases h.symm.trans h'
      exact hrest
    | fails h' | lacks h' | ends h' | negationFails h' | negation h' => cases h.symm.trans h'
  · exact .simple h

theorem compoundRuns_of_negation (h : step found.isEmpty cs = .ok (.negation body rest)) :
    CompoundRuns found cs result ↔
      (∃ fault, NegationRuns [] body (.error fault) ∧ result = .error fault) ∨
      ∃ options, NegationRuns [] body (.ok options) ∧
        CompoundRuns (found ++ [.negation options]) rest result := by
  constructor
  · intro hruns
    cases hruns with
    | negationFails h' hbody =>
      cases h.symm.trans h'
      exact .inl ⟨_, hbody, rfl⟩
    | negation h' hbody hrest =>
      cases h.symm.trans h'
      exact .inr ⟨_, hbody, hrest⟩
    | fails h' | lacks h' | ends h' | simple h' => cases h.symm.trans h'
  · rintro (⟨fault, hbody, rfl⟩ | ⟨options, hbody, hrest⟩)
    · exact .negationFails h hbody
    · exact .negation h hbody hrest

end

/-! ### All turns -/

theorem map_cons_append {α : Type} (found : List α) (a : α) (x : Result (List α)) :
    (x.map (a :: ·)).map (found ++ ·) = x.map (found ++ [a] ++ ·) := by
  cases x with
  | error fault => rfl
  | ok l => simp [Except.map]

/-- The compound whose first simple selectors were found. -/
def compoundFrom (found : List SimpleSelector) (cs : List Component) :
    Result (CompoundSelector × List Component) :=
  match simples found.isEmpty cs with
  | .error fault => .error fault
  | .ok (l, rest) =>
    if (found ++ l).isEmpty then .error .noSelector else .ok (found ++ l, rest)

theorem compoundFrom_nil (cs : List Component) : compoundFrom [] cs = compound cs := by
  rw [compoundFrom, compound, List.isEmpty_nil]
  cases simples true cs with
  | error fault => rfl
  | ok r =>
    obtain ⟨l, rest⟩ := r
    cases l <;> rfl

theorem compoundFrom_append {found : List SimpleSelector} {cs rest : List Component}
    (s : SimpleSelector)
    (h : simples found.isEmpty cs = (simples false rest).map fun (l, rest) => (s :: l, rest)) :
    compoundFrom found cs = compoundFrom (found ++ [s]) rest := by
  have hempty : (found ++ [s]).isEmpty = false := by simp
  rw [compoundFrom, compoundFrom, h, hempty]
  cases simples false rest with
  | error fault => rfl
  | ok r => simp [Except.map]

theorem negated_eq_compound (body : List Component) :
    negated body =
      match compound (skip (untilComma body)) with
      | .error fault => .error fault
      | .ok (c, rest) =>
        match finished rest with
        | .error fault => .error fault
        | .ok _ =>
          match behindComma? body with
          | none => .ok [c]
          | some more => (negated more).map (c :: ·) := by
  rw [negated_eq, compound]
  cases simples true (skip (untilComma body)) with
  | error fault => rfl
  | ok r =>
    obtain ⟨c, rest⟩ := r
    cases c with
    | nil => rfl
    | cons s c =>
      dsimp only [List.isEmpty_cons]
      rw [if_neg Bool.false_ne_true]
      cases finished rest <;> rfl

-- The loops put what they find behind what was found, the reader in front of what it reads
-- next; so both are stated for all that can have been found.
mutual

/-- The loop comes to the compound that is read and to nothing else. -/
theorem compoundRuns_iff {found : List SimpleSelector} {cs : List Component}
    {result : Result (CompoundSelector × List Component)} :
    CompoundRuns found cs result ↔ result = compoundFrom found cs := by
  cases hstep : step found.isEmpty cs with
  | error fault => rw [compoundRuns_of_error hstep, compoundFrom, simples_eq, hstep]
  | ok next =>
    have hinside := step_inside hstep
    cases next with
    | stop =>
      rw [compoundRuns_of_stop hstep, compoundFrom, simples_of_stop hstep]
      simp
    | simple s rest =>
      rw [compoundRuns_of_simple hstep, compoundRuns_iff,
        compoundFrom_append s (simples_of_step hstep)]
    | negation body rest =>
      rw [compoundRuns_of_negation hstep]
      have hoptions : ∀ r, NegationRuns [] body r ↔ r = (negated body).map ([] ++ ·) :=
        fun r => negationRuns_iff
      have hrest : ∀ found r, CompoundRuns found rest r ↔ r = compoundFrom found rest :=
        fun found r => compoundRuns_iff
      simp only [hoptions, hrest]
      have hread := simples_eq found.isEmpty cs
      rw [hstep] at hread
      dsimp only at hread
      cases hbody : negated body with
      | error fault =>
        rw [hbody] at hread
        simp [compoundFrom, hread, Except.map, Except.bind]
      | ok options =>
        rw [hbody] at hread
        simp [compoundFrom_append (.negation options) hread, Except.map]
termination_by (sizeOf cs, 0)
decreasing_by
  · exact Prod.Lex.left _ _ hinside
  · exact Prod.Lex.left _ _ hinside.1
  · exact Prod.Lex.left _ _ hinside.2

/-- The loop comes to the options that are read and to nothing else. -/
theorem negationRuns_iff {found : List CompoundSelector} {body : List Component}
    {result : Result (List CompoundSelector)} :
    NegationRuns found body result ↔ result = (negated body).map (found ++ ·) := by
  have hoption : ∀ r, CompoundRuns [] (skip (untilComma body)) r ↔
      r = compound (skip (untilComma body)) :=
    fun r => by rw [compoundRuns_iff, compoundFrom_nil]
  have hothers : ∀ more, behindComma? body = some more → ∀ found r,
      NegationRuns found more r ↔ r = (negated more).map (found ++ ·) :=
    fun more hmore found r => negationRuns_iff
  rw [negated_eq_compound]
  constructor
  · intro hruns
    cases hruns with
    | fails h =>
      rw [← (hoption _).1 h]
      rfl
    | leaves h hrest =>
      rw [← (hoption _).1 h]
      dsimp only
      rw [hrest]
      rfl
    | ends h hrest hlast =>
      rw [← (hoption _).1 h]
      dsimp only
      rw [hrest, hlast]
      rfl
    | goesOn h hrest hmore hruns =>
      rw [← (hoption _).1 h]
      dsimp only
      rw [hrest, hmore, (hothers _ hmore _ _).1 hruns]
      exact (map_cons_append found _ _).symm
  · rintro rfl
    cases hc : compound (skip (untilComma body)) with
    | error fault => exact .fails ((hoption _).2 hc.symm)
    | ok r =>
      obtain ⟨c, rest⟩ := r
      have hruns := (hoption _).2 hc.symm
      dsimp only
      cases hrest : finished rest with
      | error fault => exact .leaves hruns hrest
      | ok _ =>
        cases hmore : behindComma? body with
        | none => exact .ends hruns hrest hmore
        | some more =>
          exact .goesOn hruns hrest hmore
            ((hothers more hmore _ _).2 (map_cons_append found c (negated more)))
termination_by (sizeOf body, 1)
decreasing_by
  · rcases Nat.lt_or_eq_of_le (sizeOf_skip_untilComma body) with hlt | heq
    · exact Prod.Lex.left _ _ hlt
    · rw [show sizeOf (skip (untilComma body)) = sizeOf body from heq]
      exact Prod.Lex.right _ (by decide)
  · exact Prod.Lex.left _ _ (sizeOf_behindComma hmore)

end

theorem compoundRuns_nil_iff {cs : List Component}
    {result : Result (CompoundSelector × List Component)} :
    CompoundRuns [] cs result ↔ result = compound cs := by
  rw [compoundRuns_iff, compoundFrom_nil]

/-! ## Complex selectors -/

/-- The combinator at the front and the components behind it.  Turn by turn blanks and
comments are passed; the flag says whether a blank was.  Where the selector ends, what is
behind it stays. -/
def linkFrom (sawBlank : Bool) : List Component → Result (Option Combinator × List Component)
  | [] => .ok (none, [])
  | c :: rest =>
    if c.isBlank then linkFrom true rest
    else if c.isComment then linkFrom sawBlank rest
    else match combinator? c with
      | some k => .ok (some k, rest)
      | none =>
        if c.isComma then .ok (none, c :: rest)
        else if sawBlank then .ok (some .descendant, c :: rest)
        else .error (.unexpected c.head)

/-- What the loop over the compounds of a selector comes to, behind those that were found
and the combinators between them. -/
inductive ChainRuns : List CompoundSelector → List Combinator → List Component →
    Result (SelectorTable × List Component) → Prop
  | fails {compounds combinators cs fault} (h : linkFrom false cs = .error fault) :
    ChainRuns compounds combinators cs (.error fault)
  | ends {compounds combinators cs rest} (h : linkFrom false cs = .ok (none, rest)) :
    ChainRuns compounds combinators cs (.ok (⟨compounds, combinators⟩, rest))
  | compoundFails {compounds combinators cs k rest fault}
    (h : linkFrom false cs = .ok (some k, rest))
    (hc : CompoundRuns [] (skip rest) (.error fault)) :
    ChainRuns compounds combinators cs (.error fault)
  | goesOn {compounds combinators cs k rest c more result}
    (h : linkFrom false cs = .ok (some k, rest))
    (hc : CompoundRuns [] (skip rest) (.ok (c, more)))
    (hmore : ChainRuns (compounds ++ [c]) (combinators ++ [k]) more result) :
    ChainRuns compounds combinators cs result

/-- What the loop over the compounds of a selector comes to from the first of them on. -/
inductive ComplexRuns : List Component → Result (SelectorTable × List Component) → Prop
  | fails {cs fault} (h : CompoundRuns [] cs (.error fault)) : ComplexRuns cs (.error fault)
  | chains {cs c rest result} (h : CompoundRuns [] cs (.ok (c, rest)))
    (hrest : ChainRuns [c] [] rest result) : ComplexRuns cs result

/-- What the loop over the selectors of a list comes to, behind those that were found. -/
inductive ListRuns : List SelectorTable → List Component → Result (List SelectorTable) → Prop
  | fails {found cs fault} (h : ComplexRuns (skip cs) (.error fault)) :
    ListRuns found cs (.error fault)
  | ends {found cs t rest} (h : ComplexRuns (skip cs) (.ok (t, rest))) (hrest : skip rest = []) :
    ListRuns found cs (.ok (found ++ [t]))
  | leaves {found cs t rest c more} (h : ComplexRuns (skip cs) (.ok (t, rest)))
    (hrest : skip rest = c :: more) (hc : c.isComma = false) :
    ListRuns found cs (.error (.unexpected c.head))
  | goesOn {found cs t rest c more result} (h : ComplexRuns (skip cs) (.ok (t, rest)))
    (hrest : skip rest = c :: more) (hc : c.isComma = true)
    (hmore : ListRuns (found ++ [t]) more result) : ListRuns found cs result

theorem linkFrom_eq (sawBlank : Bool) (cs : List Component) :
    linkFrom sawBlank cs =
      match skip cs with
      | [] => .ok (none, [])
      | c :: rest =>
        match combinator? c with
        | some k => .ok (some k, rest)
        | none =>
          if c.isComma then .ok (none, c :: rest)
          else if sawBlank || (cs.takeWhile Component.isSpacing).any Component.isBlank then
            .ok (some .descendant, c :: rest)
          else .error (.unexpected c.head) := by
  induction cs generalizing sawBlank with
  | nil => rfl
  | cons c cs ih =>
    rw [linkFrom]
    by_cases hblank : c.isBlank = true
    · have hspacing : c.isSpacing = true := by simp [Component.isSpacing, hblank]
      rw [if_pos hblank, ih, skip, skip, List.dropWhile_cons_of_pos hspacing,
        List.takeWhile_cons_of_pos hspacing]
      simp [hblank]
    · by_cases hcomment : c.isComment = true
      · have hspacing : c.isSpacing = true := by simp [Component.isSpacing, hcomment]
        rw [if_neg hblank, if_pos hcomment, ih, skip, skip, List.dropWhile_cons_of_pos hspacing,
          List.takeWhile_cons_of_pos hspacing]
        simp [hblank]
      · have hspacing : c.isSpacing ≠ true := by simp [Component.isSpacing, hblank, hcomment]
        rw [if_neg hblank, if_neg hcomment, skip, List.dropWhile_cons_of_neg hspacing,
          List.takeWhile_cons_of_neg hspacing]
        simp

theorem linkFrom_false (cs : List Component) :
    linkFrom false cs =
      (link? cs).map fun
        | none => (none, skip cs)
        | some (k, rest) => (some k, rest) := by
  rw [linkFrom_eq, link?]
  cases skip cs with
  | nil => rfl
  | cons c rest =>
    dsimp only
    cases combinator? c with
    | some k => rfl
    | none =>
      dsimp only
      rw [Bool.false_or]
      by_cases hcomma : c.isComma = true
      · rw [if_pos hcomma, if_pos hcomma]
        rfl
      · rw [if_neg hcomma, if_neg hcomma]
        split <;> rfl

section

variable {compounds : List CompoundSelector} {combinators : List Combinator}
  {cs rest : List Component} {k : Combinator} {fault : SelectorFault}
  {result : Result (SelectorTable × List Component)}

/-! ### One turn -/

theorem chainRuns_of_error (h : linkFrom false cs = .error fault) :
    ChainRuns compounds combinators cs result ↔ result = .error fault := by
  constructor
  · intro hruns
    cases hruns with
    | fails h' => rw [Except.error.inj (h.symm.trans h')]
    | ends h' | compoundFails h' | goesOn h' => cases h.symm.trans h'
  · rintro rfl
    exact .fails h

theorem chainRuns_of_none (h : linkFrom false cs = .ok (none, rest)) :
    ChainRuns compounds combinators cs result ↔ result = .ok (⟨compounds, combinators⟩, rest) := by
  constructor
  · intro hruns
    cases hruns with
    | ends h' =>
      cases h.symm.trans h'
      rfl
    | fails h' | compoundFails h' | goesOn h' => cases h.symm.trans h'
  · rintro rfl
    exact .ends h

/-- With a combinator goes the compound behind it. -/
theorem chainRuns_of_some (h : linkFrom false cs = .ok (some k, rest)) :
    ChainRuns compounds combinators cs result ↔
      match compound (skip rest) with
      | .error fault => result = .error fault
      | .ok (c, more) => ChainRuns (compounds ++ [c]) (combinators ++ [k]) more result := by
  constructor
  · intro hruns
    cases hruns with
    | compoundFails h' hc =>
      cases h.symm.trans h'
      rw [← compoundRuns_nil_iff.1 hc]
    | goesOn h' hc hmore =>
      cases h.symm.trans h'
      rw [← compoundRuns_nil_iff.1 hc]
      exact hmore
    | fails h' | ends h' => cases h.symm.trans h'
  · intro hturn
    cases hc : compound (skip rest) with
    | error fault =>
      rw [hc] at hturn
      cases hturn
      exact .compoundFails h (compoundRuns_nil_iff.2 hc.symm)
    | ok r =>
      rw [hc] at hturn
      exact .goesOn h (compoundRuns_nil_iff.2 hc.symm) hturn

end

/-! ### All turns -/

/-- The loop comes to the selector that is read and to nothing else.  In each turn its two
lists are those of the selector on the left. -/
theorem chainRuns_iff (left : ComplexSelector) {cs : List Component}
    {result : Result (SelectorTable × List Component)} :
    ChainRuns left.compounds left.combinators cs result ↔
      result = (chain left cs).map fun (s, rest) => (s.table, skip rest) := by
  have hlinkFrom := linkFrom_false cs
  induction left, cs using chain.induct with
  | case1 left cs fault hlink =>
    rw [hlink] at hlinkFrom
    rw [chain_eq, hlink]
    exact chainRuns_of_error hlinkFrom
  | case2 left cs hlink =>
    rw [hlink] at hlinkFrom
    rw [chain_eq, hlink]
    exact chainRuns_of_none hlinkFrom
  | case3 left cs k rest hlink fault hc =>
    rw [hlink] at hlinkFrom
    rw [chainRuns_of_some hlinkFrom, chain_eq, hlink]
    dsimp only
    rw [hc]
    exact Iff.rfl
  | case4 left cs k rest hlink c more hc ih =>
    rw [hlink] at hlinkFrom
    rw [chainRuns_of_some hlinkFrom, chain_eq, hlink]
    dsimp only
    rw [hc]
    exact ih (linkFrom_false more)

theorem complexRuns_iff {cs : List Component} {result : Result (SelectorTable × List Component)} :
    ComplexRuns (skip cs) result ↔
      result = (complex cs).map fun (s, rest) => (s.table, skip rest) := by
  rw [complex]
  constructor
  · intro hruns
    cases hruns with
    | fails h =>
      rw [← compoundRuns_nil_iff.1 h]
      rfl
    | @chains c _ _ h hrest =>
      rw [← compoundRuns_nil_iff.1 h]
      exact (chainRuns_iff (.compound c)).1 hrest
  · rintro rfl
    cases hc : compound (skip cs) with
    | error fault => exact .fails (compoundRuns_nil_iff.2 hc.symm)
    | ok r =>
      obtain ⟨c, rest⟩ := r
      exact .chains (compoundRuns_nil_iff.2 hc.symm) ((chainRuns_iff (.compound c)).2 rfl)

/-! ## Lists -/

section

variable {found : List SelectorTable} {cs rest more : List Component} {c : Component}
  {s : ComplexSelector} {fault : SelectorFault} {result : Result (List SelectorTable)}

theorem complexRuns_of_ok (h : complex cs = .ok (s, rest))
    {result : Result (SelectorTable × List Component)} :
    ComplexRuns (skip cs) result ↔ result = .ok (s.table, skip rest) := by
  rw [complexRuns_iff, h]
  rfl

/-! ### One turn -/

theorem listRuns_of_error (h : complex cs = .error fault) :
    ListRuns found cs result ↔ result = .error fault := by
  have hcomplex : ∀ r, ComplexRuns (skip cs) r ↔ r = .error fault := fun r => by
    rw [complexRuns_iff, h]
    rfl
  constructor
  · intro hruns
    cases hruns with
    | fails h' => rw [Except.error.inj ((hcomplex _).1 h')]
    | ends h' | leaves h' | goesOn h' => cases (hcomplex _).1 h'
  · rintro rfl
    exact .fails ((hcomplex _).2 rfl)

theorem listRuns_of_nil (h : complex cs = .ok (s, rest)) (hrest : skip rest = []) :
    ListRuns found cs result ↔ result = .ok (found ++ [s.table]) := by
  have hbehind : skip (skip rest) = [] := by rw [skip_skip, hrest]
  constructor
  · intro hruns
    cases hruns with
    | ends h' =>
      cases (complexRuns_of_ok h).1 h'
      rfl
    | fails h' => cases (complexRuns_of_ok h).1 h'
    | leaves h' hnext | goesOn h' hnext =>
      cases (complexRuns_of_ok h).1 h'
      cases hbehind.symm.trans hnext
  · rintro rfl
    exact .ends ((complexRuns_of_ok h).2 rfl) hbehind

/-- With a comma goes the list behind it. -/
theorem listRuns_of_comma (h : complex cs = .ok (s, rest)) (hrest : skip rest = c :: more)
    (hc : c.isComma = true) :
    ListRuns found cs result ↔ ListRuns (found ++ [s.table]) more result := by
  have hbehind : skip (skip rest) = c :: more := by rw [skip_skip, hrest]
  constructor
  · intro hruns
    cases hruns with
    | goesOn h' hnext _ hmore =>
      cases (complexRuns_of_ok h).1 h'
      cases hbehind.symm.trans hnext
      exact hmore
    | fails h' => cases (complexRuns_of_ok h).1 h'
    | ends h' hnext =>
      cases (complexRuns_of_ok h).1 h'
      cases hbehind.symm.trans hnext
    | leaves h' hnext hc' =>
      cases (complexRuns_of_ok h).1 h'
      cases hbehind.symm.trans hnext
      cases hc.symm.trans hc'
  · exact .goesOn ((complexRuns_of_ok h).2 rfl) hbehind hc

theorem listRuns_of_other (h : complex cs = .ok (s, rest)) (hrest : skip rest = c :: more)
    (hc : c.isComma = false) :
    ListRuns found cs result ↔ result = .error (.unexpected c.head) := by
  have hbehind : skip (skip rest) = c :: more := by rw [skip_skip, hrest]
  constructor
  · intro hruns
    cases hruns with
    | leaves h' hnext =>
      cases (complexRuns_of_ok h).1 h'
      cases hbehind.symm.trans hnext
      rfl
    | fails h' => cases (complexRuns_of_ok h).1 h'
    | ends h' hnext =>
      cases (complexRuns_of_ok h).1 h'
      cases hbehind.symm.trans hnext
    | goesOn h' hnext hc' =>
      cases (complexRuns_of_ok h).1 h'
      cases hbehind.symm.trans hnext
      cases hc.symm.trans hc'
  · rintro rfl
    exact .leaves ((complexRuns_of_ok h).2 rfl) hbehind hc

end

/-! ### All turns -/

/-- The loop comes to the tables of the selectors that are read and to nothing else. -/
theorem listRuns_iff {found : List SelectorTable} {cs : List Component}
    {result : Result (List SelectorTable)} :
    ListRuns found cs result ↔
      result = (selectors cs).map fun l => found ++ l.map ComplexSelector.table := by
  induction cs using selectors.induct generalizing found with
  | case1 cs fault hs =>
    rw [listRuns_of_error hs, selectors_eq, hs]
    rfl
  | case2 cs s rest hs hrest =>
    rw [listRuns_of_nil hs hrest, (SelectorsRead.last hs hrest).selectors_eq_ok]
    rfl
  | case3 cs s rest hs c more hrest hc ih =>
    rw [listRuns_of_comma hs hrest hc, ih, selectors_eq cs, hs]
    dsimp only
    rw [hrest]
    dsimp only
    rw [if_pos hc]
    cases selectors more <;> simp [Except.map]
  | case4 cs s rest hs c more hrest hc =>
    rw [listRuns_of_other hs hrest (Bool.eq_false_iff.2 hc), selectors_eq, hs]
    dsimp only
    rw [hrest]
    dsimp only
    rw [if_neg hc]
    rfl

end SelectorReader

namespace SelectorTable

open SelectorReader

/-- What reading the tables of a text comes to. -/
def Reads (text : String) (result : Except SelectorError (List SelectorTable)) : Prop :=
  ∃ found, ListRuns [] (Css.components text.toList) found ∧ result = found.mapError (⟨text, ·⟩)

theorem reads_iff {text : String} {result : Except SelectorError (List SelectorTable)} :
    Reads text result ↔
      result = (SelectorList.read text).map fun l => l.map ComplexSelector.table := by
  simp only [Reads, listRuns_iff, exists_eq_left, List.nil_append, SelectorList.read]
  cases selectors (Css.components text.toList) <;> exact Iff.rfl

theorem isWellFormed_table_of_read {text : String} {l : SelectorList} {s : ComplexSelector}
    (h : SelectorList.read text = .ok l) (hs : s ∈ l) : s.table.IsWellFormed where
  length := (Document.length_compounds s).symm
  compounds c hc _ hinner := (SelectorList.holds_of_read h s hs c hc).isWellFormed_of_within hinner

/-- On every list of components the loops end, with one result, and on a text it is that of
reading it.  Tables that are read are some, and well formed.  A well-formed table stays so
when it is stripped; it is that of a selector, and printing and matching it finds every
compound and every combinator. -/
theorem isWellFormed_of_reads :
    (∀ cs, ∃! result, ListRuns [] cs result) ∧
    (∀ text result, Reads text result ↔
      result = (SelectorList.read text).map fun l => l.map ComplexSelector.table) ∧
    (∀ text tables, Reads text (.ok tables) → tables ≠ [] ∧ ∀ t ∈ tables, t.IsWellFormed) ∧
    ∀ t : SelectorTable, t.IsWellFormed → t.withoutPseudos.IsWellFormed ∧
      ∃ s : ComplexSelector, t = s.table ∧ t.withoutPseudos = s.withoutPseudos.table ∧
        t.write? = some s.write ∧ ∀ d id, satisfies? d t id = some (d.satisfies id s) := by
  refine ⟨fun cs => ⟨_, listRuns_iff.2 rfl, fun result h => listRuns_iff.1 h⟩,
    fun text result => reads_iff, fun text tables hreads => ?_, fun t ht => ?_⟩
  · have heq := reads_iff.1 hreads
    cases hread : SelectorList.read text with
    | error e =>
      rw [hread] at heq
      cases heq
    | ok l =>
      rw [hread] at heq
      cases heq
      refine ⟨fun hempty => SelectorList.ne_nil_of_read hread (List.map_eq_nil_iff.1 hempty), ?_⟩
      intro t ht
      obtain ⟨s, hs, rfl⟩ := List.mem_map.1 ht
      exact isWellFormed_table_of_read hread hs
  · obtain ⟨s, rfl⟩ := exists_selector ht.length
    exact ⟨ht.withoutPseudos, s, rfl, withoutPseudos_table s, write?_table s,
      fun d id => satisfies?_table d s id⟩

/-! ## Negations, blanks and two selectors -/

namespace Blanks

open Css

def text : String := ":not(*.a,:not(b)) >c:hover~ * ,d"

def options : List Component :=
  [.token ⟨.delim '*', ['*']⟩, .token ⟨.delim '.', ['.']⟩, .token ⟨.ident "a", ['a']⟩,
    .token ⟨.comma, [',']⟩, .token ⟨.colon, [':']⟩,
    .block ⟨.function "not", ['n', 'o', 't', '(']⟩ .round [.token ⟨.ident "b", ['b']⟩] [')']]

/-- The components behind the two combinators. -/
def behindLater : List Component :=
  [.token ⟨.blank " ", [' ']⟩, .token ⟨.delim '*', ['*']⟩, .token ⟨.blank " ", [' ']⟩,
    .token ⟨.comma, [',']⟩, .token ⟨.ident "d", ['d']⟩]

def behindChild : List Component :=
  [.token ⟨.ident "c", ['c']⟩, .token ⟨.colon, [':']⟩, .token ⟨.ident "hover", "hover".toList⟩,
    .token ⟨.delim '~', ['~']⟩] ++ behindLater

def first : SelectorTable :=
  ⟨[[.negation [[.universal, .hasClass "a"], [.negation [[.type "b"]]]]],
    [.type "c", .dynamic "hover" none], [.universal]], [.child, .laterSibling]⟩

def second : SelectorTable :=
  ⟨[[.type "d"]], []⟩

theorem components_text : components text.toList =
    [.token ⟨.colon, [':']⟩, .block ⟨.function "not", ['n', 'o', 't', '(']⟩ .round options [')'],
      .token ⟨.blank " ", [' ']⟩, .token ⟨.delim '>', ['>']⟩] ++ behindChild := by
  cbv

theorem compoundRuns_type {name : String} {text : List Char} {rest : List Component}
    (h : step false rest = .ok .stop) :
    CompoundRuns [] (.token ⟨.ident name, text⟩ :: rest) (.ok ([.type name], rest)) :=
  .simple rfl (.ends h (List.cons_ne_nil _ _))

theorem negationRuns_options :
    NegationRuns [] options (.ok [[.universal, .hasClass "a"], [.negation [[.type "b"]]]]) := by
  have hinner : NegationRuns [] [.token ⟨.ident "b", ['b']⟩] (.ok [[.type "b"]]) :=
    .ends (compoundRuns_type rfl) rfl rfl
  refine .goesOn (.simple rfl (.simple rfl (.ends rfl (List.cons_ne_nil _ _)))) rfl rfl ?_
  exact .ends (.negation rfl hinner (.ends rfl (List.cons_ne_nil _ _))) rfl rfl

theorem reads_text : Reads text (.ok [first, second]) := by
  refine ⟨.ok [first, second], ?_, rfl⟩
  rw [components_text]
  have hchain : ChainRuns [[.negation [[.universal, .hasClass "a"], [.negation [[.type "b"]]]]]] []
      ([.token ⟨.blank " ", [' ']⟩, .token ⟨.delim '>', ['>']⟩] ++ behindChild)
      (.ok (first, [.token ⟨.comma, [',']⟩, .token ⟨.ident "d", ['d']⟩])) := by
    refine .goesOn rfl (.simple rfl (.simple rfl (.ends rfl (List.cons_ne_nil _ _)))) ?_
    exact .goesOn rfl (.simple rfl (.ends rfl (List.cons_ne_nil _ _))) (.ends rfl)
  refine .goesOn (.chains (.negation rfl negationRuns_options (.ends rfl (List.cons_ne_nil _ _)))
    hchain) rfl rfl ?_
  exact .ends (.chains (compoundRuns_type rfl) (.ends rfl)) rfl

theorem isWellFormed_of_reads_blanks :
    Reads text (.ok [first, second]) ∧ first.IsWellFormed ∧ second.IsWellFormed ∧
      first.withoutPseudos.IsWellFormed ∧
      first.withoutPseudos =
        ⟨[[.universal], [.type "c"], [.universal]], [.child, .laterSibling]⟩ ∧
      first.write? = some ":not(*.a,:not(b))>c:hover~*".toList ∧
      ∀ d id, satisfies? d first id ≠ none := by
  obtain ⟨-, -, hread, htable⟩ := isWellFormed_of_reads
  obtain ⟨-, heach⟩ := hread text [first, second] reads_text
  have hfirst : first.IsWellFormed := heach first (by simp)
  obtain ⟨hstripped, s, -, -, -, hmatched⟩ := htable first hfirst
  exact ⟨reads_text, hfirst, heach second (by simp), hstripped, rfl, rfl,
    fun d id => by rw [hmatched]; exact Option.some_ne_none _⟩

end Blanks
end SelectorTable
end SvgCompact
