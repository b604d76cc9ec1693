import SvgCompact.Selector.Reader

/-!
The selector reader as equations.

The recursive functions of the reader look at the results that bound them; these
equations do not, so a reading of a given text can be followed step by step.  What was read
without a fault is also given as a relation (`SimplesRead`, `ChainRead`, `SelectorsRead`),
so what holds of a reading is shown by one case for each step.
-/

namespace SvgCompact
namespace SelectorReader

open Css

/-! ## Results -/

theorem bind_eq_ok {α β : Type} {x : Result α} {f : α → Result β} {b : β}
    (h : x >>= f = .ok b) : ∃ a, x = .ok a ∧ f a = .ok b := by
  cases x with
  | error fault => cases h
  | ok a => exact ⟨a, rfl, h⟩

theorem map_eq_ok {α β : Type} {x : Result α} {f : α → β} {b : β} (h : x.map f = .ok b) :
    ∃ a, x = .ok a ∧ f a = b := by
  cases x with
  | error fault => cases h
  | ok a => exact ⟨a, rfl, Except.ok.inj h⟩

/-! ## Readers -/

theorem simples_eq (isFirst : Bool) (cs : List Component) :
    simples isFirst cs =
      match step isFirst cs with
      | .error fault => .error fault
      | .ok .stop => .ok ([], cs)
      | .ok (.simple s rest) => (simples false rest).map fun (others, rest) => (s :: others, rest)
      | .ok (.negation body rest) =>
        (negated body).bind fun options =>
          (simples false rest).map fun (others, rest) => (.negation options :: others, rest) := by
  rw [simples]
  split
  · next h => rw [h]
  · next h => rw [h]
  · next s rest h =>
    rw [h]
    dsimp only
    cases simples false rest <;> rfl
  · next body rest h =>
    rw [h]
    dsimp only
    cases negated body with
    | error fault => rfl
    | ok options => cases simples false rest <;> rfl

theorem simples_of_stop {isFirst : Bool} {cs : List Component}
    (h : step isFirst cs = .ok .stop) : simples isFirst cs = .ok ([], cs) := by
  rw [simples_eq, h]

theorem simples_of_step {isFirst : Bool} {cs rest : List Component} {s : SimpleSelector}
    (h : step isFirst cs = .ok (.simple s rest)) :
    simples isFirst cs = (simples false rest).map fun (others, rest) => (s :: others, rest) := by
  rw [simples_eq, h]

theorem negated_eq (body : List Component) :
    negated body =
      match simples true (skip (untilComma body)) with
      | .error fault => .error fault
      | .ok (c, rest) =>
        if c.isEmpty then .error .noSelector
        else (finished rest).bind fun _ =>
          match behindComma? body with
          | none => .ok [c]
          | some more => (negated more).map (c :: ·) := by
  rw [negated]
  cases simples true (skip (untilComma body)) with
  | error fault => rfl
  | ok r =>
    obtain ⟨c, rest⟩ := r
    by_cases hempty : c.isEmpty = true
    · simp [hempty, bind, Except.bind]
    · cases hfinished : finished rest with
      | error fault => simp [hempty, hfinished, bind, Except.bind]
      | ok _ =>
        simp only [hempty, hfinished, bind, Except.bind, Bool.false_eq_true, if_false]
        split
        · next h => rw [h]
        · next more h =>
          rw [h]
          dsimp only
          cases negated more <;> rfl

theorem chain_eq (left : ComplexSelector) (cs : List Component) :
    chain left cs =
      match link? cs with
      | .error fault => .error fault
      | .ok none => .ok (left, cs)
      | .ok (some (k, rest)) =>
        match compound (skip rest) with
        | .error fault => .error fault
        | .ok (c, more) => chain (.combined left k c) more := by
  rw [chain]
  split
  · next h => rw [h]
  · next h => rw [h]
  · next h =>
    rw [h]
    dsimp only
    split
    · next hc => rw [hc]
    · next hc => rw [hc]

theorem selectors_eq (cs : List Component) :
    selectors cs =
      match complex cs with
      | .error fault => .error fault
      | .ok (s, rest) =>
        match skip rest with
        | [] => .ok [s]
        | c :: more =>
          if c.isComma then (selectors more).map (s :: ·) else .error (.unexpected c.head) := by
  rw [selectors]
  split
  · next h => rw [h]
  · next h =>
    rw [h]
    dsimp only
    split
    · next hr => rw [hr]
    · next hr => rw [hr]

/-- A selector of one step, at whose end neither a step nor a combinator follows. -/
theorem complex_of_step {cs rest : List Component} {s : SimpleSelector}
    (hstep : step true (skip cs) = .ok (.simple s rest)) (hstop : step false rest = .ok .stop)
    (hlink : link? rest = .ok none) : complex cs = .ok (.compound [s], rest) := by
  rw [complex, compound, simples_of_step hstep, simples_of_stop hstop]
  dsimp only [Except.map]
  rw [chain_eq, hlink]

/-! ## What is left behind -/

theorem suffix_behindComma {cs rest : List Component} (h : behindComma? cs = some rest) :
    rest <:+ cs := by
  have hdrop : cs.dropWhile (!·.isComma) <:+ cs := List.dropWhile_suffix _
  unfold behindComma? at h
  split at h
  · cases h
  · next c more hd =>
    cases h
    rw [hd] at hdrop
    exact (List.suffix_cons c _).trans hdrop

theorem suffix_link {cs rest : List Component} {k : Combinator}
    (h : link? cs = .ok (some (k, rest))) : rest <:+ cs := by
  have hskip : skip cs <:+ cs := List.dropWhile_suffix _
  unfold link? at h
  split at h
  · cases h
  · next c more hc =>
    rw [hc] at hskip
    have hmore := (List.suffix_cons c more).trans hskip
    split at h
    · cases h
      exact hmore
    · split at h
      · cases h
      · split at h
        · cases h
          exact hskip
        · cases h

/-! ## What is read, step by step -/

mutual

/-- The simple selectors that are read from the place of one on, and the components behind
them, where no step goes on. -/
inductive SimplesRead : Bool → List Component → List SimpleSelector → List Component → Prop
  | stop {isFirst cs} (h : step isFirst cs = .ok .stop) : SimplesRead isFirst cs [] cs
  | simple {isFirst cs s more l rest} (h : step isFirst cs = .ok (.simple s more))
    (hmore : SimplesRead false more l rest) : SimplesRead isFirst cs (s :: l) rest
  | negation {isFirst cs body more options l rest}
    (h : step isFirst cs = .ok (.negation body more)) (hbody : NegationRead body options)
    (hmore : SimplesRead false more l rest) :
    SimplesRead isFirst cs (.negation options :: l) rest

/-- The options that are read of a negation, each from all that stands between two commas. -/
inductive NegationRead : List Component → List CompoundSelector → Prop
  | last {body c rest} (h : SimplesRead true (skip (untilComma body)) c rest) (hne : c ≠ [])
    (hrest : finished rest = .ok ()) (hlast : behindComma? body = none) : NegationRead body [c]
  | more {body c rest behind options} (h : SimplesRead true (skip (untilComma body)) c rest)
    (hne : c ≠ []) (hrest : finished rest = .ok ()) (hmore : behindComma? body = some behind)
    (hothers : NegationRead behind options) : NegationRead body (c :: options)

end

/-- The selector that is read with one on its left, and the components behind it, where no
combinator goes on. -/
inductive ChainRead : ComplexSelector → List Component → ComplexSelector → List Component → Prop
  | stop {left cs} (h : link? cs = .ok none) : ChainRead left cs left cs
  | link {left cs k more c behind s rest} (h : link? cs = .ok (some (k, more)))
    (hc : compound (skip more) = .ok (c, behind))
    (hrest : ChainRead (.combined left k c) behind s rest) : ChainRead left cs s rest

/-- The selectors that are read of a list, each with nothing or a comma behind it. -/
inductive SelectorsRead : List Component → SelectorList → Prop
  | last {cs s rest} (h : complex cs = .ok (s, rest)) (hrest : skip rest = []) :
    SelectorsRead cs [s]
  | more {cs s rest c behind l} (h : complex cs = .ok (s, rest)) (hrest : skip rest = c :: behind)
    (hcomma : c.isComma = true) (hothers : SelectorsRead behind l) : SelectorsRead cs (s :: l)

-- The readers are followed once, and what is read is gone through by the steps from then on.
mutual

theorem SimplesRead.of_simples {isFirst : Bool} {cs rest : List Component}
    {l : List SimpleSelector} (h : simples isFirst cs = .ok (l, rest)) :
    SimplesRead isFirst cs l rest := by
  rw [simples_eq] at h
  split at h
  · cases h
  · next hs =>
    cases h
    exact .stop hs
  · next s more hs =>
    have hinside := step_inside hs
    obtain ⟨⟨others, last⟩, hmore, h⟩ := map_eq_ok h
    cases h
    exact .simple hs (.of_simples hmore)
  · next body more hs =>
    have hinside := step_inside hs
    obtain ⟨options, hbody, h⟩ := bind_eq_ok h
    obtain ⟨⟨others, last⟩, hmore, h⟩ := map_eq_ok h
    cases h
    exact .negation hs (.of_negated hbody) (.of_simples hmore)
termination_by (sizeOf cs, 0)
decreasing_by
  · exact Prod.Lex.left _ _ hinside
  · exact Prod.Lex.left _ _ hinside.1
  · exact Prod.Lex.left _ _ hinside.2

theorem NegationRead.of_negated {body : List Component} {options : List CompoundSelector}
    (h : negated body = .ok options) : NegationRead body options := by
  have hsize := sizeOf_skip_untilComma body
  rw [negated_eq] at h
  split at h
  · cases h
  · next c rest hs =>
    have hread := SimplesRead.of_simples hs
    split at h
    · cases h
    · next hempty =>
      have hne : c ≠ [] := by simpa using hempty
      obtain ⟨_, hrest, h⟩ := bind_eq_ok h
      split at h
      · next hlast =>
        cases h
        exact .last hread hne hrest hlast
      · next behind hmore =>
        have hinside := sizeOf_behindComma hmore
        obtain ⟨others, hothers, h⟩ := map_eq_ok h
        cases h
        exact .more hread hne hrest hmore (.of_negated hothers)
termination_by (sizeOf body, 1)
decreasing_by
  · rcases Nat.lt_or_eq_of_le hsize with hlt | heq
    · exact Prod.Lex.left _ _ hlt
    · rw [show sizeOf (skip (untilComma body)) = sizeOf body from heq]
      exact Prod.Lex.right _ (by decide)
  · exact Prod.Lex.left _ _ hinside

end

mutual

theorem SimplesRead.simples_eq_ok {isFirst : Bool} {cs rest : List Component}
    {l : List SimpleSelector} (h : SimplesRead isFirst cs l rest) :
    simples isFirst cs = .ok (l, rest) := by
  cases h with
  | stop h => exact simples_of_stop h
  | simple h hmore =>
    rw [simples_of_step h, hmore.simples_eq_ok]
    rfl
  | negation h hbody hmore =>
    rw [simples_eq, h]
    dsimp only
    rw [hbody.negated_eq_ok, hmore.simples_eq_ok]
    rfl

theorem NegationRead.negated_eq_ok {body : List Component} {options : List CompoundSelector}
    (h : NegationRead body options) : negated body = .ok options := by
  cases h with
  | last h hne hrest hlast =>
    rw [negated_eq, h.simples_eq_ok]
    dsimp only
    rw [if_neg (by simpa using hne), hrest, hlast]
    rfl
  | more h hne hrest hmore hothers =>
    rw [negated_eq, h.simples_eq_ok]
    dsimp only
    rw [if_neg (by simpa using hne), hrest, hmore]
    dsimp only [Except.bind]
    rw [hothers.negated_eq_ok]
    rfl

end

theorem ChainRead.of_chain {left s : ComplexSelector} {cs rest : List Component}
    (h : chain left cs = .ok (s, rest)) : ChainRead left cs s rest := by
  induction left, cs using chain.induct with
  | case1 left cs fault hl =>
    rw [chain_eq, hl] at h
    cases h
  | case2 left cs hl =>
    rw [chain_eq, hl] at h
    cases h
    exact .stop hl
  | case3 left cs k more hl fault hc =>
    rw [chain_eq, hl] at h
    dsimp only at h
    rw [hc] at h
    cases h
  | case4 left cs k more hl c behind hc ih =>
    rw [chain_eq, hl] at h
    dsimp only at h
    rw [hc] at h
    exact .link hl hc (ih h)

theorem ChainRead.chain_eq_ok {left s : ComplexSelector} {cs rest : List Component}
    (h : ChainRead left cs s rest) : chain left cs = .ok (s, rest) := by
  induction h with
  | stop hl => rw [chain_eq, hl]
  | link hl hc _ ih =>
    rw [chain_eq, hl]
    dsimp only
    rw [hc]
    exact ih

theorem SelectorsRead.of_selectors {cs : List Component} {l : SelectorList}
    (h : selectors cs = .ok l) : SelectorsRead cs l := by
  induction cs using selectors.induct generalizing l with
  | case1 cs fault hs =>
    rw [selectors_eq, hs] at h
    cases h
  | case2 cs s rest hs hrest =>
    rw [selectors_eq, hs] at h
    dsimp only at h
    rw [hrest] at h
    cases h
    exact .last hs hrest
  | case3 cs s rest hs c behind hrest hcomma ih =>
    rw [selectors_eq, hs] at h
    dsimp only at h
    rw [hrest] at h
    dsimp only at h
    rw [if_pos hcomma] at h
    obtain ⟨others, hothers, h⟩ := map_eq_ok h
    cases h
    exact .more hs hrest hcomma (ih hothers)
  | case4 cs s rest hs c behind hrest hcomma =>
    rw [selectors_eq, hs] at h
    dsimp only at h
    rw [hrest] at h
    dsimp only at h
    rw [if_neg hcomma] at h
    cases h

theorem SelectorsRead.selectors_eq_ok {cs : List Component} {l : SelectorList}
    (h : SelectorsRead cs l) : selectors cs = .ok l := by
  induction h with
  | last hs hrest =>
    rw [selectors_eq, hs]
    dsimp only
    rw [hrest]
  | more hs hrest hcomma _ ih =>
    rw [selectors_eq, hs]
    dsimp only
    rw [hrest]
    dsimp only
    rw [if_pos hcomma, ih]
    rfl

theorem SelectorsRead.ne_nil {cs : List Component} {l : SelectorList} (h : SelectorsRead cs l) :
    l ≠ [] := by
  cases h <;> exact List.cons_ne_nil _ _

/-! ## What holds of compounds -/

section

variable {P : CompoundSelector → Prop} {Q : Component → Prop}
  (hP : ∀ {cs rest : List Component} {c : CompoundSelector}, (∀ x ∈ cs, Q x) →
    compound cs = .ok (c, rest) → P c ∧ ∀ x ∈ rest, Q x)

include hP

theorem ChainRead.forall_compounds {left s : ComplexSelector} {cs rest : List Component}
    (h : ChainRead left cs s rest) (hcs : ∀ x ∈ cs, Q x) (hleft : ∀ c ∈ left.compounds, P c) :
    (∀ c ∈ s.compounds, P c) ∧ ∀ x ∈ rest, Q x := by
  induction h with
  | stop => exact ⟨hleft, hcs⟩
  | @link left cs k more c behind s rest hl hc _ ih =>
    have hmore : skip more <:+ cs := (List.dropWhile_suffix _).trans (suffix_link hl)
    obtain ⟨hfound, hbehind⟩ := hP (fun x hx => hcs x (hmore.subset hx)) hc
    refine ih hbehind fun other hother => ?_
    rw [ComplexSelector.compounds] at hother
    rcases List.mem_append.1 hother with hother | hother
    · exact hleft other hother
    · exact List.mem_singleton.1 hother ▸ hfound

theorem forall_compounds_of_complex {s : ComplexSelector} {cs rest : List Component}
    (hcs : ∀ x ∈ cs, Q x) (h : complex cs = .ok (s, rest)) :
    (∀ c ∈ s.compounds, P c) ∧ ∀ x ∈ rest, Q x := by
  have hskip : skip cs <:+ cs := List.dropWhile_suffix _
  unfold complex at h
  split at h
  · cases h
  · next c behind hc =>
    obtain ⟨hfound, hbehind⟩ := hP (fun x hx => hcs x (hskip.subset hx)) hc
    refine (ChainRead.of_chain h).forall_compounds hP hbehind fun other hother => ?_
    exact List.mem_singleton.1 hother ▸ hfound

/-- What holds of each compound that is read holds of all compounds of a list. -/
theorem SelectorsRead.forall_compounds {cs : List Component} {l : SelectorList}
    (h : SelectorsRead cs l) (hcs : ∀ x ∈ cs, Q x) : ∀ s ∈ l, ∀ c ∈ s.compounds, P c := by
  induction h with
  | last hs => exact List.forall_mem_singleton.2 (forall_compounds_of_complex hP hcs hs).1
  | @more cs s rest c behind l hs hrest _ _ ih =>
    have hbehind : behind <:+ rest :=
      (List.suffix_cons c behind).trans (hrest ▸ List.dropWhile_suffix _)
    obtain ⟨hfirst, hlast⟩ := forall_compounds_of_complex hP hcs hs
    exact List.forall_mem_cons.2 ⟨hfirst, ih fun x hx => hlast x (hbehind.subset hx)⟩

end

theorem compound_ne_nil {cs rest : List Component} {c : CompoundSelector}
    (h : compound cs = .ok (c, rest)) : c ≠ [] := by
  unfold compound at h
  split at h
  · cases h
  · cases h
  · next hne _ =>
    cases h
    exact hne

end SelectorReader

theorem SelectorList.selectorsRead_of_read {text : String} {l : SelectorList}
    (h : SelectorList.read text = .ok l) :
    SelectorReader.SelectorsRead (Css.components text.toList) l := by
  refine .of_selectors ?_
  rw [read] at h
  cases hs : SelectorReader.selectors (Css.components text.toList) with
  | error fault =>
    rw [hs] at h
    cases h
  | ok found =>
    rw [hs] at h
    cases h
    rfl

theorem SelectorList.ne_nil_of_read {text : String} {l : SelectorList}
    (h : SelectorList.read text = .ok l) : l ≠ [] :=
  (SelectorList.selectorsRead_of_read h).ne_nil

/-- No compound of a selector that was read is empty. -/
theorem SelectorList.forall_compounds_ne_nil {text : String} {l : SelectorList}
    (h : SelectorList.read text = .ok l) : ∀ s ∈ l, ∀ c ∈ s.compounds, c ≠ [] :=
  (SelectorList.selectorsRead_of_read h).forall_compounds (Q := fun _ => True)
    (fun _ hc => ⟨SelectorReader.compound_ne_nil hc, fun _ _ => trivial⟩) fun _ _ => trivial

theorem ComplexSelector.read_of_step {text : String} {s : SimpleSelector}
    (hskip : SelectorReader.skip (Css.components text.toList) = Css.components text.toList)
    (hstep : SelectorReader.step true (Css.components text.toList) = .ok (.simple s [])) :
    ComplexSelector.read text = .ok (.compound [s]) := by
  have hcomplex : SelectorReader.complex (Css.components text.toList) = .ok (.compound [s], []) :=
    SelectorReader.complex_of_step (by rw [hskip, hstep]) rfl rfl
  rw [ComplexSelector.read, SelectorList.read, SelectorReader.selectors_eq, hcomplex]
  rfl

end SvgCompact
