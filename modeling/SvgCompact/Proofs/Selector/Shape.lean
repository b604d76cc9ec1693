import SvgCompact.Proofs.Css.Declarations
import SvgCompact.Proofs.Selector.Equations
import SvgCompact.Proofs.Selector.Positions
import SvgCompact.Proofs.Text.Trimming

/-!
The shape of selectors that were read.

Names are names, numbers have 32 bits and arguments are trimmed.  Every compound has a
simple selector, those in negations at any depth too, and a type or the universal selector
stands nowhere but in front.
-/

namespace SvgCompact

open Css

/-! ## Simple selectors -/

structure AttributeSelector.IsProper (a : AttributeSelector) : Prop where
  name : IsName a.name
  value : '\x00' ∉ a.value.toList
  present : a.test = .present → a.value = "" ∧ a.ignoreCase = false

namespace SimpleSelector

/-- What a simple selector is like that was read, negations apart. -/
def IsProper : SimpleSelector → Prop
  | type name | id name | hasClass name => IsName name
  | attr a => a.IsProper
  | nth _ n => n.IsProper
  | dynamic name none => name ∈ SelectorReader.dynamicClasses
  | dynamic name (some argument) =>
    name ∈ SelectorReader.dynamicFunctions ∧ Text.trim argument.toList = argument.toList
  | pseudoElement name => IsName name ∧ Text.lowerWord name = name
  | _ => True

/-- A type or the universal selector. -/
def isElemental : SimpleSelector → Bool
  | universal | type _ => true
  | _ => false

/-- Whether a property holds of a simple selector, or of all that the options of a negation
consist of, and these have the shape of compounds. -/
inductive Holds (P : SimpleSelector → Prop) : SimpleSelector → Prop
  | leaf {s : SimpleSelector} (hs : ∀ options, s ≠ negation options) (h : P s) : Holds P s
  | negation {options : List (List SimpleSelector)} (hne : options ≠ [])
      (hcompounds : ∀ c ∈ options, c ≠ [])
      (hfront : ∀ c ∈ options, ∀ s ∈ c.tail, s.isElemental = false)
      (h : ∀ c ∈ options, ∀ s ∈ c, Holds P s) : Holds P (negation options)

end SimpleSelector

/-- A compound with a type or the universal selector in front only, of which a property
holds throughout. -/
structure CompoundSelector.Holds (P : SimpleSelector → Prop) (c : CompoundSelector) : Prop where
  ne_nil : c ≠ []
  front : ∀ s ∈ c.tail, s.isElemental = false
  all : ∀ s ∈ c, s.Holds P

theorem SimpleSelector.Holds.of_compounds {P : SimpleSelector → Prop}
    {options : List CompoundSelector} (hne : options ≠ [])
    (h : ∀ c ∈ options, CompoundSelector.Holds P c) :
    SimpleSelector.Holds P (SimpleSelector.negation options) :=
  .negation hne (fun c hc => (h c hc).ne_nil) (fun c hc => (h c hc).front) fun c hc => (h c hc).all

namespace SelectorReader

section

variable {cs rest body : List Component} {c : Component} {isFirst : Bool}

/-! ### Attribute tests -/

theorem IsName.qualified {name stem : String} (h : IsName name) (hstem : IsName stem) :
    IsName (name ++ ":" ++ stem) where
  ne_nil := by simp
  free := by simp [h.free, hstem.free]

theorem isProper_attributeName {name : String} (hcs : ∀ c ∈ cs, c.IsProper)
    (h : attributeName cs = .ok (name, rest)) : IsName name ∧ ∀ c ∈ rest, c.IsProper := by
  unfold attributeName at h
  split at h
  · cases h
  · next label _ behind hc =>
    obtain ⟨hlabel, hbehind⟩ := isProper_of_dropWhile hcs hc
    split at h
    · next more hbar =>
      have hmore := (isProper_of_dropWhile hbehind hbar).2
      split at h
      · cases h
      · next hstem =>
        cases h
        obtain ⟨hstem, hrest⟩ := isProper_of_dropWhile hmore hstem
        exact ⟨IsName.qualified hlabel.of_token hstem.of_token, hrest⟩
      · cases h
    · cases h
      exact ⟨hlabel.of_token, hbehind⟩
  · cases h

theorem isProper_attributeValue {value : String} (hcs : ∀ c ∈ cs, c.IsProper)
    (h : attributeValue cs = .ok (value, rest)) : '\x00' ∉ value.toList := by
  unfold attributeValue at h
  split at h
  · cases h
  · next hc =>
    cases h
    exact IsName.free (isProper_of_dropWhile hcs hc).1.of_token
  · next hc =>
    cases h
    exact (isProper_of_dropWhile hcs hc).1.of_token
  · cases h

theorem isProper_attributeSelector {a : AttributeSelector} (hbody : ∀ c ∈ body, c.IsProper)
    (h : attributeSelector body = .ok a) : a.IsProper := by
  obtain ⟨⟨name, rest⟩, hname, h⟩ := bind_eq_ok h
  obtain ⟨hname, hrest⟩ := isProper_attributeName hbody hname
  dsimp only at h
  split at h
  · cases h
    exact ⟨hname, by simp, fun _ => ⟨rfl, rfl⟩⟩
  · next c more hc =>
    have hmore := (isProper_of_dropWhile hrest hc).2
    split at h
    · cases h
    · next test htest =>
      obtain ⟨⟨value, behind⟩, hvalue, h⟩ := bind_eq_ok h
      obtain ⟨⟨flag, last⟩, -, h⟩ := bind_eq_ok h
      obtain ⟨-, -, h⟩ := bind_eq_ok h
      cases h
      refine ⟨hname, isProper_attributeValue hmore hvalue, fun hpresent => ?_⟩
      have hpresent : test = .present := hpresent
      rw [hpresent] at htest
      unfold attributeTest? at htest
      split at htest <;> cases htest

/-! ### Pseudo-classes and pseudo-elements -/

theorem isName_lowerWord {name : String} (h : IsName name) : IsName (Text.lowerWord name) where
  ne_nil := by simpa [Text.lowerWord, Text.lower] using h.ne_nil
  free := by
    rw [Text.lowerWord, String.toList_ofList, Text.lower, List.mem_map]
    rintro ⟨c, hc, hnull⟩
    rw [Text.eq_of_toLower_eq (by decide) hnull] at hc
    exact h.free hc

theorem lowerWord_lowerWord (name : String) :
    Text.lowerWord (Text.lowerWord name) = Text.lowerWord name := by
  rw [Text.lowerWord, Text.lowerWord, String.toList_ofList, Text.lower_lower]

/-- A simple selector that is no negation, as it was read. -/
structure IsLeaf (s : SimpleSelector) : Prop where
  proper : s.IsProper
  ne : ∀ options, s ≠ .negation options

theorem isLeaf_pseudoName {name : String} {s : SimpleSelector} (h : pseudoName name = .ok s) :
    IsLeaf s ∧ s.isElemental = false := by
  rw [pseudoName] at h
  split at h
  · cases h
    exact ⟨⟨trivial, nofun⟩, rfl⟩
  · split at h
    · next helement =>
      cases h
      have hproper : ∀ name ∈ singleColonElements,
          name.toList ≠ [] ∧ '\x00' ∉ name.toList ∧ Text.lowerWord name = name := by decide
      obtain ⟨hne, hfree, hlower⟩ := hproper _ (List.contains_iff_mem.1 helement)
      exact ⟨⟨⟨⟨hne, hfree⟩, hlower⟩, nofun⟩, rfl⟩
    · split at h
      · next hclass =>
        cases h
        exact ⟨⟨List.contains_iff_mem.1 hclass, nofun⟩, rfl⟩
      · cases h

theorem isLeaf_pseudoFunction {name : String} {s : SimpleSelector}
    (hbody : ∀ c ∈ body, c.IsProper) (h : pseudoFunction name body = .ok s) :
    IsLeaf s ∧ s.isElemental = false := by
  rw [pseudoFunction] at h
  split at h
  · obtain ⟨nth, hn, rfl⟩ := map_eq_ok h
    exact ⟨⟨Nth.isProper_of_read hbody hn, nofun⟩, rfl⟩
  · split at h
    · next hfunction =>
      cases h
      refine ⟨⟨⟨List.contains_iff_mem.1 hfunction, ?_⟩, nofun⟩, rfl⟩
      rw [String.toList_ofList]
      exact Text.trimBy_trimBy _ _
    · cases h

/-! ### Steps -/

/-- What a step is like that was read: a type or the universal selector only in front. -/
inductive Step.IsProper (isFirst : Bool) : Step → Prop
  | simple {s : SimpleSelector} {rest : List Component} (hs : IsLeaf s)
      (hfront : s.isElemental = true → isFirst = true) (hrest : ∀ c ∈ rest, c.IsProper) :
      IsProper isFirst (.simple s rest)
  | negation {body rest : List Component} (hbody : ∀ c ∈ body, c.IsProper)
      (hrest : ∀ c ∈ rest, c.IsProper) : IsProper isFirst (.negation body rest)
  | stop : IsProper isFirst .stop

theorem isProper_afterColon {found : Step} (hcs : ∀ c ∈ cs, c.IsProper)
    (h : afterColon cs = .ok found) : found.IsProper isFirst := by
  unfold afterColon at h
  split at h
  · cases h
  · next hc =>
    have hrest := (isProper_of_dropWhile hcs hc).2
    unfold pseudoElement at h
    split at h
    · cases h
    · next hname =>
      cases h
      obtain ⟨hname, hmore⟩ := isProper_of_dropWhile hrest hname
      exact .simple ⟨⟨isName_lowerWord hname.of_token, lowerWord_lowerWord _⟩, nofun⟩ nofun hmore
    · cases h
  · next name _ rest hc =>
    obtain ⟨s, hp, rfl⟩ := map_eq_ok h
    obtain ⟨hs, hfront⟩ := isLeaf_pseudoName hp
    exact .simple hs (by simp [hfront]) (isProper_of_dropWhile hcs hc).2
  · next name _ _ body _ rest hc =>
    obtain ⟨hblock, hrest⟩ := isProper_of_dropWhile hcs hc
    split at h
    · cases h
      exact .negation hblock.body hrest
    · obtain ⟨s, hp, rfl⟩ := map_eq_ok h
      obtain ⟨hs, hfront⟩ := isLeaf_pseudoFunction hblock.body hp
      exact .simple hs (by simp [hfront]) hrest
  · cases h

theorem isProper_step {found : Step} (hcs : ∀ c ∈ cs, c.IsProper)
    (h : step isFirst cs = .ok found) : found.IsProper isFirst := by
  unfold step at h
  split at h
  · next hc =>
    obtain ⟨hname, hrest⟩ := isProper_of_dropWhile hcs hc
    split at h
    · next hfirst =>
      cases h
      exact .simple ⟨hname.of_token, nofun⟩ (fun _ => hfirst) hrest
    · cases h
  · next hc =>
    split at h
    · next hfirst =>
      cases h
      exact .simple ⟨trivial, nofun⟩ (fun _ => hfirst) (isProper_of_dropWhile hcs hc).2
    · cases h
  · next hc =>
    cases h
    obtain ⟨hname, hrest⟩ := isProper_of_dropWhile hcs hc
    exact .simple ⟨hname.of_token, nofun⟩ nofun hrest
  · next hc =>
    have hrest := (isProper_of_dropWhile hcs hc).2
    unfold afterStop at h
    split at h
    · cases h
    · next hname =>
      cases h
      obtain ⟨hname, hmore⟩ := isProper_of_dropWhile hrest hname
      exact .simple ⟨hname.of_token, nofun⟩ nofun hmore
    · cases h
  · next hc => exact isProper_afterColon (isProper_of_dropWhile hcs hc).2 h
  · next body _ _ hc =>
    obtain ⟨hblock, hrest⟩ := isProper_of_dropWhile hcs hc
    obtain ⟨a, ha, rfl⟩ := map_eq_ok h
    exact .simple ⟨isProper_attributeSelector hblock.body ha, nofun⟩ nofun hrest
  · cases h
    exact .stop

/-! ### Runs of simple selectors -/

/-- Simple selectors from a place in a compound on. -/
structure Run (isFirst : Bool) (l : List SimpleSelector) : Prop where
  all : ∀ s ∈ l, s.Holds SimpleSelector.IsProper
  first : ∀ s ∈ l.head?, s.isElemental = true → isFirst = true
  behind : ∀ s ∈ l.tail, s.isElemental = false

theorem Run.nil : Run isFirst [] :=
  ⟨nofun, nofun, nofun⟩

theorem Run.cons {s : SimpleSelector} {l : List SimpleSelector}
    (hs : s.Holds SimpleSelector.IsProper) (hfront : s.isElemental = true → isFirst = true)
    (hl : Run false l) : Run isFirst (s :: l) where
  all := List.forall_mem_cons.2 ⟨hs, hl.all⟩
  first := by simpa using hfront
  behind t ht := by
    rcases l with _ | ⟨other, l⟩
    · cases ht
    · rcases List.mem_cons.1 ht with rfl | ht
      · exact Bool.eq_false_iff.2 fun h => absurd (hl.first t rfl h) (by decide)
      · exact hl.behind t ht

theorem Run.compound {c : CompoundSelector} (h : Run true c) (hne : c ≠ []) :
    CompoundSelector.Holds SimpleSelector.IsProper c :=
  ⟨hne, h.behind, h.all⟩

theorem IsLeaf.holds {s : SimpleSelector} (h : IsLeaf s) : s.Holds SimpleSelector.IsProper :=
  .leaf h.ne h.proper

end

mutual

theorem SimplesRead.run {isFirst : Bool} {cs rest : List Component} {l : List SimpleSelector}
    (h : SimplesRead isFirst cs l rest) (hcs : ∀ c ∈ cs, c.IsProper) :
    Run isFirst l ∧ ∀ c ∈ rest, c.IsProper := by
  cases h with
  | stop hs => exact ⟨.nil, hcs⟩
  | simple hs hmore =>
    cases isProper_step hcs hs with
    | simple hleaf hfront hproper =>
      exact (hmore.run hproper).imp_left (.cons hleaf.holds hfront)
  | negation hs hbody hmore =>
    cases isProper_step hcs hs with
    | negation hinside hproper =>
      obtain ⟨hne, hoptions⟩ := hbody.holds hinside
      exact (hmore.run hproper).imp_left (.cons (.of_compounds hne hoptions) nofun)

theorem NegationRead.holds {body : List Component} {options : List CompoundSelector}
    (h : NegationRead body options) (hbody : ∀ c ∈ body, c.IsProper) :
    options ≠ [] ∧ ∀ c ∈ options, CompoundSelector.Holds SimpleSelector.IsProper c := by
  have hpart : ∀ c ∈ skip (untilComma body), c.IsProper := fun c hc =>
    hbody c ((List.takeWhile_prefix _).subset ((List.dropWhile_suffix _).subset hc))
  cases h with
  | last h hne =>
    exact ⟨List.cons_ne_nil _ _, List.forall_mem_singleton.2 ((h.run hpart).1.compound hne)⟩
  | more h hne hrest hmore hothers =>
    obtain ⟨-, hbehind⟩ :=
      hothers.holds fun c hc => hbody c ((suffix_behindComma hmore).subset hc)
    exact ⟨List.cons_ne_nil _ _, List.forall_mem_cons.2 ⟨(h.run hpart).1.compound hne, hbehind⟩⟩

end

theorem holds_of_compound {cs rest : List Component} {c : CompoundSelector}
    (hcs : ∀ c ∈ cs, c.IsProper) (h : compound cs = .ok (c, rest)) :
    CompoundSelector.Holds SimpleSelector.IsProper c ∧ ∀ c ∈ rest, c.IsProper := by
  unfold compound at h
  split at h
  · cases h
  · cases h
  · next hne hs =>
    cases h
    exact ((SimplesRead.of_simples hs).run hcs).imp_left (·.compound hne)

end SelectorReader

/-- The compounds of a list that was read. -/
theorem SelectorList.holds_of_read {text : String} {l : SelectorList}
    (h : SelectorList.read text = .ok l) :
    ∀ s ∈ l, ∀ c ∈ s.compounds, CompoundSelector.Holds SimpleSelector.IsProper c :=
  (SelectorList.selectorsRead_of_read h).forall_compounds SelectorReader.holds_of_compound
    (isProper_components text.toList)

end SvgCompact
