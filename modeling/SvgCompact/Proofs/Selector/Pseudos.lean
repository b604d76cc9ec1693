import Mathlib
import SvgCompact.Pass.Inlining
import SvgCompact.Proofs.Selector.Equations

/-!
Selectors without their pseudo parts.

Taking the pseudo parts out of a selector makes it match more elements and be less
specific, if anything changes at all (`withoutPseudos_widens`).  A selector that has none
keeps what it matches and how specific it is, and is the same selector if it was read.
-/

namespace SvgCompact

namespace ComplexSelector

theorem pseudos_of_pseudoText {s : ComplexSelector} (h : s.pseudoText = "") : s.pseudos = [] := by
  rw [pseudoText] at h
  have hempty : s.pseudos.flatMap SimpleSelector.write = [] := by
    have hlist := congrArg String.toList h
    rwa [String.toList_ofList] at hlist
  rw [List.flatMap_eq_nil_iff] at hempty
  rw [List.eq_nil_iff_forall_not_mem]
  intro p hp
  have hpseudo : p.isPseudo = true := (List.mem_filter.1 hp).2
  have hwrite := hempty p hp
  cases p with
  | universal | type | id | hasClass | attr => cases hpseudo
  | place | nth | negation | pseudoElement => simp [SimpleSelector.write] at hwrite
  | dynamic name argument => cases argument <;> simp [SimpleSelector.write] at hwrite

/-- The compound that stripping leaves. -/
def strip (c : CompoundSelector) : CompoundSelector :=
  match c.filter (!·.isPseudo) with
  | [] => [.universal]
  | rest => rest

theorem withoutPseudos_eq (s : ComplexSelector) : s.withoutPseudos = s.map strip := rfl

theorem strip_of_plain {c : CompoundSelector} (h : ∀ p ∈ c, p.isPseudo = false) :
    strip c = if c = [] then [.universal] else c := by
  have hfilter : c.filter (!·.isPseudo) = c := by
    rw [List.filter_eq_self]
    intro p hp
    simp [h p hp]
  rw [strip, hfilter]
  cases c with
  | nil => rfl
  | cons p rest => rfl

theorem specificity_strip {c : CompoundSelector} (h : ∀ p ∈ c, p.isPseudo = false) :
    SimpleSelector.specificityOfAll (strip c) = SimpleSelector.specificityOfAll c := by
  rw [strip_of_plain h]
  split
  · next hc =>
    subst hc
    rfl
  · rfl

theorem matchesCompound_strip (d : Document) (id : NodeId) {c : CompoundSelector}
    (h : ∀ p ∈ c, p.isPseudo = false) :
    d.matchesCompound id (strip c) = d.matchesCompound id c := by
  rw [strip_of_plain h]
  split
  · next hc =>
    subst hc
    unfold Document.matchesCompound
    cases d.element? id <;> rfl
  · rfl

/-- Whether no compound has a pseudo part. -/
def IsPlain : ComplexSelector → Prop
  | compound c => ∀ p ∈ c, p.isPseudo = false
  | combined left _ c => left.IsPlain ∧ ∀ p ∈ c, p.isPseudo = false

theorem isPlain_of_pseudos {s : ComplexSelector} (h : s.pseudos = []) : s.IsPlain := by
  have hall : ∀ c ∈ s.compounds, ∀ p ∈ c, p.isPseudo = false := by
    intro c hc p hp
    have hnot := List.filter_eq_nil_iff.1 h p (List.mem_flatten.2 ⟨c, hc, hp⟩)
    simpa using hnot
  clear h
  induction s with
  | compound c => exact hall c (by simp [compounds])
  | combined left k c ih =>
    exact ⟨ih fun c' hc' => hall c' (by simp [compounds, hc']), hall c (by simp [compounds])⟩

theorem compounds_map (f : CompoundSelector → CompoundSelector) (s : ComplexSelector) :
    (s.map f).compounds = s.compounds.map f := by
  induction s with
  | compound c => rfl
  | combined left k c ih => simp [map, compounds, ih]

theorem specificity_withoutPseudos {s : ComplexSelector} (h : s.IsPlain) :
    s.withoutPseudos.specificity = s.specificity := by
  have hmap : (s.compounds.map strip).map SimpleSelector.specificityOfAll =
      s.compounds.map SimpleSelector.specificityOfAll := by
    induction s with
    | compound c => simp [compounds, specificity_strip h]
    | combined left k c ih => simpa [compounds, specificity_strip h.2] using ih h.1
  rw [specificity, withoutPseudos_eq, compounds_map, hmap, specificity]

end ComplexSelector

namespace Document

theorem satisfies_withoutPseudos (d : Document) (id : NodeId) {s : ComplexSelector}
    (h : s.IsPlain) : d.satisfies id s.withoutPseudos = d.satisfies id s := by
  rw [ComplexSelector.withoutPseudos_eq]
  induction s generalizing id with
  | compound c => exact ComplexSelector.matchesCompound_strip d id h
  | combined left k c ih =>
    have hleft : (fun other => d.satisfies other (left.map ComplexSelector.strip)) =
        fun other => d.satisfies other left := funext fun other => ih other h.1
    rw [ComplexSelector.map, satisfies, satisfies,
      ComplexSelector.matchesCompound_strip d id h.2, hleft]

theorem select_withoutPseudos (d : Document) (scope : NodeId) {s : ComplexSelector}
    (h : s.IsPlain) : d.select scope [s.withoutPseudos] = d.select scope [s] := by
  unfold select matchesList
  simp only [List.any_cons, List.any_nil, Bool.or_false, satisfies_withoutPseudos d _ h]

end Document

/-! ## Selectors that have pseudo parts -/

/-- No component of a specificity is greater than that of another. -/
structure Specificity.AtMost (a b : Specificity) : Prop where
  ids : a.ids ≤ b.ids
  classes : a.classes ≤ b.classes
  types : a.types ≤ b.types

namespace Specificity

variable {a b c e : Specificity}

theorem AtMost.refl (a : Specificity) : a.AtMost a :=
  ⟨Nat.le_refl _, Nat.le_refl _, Nat.le_refl _⟩

theorem AtMost.trans (hab : a.AtMost b) (hbc : b.AtMost c) : a.AtMost c :=
  ⟨Nat.le_trans hab.ids hbc.ids, Nat.le_trans hab.classes hbc.classes,
    Nat.le_trans hab.types hbc.types⟩

theorem AtMost.add (hab : a.AtMost b) (hce : c.AtMost e) : (a.add c).AtMost (b.add e) :=
  ⟨Nat.add_le_add hab.ids hce.ids, Nat.add_le_add hab.classes hce.classes,
    Nat.add_le_add hab.types hce.types⟩

theorem atMost_add_left (a b : Specificity) : a.AtMost (b.add a) :=
  ⟨Nat.le_add_left _ _, Nat.le_add_left _ _, Nat.le_add_left _ _⟩

theorem zero_atMost (a : Specificity) : zero.AtMost a :=
  ⟨Nat.zero_le _, Nat.zero_le _, Nat.zero_le _⟩

/-- Sums are compared summand by summand. -/
theorem sum_map_atMost {α : Type} {f g : α → Specificity} {l : List α}
    (h : ∀ x ∈ l, (f x).AtMost (g x)) : (sum (l.map f)).AtMost (sum (l.map g)) := by
  have hfold : ∀ (l : List α) (a b : Specificity), a.AtMost b → (∀ x ∈ l, (f x).AtMost (g x)) →
      ((l.map f).foldl Specificity.add a).AtMost ((l.map g).foldl Specificity.add b) := by
    intro l
    induction l with
    | nil => exact fun a b hab _ => hab
    | cons x rest ih =>
      intro a b hab hl
      exact ih _ _ (hab.add (hl x (List.mem_cons_self ..)))
        fun y hy => hl y (List.mem_cons_of_mem x hy)
  exact hfold l zero zero (.refl zero) h

end Specificity

namespace ComplexSelector

/-! ### Compounds -/

theorem strip_of_nil {c : CompoundSelector} (h : c.filter (!·.isPseudo) = []) :
    strip c = [.universal] := by
  rw [strip, h]

theorem strip_of_ne_nil {c : CompoundSelector} (h : c.filter (!·.isPseudo) ≠ []) :
    strip c = c.filter (!·.isPseudo) := by
  rw [strip]
  split
  · next heq => exact absurd heq h
  · rfl

theorem strip_ne_nil (c : CompoundSelector) : strip c ≠ [] := by
  by_cases h : c.filter (!·.isPseudo) = []
  · rw [strip_of_nil h]
    exact List.cons_ne_nil _ _
  · rwa [strip_of_ne_nil h]

theorem isPseudo_strip {c : CompoundSelector} : ∀ p ∈ strip c, p.isPseudo = false := by
  intro p hp
  by_cases h : c.filter (!·.isPseudo) = []
  · rw [strip_of_nil h] at hp
    rw [List.mem_singleton.1 hp]
    rfl
  · rw [strip_of_ne_nil h] at hp
    simpa using (List.mem_filter.1 hp).2

theorem strip_of_plain_of_ne_nil {c : CompoundSelector} (h : ∀ p ∈ c, p.isPseudo = false)
    (hne : c ≠ []) : strip c = c := by
  rw [strip_of_plain h, if_neg hne]

theorem specificityOfAll_filter_atMost (q : SimpleSelector → Bool) (c : CompoundSelector) :
    (SimpleSelector.specificityOfAll (c.filter q)).AtMost (SimpleSelector.specificityOfAll c) := by
  induction c with
  | nil => exact .refl _
  | cons p rest ih =>
    rw [List.filter_cons]
    split
    · exact (Specificity.AtMost.refl _).add ih
    · exact ih.trans (Specificity.atMost_add_left _ _)

theorem specificityOfAll_strip_atMost (c : CompoundSelector) :
    (SimpleSelector.specificityOfAll (strip c)).AtMost (SimpleSelector.specificityOfAll c) := by
  by_cases h : c.filter (!·.isPseudo) = []
  · rw [strip_of_nil h]
    exact Specificity.zero_atMost _
  · rw [strip_of_ne_nil h]
    exact specificityOfAll_filter_atMost _ c

/-! ### Chains -/

theorem pseudos_withoutPseudos (s : ComplexSelector) : s.withoutPseudos.pseudos = [] := by
  rw [pseudos, withoutPseudos_eq, compounds_map, List.filter_eq_nil_iff]
  intro p hp
  obtain ⟨c, hc, hp⟩ := List.mem_flatten.1 hp
  obtain ⟨c', -, rfl⟩ := List.mem_map.1 hc
  simp [isPseudo_strip p hp]

theorem pseudoText_withoutPseudos (s : ComplexSelector) : s.withoutPseudos.pseudoText = "" := by
  rw [pseudoText, pseudos_withoutPseudos, List.flatMap_nil]

theorem map_eq_self {f : CompoundSelector → CompoundSelector} {s : ComplexSelector}
    (h : ∀ c ∈ s.compounds, f c = c) : s.map f = s := by
  induction s with
  | compound c => rw [map, h c (by simp [compounds])]
  | combined left k c ih =>
    rw [map, ih fun c' hc' => h c' (by simp [compounds, hc']), h c (by simp [compounds])]

/-- A selector without pseudo parts stays as it is, but for empty compounds. -/
theorem withoutPseudos_eq_self {s : ComplexSelector} (h : s.pseudos = [])
    (hne : ∀ c ∈ s.compounds, c ≠ []) : s.withoutPseudos = s := by
  refine map_eq_self fun c hc => strip_of_plain_of_ne_nil (fun p hp => ?_) (hne c hc)
  have hnot := List.filter_eq_nil_iff.1 h p (List.mem_flatten.2 ⟨c, hc, hp⟩)
  simpa using hnot

theorem withoutPseudos_withoutPseudos (s : ComplexSelector) :
    s.withoutPseudos.withoutPseudos = s.withoutPseudos := by
  refine withoutPseudos_eq_self (pseudos_withoutPseudos s) fun c hc => ?_
  rw [withoutPseudos_eq, compounds_map] at hc
  obtain ⟨c', -, rfl⟩ := List.mem_map.1 hc
  exact strip_ne_nil c'

theorem specificity_withoutPseudos_atMost (s : ComplexSelector) :
    s.withoutPseudos.specificity.AtMost s.specificity := by
  have hsum := Specificity.sum_map_atMost (l := s.compounds)
    fun c _ => specificityOfAll_strip_atMost c
  rw [specificity, withoutPseudos_eq, compounds_map, List.map_map, specificity]
  exact hsum

end ComplexSelector

namespace Document

variable (d : Document)

theorem matchesAll_of_sublist {id : NodeId} {e : Element} {c c' : CompoundSelector}
    (hsub : c'.Sublist c) (h : d.matchesAll id e c = true) : d.matchesAll id e c' = true := by
  induction hsub with
  | slnil => exact h
  | cons p _ ih =>
    rw [matchesAll, Bool.and_eq_true] at h
    exact ih h.2
  | cons_cons p _ ih =>
    rw [matchesAll, Bool.and_eq_true] at h ⊢
    exact ⟨h.1, ih h.2⟩

theorem matchesCompound_strip_of_matches {id : NodeId} {c : CompoundSelector}
    (h : d.matchesCompound id c = true) :
    d.matchesCompound id (ComplexSelector.strip c) = true := by
  rw [matchesCompound] at h ⊢
  split at h
  · by_cases hnil : c.filter (!·.isPseudo) = []
    · rw [ComplexSelector.strip_of_nil hnil]
      rfl
    · rw [ComplexSelector.strip_of_ne_nil hnil]
      exact d.matchesAll_of_sublist List.filter_sublist h
  · cases h

/-- An element goes on matching when pseudo parts are taken out: each compound asks for less,
and combinators lead to the same elements. -/
theorem satisfies_withoutPseudos_of_satisfies {s : ComplexSelector} {id : NodeId}
    (h : d.satisfies id s = true) : d.satisfies id s.withoutPseudos = true := by
  rw [ComplexSelector.withoutPseudos_eq]
  induction s generalizing id with
  | compound c => exact d.matchesCompound_strip_of_matches h
  | combined left k c ih =>
    rw [satisfies, Bool.and_eq_true, List.any_eq_true] at h
    obtain ⟨hcompound, other, hother, hleft⟩ := h
    rw [ComplexSelector.map, satisfies, Bool.and_eq_true, List.any_eq_true]
    exact ⟨d.matchesCompound_strip_of_matches hcompound, other, hother, ih hleft⟩

end Document

/-! ## Records -/

namespace Inlining

/-- The record of a selector as it is written, if it has no pseudo parts. -/
def writtenRecord? (d : Document) (owner : NodeId) (declarations : Style)
    (address : Rule.Address) (text : String) : Option Record :=
  match ComplexSelector.read text with
  | .ok selector =>
    if selector.pseudoText = "" then
      some ⟨owner, address, selector, declarations, d.select Document.root [selector]⟩
    else none
  | .error _ => none

theorem record?_eq_writtenRecord? {options : Options} (h : options.pseudos = [""])
    (d : Document) : record? options d = writtenRecord? d := by
  funext owner declarations address text
  rw [record?, writtenRecord?, h]
  cases hread : ComplexSelector.read text with
  | error e => rfl
  | ok s =>
    dsimp only
    by_cases hplain : s.pseudoText = ""
    · have hself : s.withoutPseudos = s := by
        refine ComplexSelector.withoutPseudos_eq_self
          (ComplexSelector.pseudos_of_pseudoText hplain) ?_
        rw [ComplexSelector.read] at hread
        split at hread
        · cases hread
        · next hlist =>
          cases hread
          exact SelectorList.forall_compounds_ne_nil hlist s (List.mem_singleton.2 rfl)
        · cases hread
      rw [hplain, hself]
      rfl
    · simp [hplain]

/-- The records of all selectors as they are written. -/
def writtenRecords (options : Options) (d : Document) (sheets : List Sheet) : List Record :=
  sheets.flatMap fun s =>
    (s.sheet.styleRules.filter fun (contexts, _) => options.admits contexts).flatMap
      fun (_, rule) => rule.selectors.zipIdx.filterMap fun (text, i) =>
        writtenRecord? d s.owner (Style.ofDeclarations rule.declarations) (rule.number, i) text

theorem recordsOf_eq_writtenRecords {options : Options} (h : options.pseudos = [""])
    (d : Document) (sheets : List Sheet) :
    recordsOf options d sheets = writtenRecords options d sheets := by
  unfold recordsOf recordsOfRule writtenRecords
  rw [record?_eq_writtenRecord? h]

end Inlining

namespace SelectorList

/-- A selector that was read loses nothing but its pseudo parts when it is stripped: what is
left has none, stays when it is stripped again, is the selector itself if there were none, is
no more specific and matches whatever the selector matches.  So where only selectors without
pseudo parts are inlined, each is matched and ranked as it is written. -/
theorem withoutPseudos_widens {text : String} {l : SelectorList}
    (h : SelectorList.read text = .ok l) {s : ComplexSelector} (hs : s ∈ l) :
    s.withoutPseudos.pseudoText = "" ∧
      s.withoutPseudos.withoutPseudos = s.withoutPseudos ∧
      (s.pseudoText = "" → s.withoutPseudos = s) ∧
      s.withoutPseudos.specificity.AtMost s.specificity ∧
      (∀ (d : Document) (id : NodeId), d.satisfies id s = true →
        d.satisfies id s.withoutPseudos = true) ∧
      ∀ (options : Inlining.Options) (d : Document) (sheets : List Inlining.Sheet),
        options.pseudos = [""] →
        Inlining.byStrength (Inlining.recordsOf options d sheets) =
          Inlining.byStrength (Inlining.writtenRecords options d sheets) :=
  ⟨s.pseudoText_withoutPseudos, s.withoutPseudos_withoutPseudos,
    fun hplain => ComplexSelector.withoutPseudos_eq_self
      (ComplexSelector.pseudos_of_pseudoText hplain) (forall_compounds_ne_nil h s hs),
    s.specificity_withoutPseudos_atMost,
    fun d _ => d.satisfies_withoutPseudos_of_satisfies,
    fun _ d sheets hpseudos =>
      congrArg Inlining.byStrength (Inlining.recordsOf_eq_writtenRecords hpseudos d sheets)⟩

/-! ### A compound of which nothing is left -/

namespace Hovered

open Css SelectorReader

def text : String := "a:hover ::before"

/-- The second compound. -/
def second : List Component :=
  [.token ⟨.colon, [':']⟩, .token ⟨.colon, [':']⟩, .token ⟨.ident "before", "before".toList⟩]

def gap : List Component :=
  .token ⟨.blank " ", [' ']⟩ :: second

def first : List Component :=
  [.token ⟨.ident "a", ['a']⟩, .token ⟨.colon, [':']⟩, .token ⟨.ident "hover", "hover".toList⟩]

def selector : ComplexSelector :=
  .combined (.compound [.type "a", .dynamic "hover" none]) .descendant [.pseudoElement "before"]

theorem components_text : components text.toList = first ++ gap := by
  cbv

theorem pseudoName_hover : pseudoName "hover" = .ok (.dynamic "hover" none) := by
  have hlower : Text.lowerWord "hover" = "hover" := rfl
  rw [pseudoName, hlower]
  simp [Place.all, Place.name, singleColonElements, dynamicClasses]

theorem compound_first :
    compound (first ++ gap) = .ok ([.type "a", .dynamic "hover" none], gap) := by
  have hname : step true (first ++ gap) = .ok (.simple (.type "a") (first.tail ++ gap)) := rfl
  have hhover : step false (first.tail ++ gap) = .ok (.simple (.dynamic "hover" none) gap) := by
    change (pseudoName "hover").map (Step.simple · gap) = _
    rw [pseudoName_hover]
    rfl
  have hblank : step false gap = .ok .stop := rfl
  rw [compound, simples_eq, hname]
  dsimp only
  rw [simples_eq, hhover]
  dsimp only
  rw [simples_eq, hblank]
  rfl

theorem compound_second : compound second = .ok ([.pseudoElement "before"], []) := by
  have hbefore : step true second = .ok (.simple (.pseudoElement "before") []) := rfl
  have hend : step false [] = .ok .stop := rfl
  rw [compound, simples_eq, hbefore]
  dsimp only
  rw [simples_eq, hend]
  rfl

theorem read_text : SelectorList.read text = .ok [selector] := by
  have hskip : skip (first ++ gap) = first ++ gap := rfl
  have hlink : link? gap = .ok (some (.descendant, second)) := rfl
  have hsecond : skip second = second := rfl
  have hend : link? [] = .ok none := rfl
  have hcomplex : complex (first ++ gap) = .ok (selector, []) := by
    rw [complex, hskip, compound_first]
    dsimp only
    rw [chain_eq, hlink]
    dsimp only
    rw [hsecond, compound_second]
    dsimp only
    rw [chain_eq, hend]
    rfl
  rw [SelectorList.read, components_text, selectors_eq, hcomplex]
  rfl

theorem withoutPseudos_hovered :
    SelectorList.read text = .ok [selector] ∧
      selector.withoutPseudos = .combined (.compound [.type "a"]) .descendant [.universal] ∧
      selector.withoutPseudos.pseudoText = "" ∧
      selector.withoutPseudos.specificity.AtMost selector.specificity ∧
      Inlining.Options.default.pseudos = [""] ∧
      ∀ (d : Document) (sheets : List Inlining.Sheet),
        Inlining.byStrength (Inlining.recordsOf .default d sheets) =
          Inlining.byStrength (Inlining.writtenRecords .default d sheets) := by
  obtain ⟨hempty, -, -, hspecificity, -, hrecord⟩ :=
    withoutPseudos_widens read_text (List.mem_singleton.2 (Eq.refl selector))
  exact ⟨read_text, rfl, hempty, hspecificity, rfl,
    fun d sheets => hrecord .default d sheets rfl⟩

end Hovered
end SelectorList
end SvgCompact
