import SvgCompact.Proofs.Selector.Chains
import SvgCompact.Proofs.Selector.Pseudos
import SvgCompact.Proofs.Selector.Shape
import SvgCompact.Selector.Printer

/-!
Selectors as tables.

A table has compounds and combinators in two lists, and nothing tells how many there are of
each: the combinator in a place is to stand between the compounds in this place and the
next.  `IsWellFormed` says that it does, and that compounds at every depth have the shape
that compounds are to have.  A table is printed and matched by place, and where a place is
empty there is no answer.

The well-formed tables are those of selectors.  Printing and matching them finds every place
that is looked at, and comes to what printing and matching the selectors comes to.
-/

namespace SvgCompact

namespace CompoundSelector

/-! ## Compounds -/

/-- Whether a compound has a simple selector, and a type or the universal selector once at
most and in front only. -/
structure IsWellFormed (c : CompoundSelector) : Prop where
  ne_nil : c ≠ []
  once : c.countP SimpleSelector.isElemental ≤ 1
  front : ∀ before s after, c = before ++ s :: after → s.isElemental = true → before = []

/-- The compounds in a compound: itself, and those in the options of its negations. -/
inductive Within (inner : CompoundSelector) : CompoundSelector → Prop
  | self : Within inner inner
  | option {c option : CompoundSelector} {options : List CompoundSelector}
    (hc : .negation options ∈ c) (hoption : option ∈ options) (h : Within inner option) :
    Within inner c

variable {c inner : CompoundSelector}

theorem isWellFormed_of_tail (hne : c ≠ []) (hfront : ∀ s ∈ c.tail, s.isElemental = false) :
    IsWellFormed c where
  ne_nil := hne
  once := by
    have htail : c.tail.countP SimpleSelector.isElemental = 0 :=
      List.countP_eq_zero.2 fun s hs => by simp [hfront s hs]
    rw [← List.cons_head_tail hne, List.countP_cons, htail]
    split <;> omega
  front before s after hc helemental := by
    cases before with
    | nil => rfl
    | cons first before =>
      rw [hfront s (by simp [hc])] at helemental
      cases helemental

theorem IsWellFormed.tail (h : IsWellFormed c) : ∀ s ∈ c.tail, s.isElemental = false := by
  intro s hs
  obtain ⟨before, after, hafter⟩ := List.append_of_mem hs
  refine Bool.eq_false_iff.2 fun helemental => List.cons_ne_nil (c.head h.ne_nil) before ?_
  exact h.front _ s after
    (by rw [List.cons_append, ← hafter, List.cons_head_tail h.ne_nil]) helemental

/-- The shape of a compound is that of all compounds in it. -/
theorem Holds.isWellFormed_of_within {P : SimpleSelector → Prop} (h : Holds P c)
    (hinner : Within inner c) : IsWellFormed inner := by
  induction hinner with
  | self => exact isWellFormed_of_tail h.ne_nil h.front
  | option hc hoption _ ih =>
    cases h.all _ hc with
    | leaf hleaf => exact absurd rfl (hleaf _)
    | negation hne hcompounds hfront hall =>
      exact ih ⟨hcompounds _ hoption, hfront _ hoption, hall _ hoption⟩

/-- Stripping leaves the order of what stays. -/
theorem IsWellFormed.strip (h : IsWellFormed c) : IsWellFormed (ComplexSelector.strip c) := by
  by_cases hempty : c.filter (!·.isPseudo) = []
  · rw [ComplexSelector.strip_of_nil hempty]
    exact isWellFormed_of_tail (List.cons_ne_nil _ _) nofun
  · rw [ComplexSelector.strip_of_ne_nil hempty]
    exact isWellFormed_of_tail hempty fun s hs => h.tail s (List.filter_sublist.tail.subset hs)

/-- Without negations there is no other compound in a compound. -/
theorem Within.eq_strip (h : Within inner (ComplexSelector.strip c)) :
    inner = ComplexSelector.strip c := by
  cases h with
  | self => rfl
  | option hc => cases ComplexSelector.isPseudo_strip _ hc

end CompoundSelector

/-! ## Tables -/

structure SelectorTable where
  compounds : List CompoundSelector
  combinators : List Combinator

namespace ComplexSelector

def table (s : ComplexSelector) : SelectorTable :=
  ⟨s.compounds, s.combinators⟩

theorem combinators_map (f : CompoundSelector → CompoundSelector) (s : ComplexSelector) :
    (s.map f).combinators = s.combinators := by
  induction s with
  | compound c => rfl
  | combined left k c ih => rw [map, combinators, ih, combinators]

end ComplexSelector

namespace SelectorTable

/-- Whether there is one combinator fewer than compounds, and all compounds are well formed,
those in negations at any depth too. -/
structure IsWellFormed (t : SelectorTable) : Prop where
  length : t.combinators.length + 1 = t.compounds.length
  compounds : ∀ c ∈ t.compounds, ∀ inner, CompoundSelector.Within inner c →
    CompoundSelector.IsWellFormed inner

/-- A table of the right length is that of a selector. -/
theorem exists_selector {t : SelectorTable} (h : t.combinators.length + 1 = t.compounds.length) :
    ∃ s : ComplexSelector, t = s.table := by
  obtain ⟨compounds, combinators⟩ := t
  dsimp only at h
  induction combinators using List.reverseRecOn generalizing compounds with
  | nil =>
    obtain ⟨c, rfl⟩ := List.length_eq_one_iff.1 h.symm
    exact ⟨.compound c, rfl⟩
  | append_singleton combinators k ih =>
    rcases List.eq_nil_or_concat compounds with rfl | ⟨front, c, rfl⟩
    · cases h
    · rw [List.concat_eq_append] at h ⊢
      obtain ⟨left, hleft⟩ := ih front (by simpa using h)
      cases hleft
      exact ⟨.combined left k c, rfl⟩

/-! ### Stripping -/

def withoutPseudos (t : SelectorTable) : SelectorTable :=
  ⟨t.compounds.map ComplexSelector.strip, t.combinators⟩

theorem withoutPseudos_table (s : ComplexSelector) :
    s.table.withoutPseudos = s.withoutPseudos.table := by
  rw [ComplexSelector.withoutPseudos_eq, ComplexSelector.table, ComplexSelector.table,
    ComplexSelector.compounds_map, ComplexSelector.combinators_map]
  rfl

theorem IsWellFormed.withoutPseudos {t : SelectorTable} (h : t.IsWellFormed) :
    t.withoutPseudos.IsWellFormed where
  length := by
    rw [SelectorTable.withoutPseudos, List.length_map]
    exact h.length
  compounds := by
    intro stripped hstripped inner hinner
    obtain ⟨c, hc, rfl⟩ := List.mem_map.1 hstripped
    rw [hinner.eq_strip]
    exact (h.compounds c hc c .self).strip

/-! ### Printing -/

/-- The text of a compound in its place, behind the combinator that stands in front of it. -/
def writePart? (combinators : List Combinator) : CompoundSelector × Nat → Option (List Char)
  | (c, 0) => some (SimpleSelector.writeAll c)
  | (c, i + 1) => do return (← combinators[i]?).write :: SimpleSelector.writeAll c

/-- The text of a table, if every combinator is there that is asked for. -/
def write? (t : SelectorTable) : Option (List Char) :=
  (t.compounds.zipIdx.mapM (writePart? t.combinators)).map List.flatten

/-- Two compounds have no text without a combinator. -/
example (a b : CompoundSelector) : write? ⟨[a, b], []⟩ = none := rfl

/-- Combinators behind those of a selector are not asked for. -/
theorem map_flatten_writePart? (s : ComplexSelector) (more : List Combinator) :
    (s.compounds.zipIdx.mapM (writePart? (s.combinators ++ more))).map List.flatten =
      some s.write := by
  -- A selector grows on the right, a table is read from the left: what the left part of a
  -- selector does not ask for has to stand behind it.
  induction s generalizing more with
  | compound c => simp [ComplexSelector.compounds, ComplexSelector.write, writePart?]
  | combined left k c ih =>
    obtain ⟨parts, hparts, htext⟩ := Option.map_eq_some_iff.1 (ih (k :: more))
    have hplace : (left.combinators ++ k :: more)[left.combinators.length]? = some k := by simp
    have hlast : writePart? (left.combinators ++ k :: more) (c, left.compounds.length) =
        some (k.write :: SimpleSelector.writeAll c) := by
      rw [Document.length_compounds, writePart?, hplace]
      rfl
    rw [ComplexSelector.compounds, ComplexSelector.combinators, List.append_assoc,
      List.singleton_append, List.zipIdx_append, List.mapM_append, hparts]
    simp [hlast, htext, ComplexSelector.write]

theorem write?_table (s : ComplexSelector) : s.table.write? = some s.write := by
  have htext := map_flatten_writePart? s []
  rwa [List.append_nil] at htext

/-! ### Matching -/

/-- Whether the compounds up to a place match, the last of them an element, if every
compound and every combinator is there that is asked for. -/
def satisfiesFrom? (d : Document) (t : SelectorTable) : Nat → NodeId → Option Bool
  | 0, id => do return d.matchesCompound id (← t.compounds[0]?)
  | i + 1, id => do
    if d.matchesCompound id (← t.compounds[i + 1]?) then
      (d.reached (← t.combinators[i]?) id).anyM (satisfiesFrom? d t i)
    else return false

/-- Whether an element matches a table, beginning with the last compound. -/
def satisfies? (d : Document) (t : SelectorTable) (id : NodeId) : Option Bool :=
  match t.compounds.length with
  | 0 => some false
  | last + 1 => satisfiesFrom? d t last id

/-- What stands behind a selector is not asked for. -/
theorem satisfiesFrom?_append (d : Document) (s : ComplexSelector)
    (others : List CompoundSelector) (more : List Combinator) (id : NodeId) :
    satisfiesFrom? d ⟨s.compounds ++ others, s.combinators ++ more⟩ s.combinators.length id =
      some (d.satisfies id s) := by
  induction s generalizing others more id with
  | compound c => rfl
  | combined left k c ih =>
    have hc : (left.compounds ++ c :: others)[left.combinators.length + 1]? = some c := by
      rw [← Document.length_compounds]
      simp
    have hany : (d.reached k id).anyM (satisfiesFrom? d ⟨left.compounds ++ c :: others,
        left.combinators ++ k :: more⟩ left.combinators.length) =
        some ((d.reached k id).any fun other => d.satisfies other left) := by
      rw [funext fun other => ih (c :: others) (k :: more) other]
      exact List.anyM_pure
    rw [ComplexSelector.compounds, ComplexSelector.combinators, List.append_assoc,
      List.append_assoc, List.singleton_append, List.singleton_append, List.length_append,
      List.length_singleton, satisfiesFrom?, hc]
    cases hmatches : d.matchesCompound id c with
    | false => simp [Document.satisfies, hmatches]
    | true => simp [Document.satisfies, hmatches, hany]

theorem satisfies?_table (d : Document) (s : ComplexSelector) (id : NodeId) :
    satisfies? d s.table id = some (d.satisfies id s) := by
  have hlength : s.table.compounds.length = s.combinators.length + 1 :=
    Document.length_compounds s
  have hanswer := satisfiesFrom?_append d s [] [] id
  rw [List.append_nil, List.append_nil] at hanswer
  rw [satisfies?, hlength]
  exact hanswer

end SelectorTable
end SvgCompact
