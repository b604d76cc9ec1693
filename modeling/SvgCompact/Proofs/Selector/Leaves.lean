import SvgCompact.Selector.Matching

/-!
The simple selectors that a selector is made of, those in negations included.

Whether a selector matches depends on two things only: which of its leaves match, and
which elements its combinators reach.
-/

namespace SvgCompact

mutual

/-- The simple selectors without options at any depth. -/
def SimpleSelector.leaves : SimpleSelector → List SimpleSelector
  | .negation options => SimpleSelector.leavesOfOptions options
  | s => [s]

def SimpleSelector.leavesOfOptions : List (List SimpleSelector) → List SimpleSelector
  | [] => []
  | c :: rest => SimpleSelector.leavesOfAll c ++ SimpleSelector.leavesOfOptions rest

def SimpleSelector.leavesOfAll : List SimpleSelector → List SimpleSelector
  | [] => []
  | s :: rest => s.leaves ++ SimpleSelector.leavesOfAll rest

end

mutual

theorem SimpleSelector.ne_negation_of_mem_leaves {t : SimpleSelector}
    (options : List (List SimpleSelector)) :
    ∀ s : SimpleSelector, t ∈ s.leaves → t ≠ .negation options
  | .negation inner, h => SimpleSelector.ne_negation_of_mem_leavesOfOptions options inner h
  | .universal, h | .type _, h | .id _, h | .hasClass _, h | .attr _, h | .place _, h
  | .nth _ _, h | .dynamic _ _, h | .pseudoElement _, h => by
    rw [List.mem_singleton.1 h]
    nofun

theorem SimpleSelector.ne_negation_of_mem_leavesOfOptions {t : SimpleSelector}
    (options : List (List SimpleSelector)) : ∀ l : List (List SimpleSelector),
      t ∈ SimpleSelector.leavesOfOptions l → t ≠ .negation options
  | c :: rest, h => (List.mem_append.1 h).elim
    (SimpleSelector.ne_negation_of_mem_leavesOfAll options c)
    (SimpleSelector.ne_negation_of_mem_leavesOfOptions options rest)

theorem SimpleSelector.ne_negation_of_mem_leavesOfAll {t : SimpleSelector}
    (options : List (List SimpleSelector)) : ∀ l : List SimpleSelector,
      t ∈ SimpleSelector.leavesOfAll l → t ≠ .negation options
  | s :: rest, h => (List.mem_append.1 h).elim
    (SimpleSelector.ne_negation_of_mem_leaves options s)
    (SimpleSelector.ne_negation_of_mem_leavesOfAll options rest)

end

def ComplexSelector.leaves (s : ComplexSelector) : List SimpleSelector :=
  s.compounds.flatMap SimpleSelector.leavesOfAll

namespace ComplexSelector

@[simp] theorem leaves_compound (c : CompoundSelector) :
    (compound c).leaves = SimpleSelector.leavesOfAll c := by
  simp [leaves, compounds]

@[simp] theorem leaves_combined (left : ComplexSelector) (k : Combinator) (c : CompoundSelector) :
    (combined left k c).leaves = left.leaves ++ SimpleSelector.leavesOfAll c := by
  simp [leaves, compounds]

end ComplexSelector

/-! ## What a selector looks at -/

/-- Whether a combinator leads to siblings. -/
def Combinator.isSibling : Combinator → Bool
  | .nextSibling => true
  | .laterSibling => true
  | _ => false

/-- Whether a simple selector looks at the siblings of an element or at its children. -/
def SimpleSelector.isPositional : SimpleSelector → Bool
  | .place .root => false
  | .place _ => true
  | .nth _ _ => true
  | _ => false

/-- Whether a simple selector asks where an element stands. -/
def SimpleSelector.asksPlace : SimpleSelector → Bool
  | .place _ => true
  | .nth _ _ => true
  | _ => false

def SimpleSelector.testedAttribute? : SimpleSelector → Option String
  | .attr a => some a.name
  | _ => none

namespace ComplexSelector

/-- Whether a selector looks at siblings or at children anywhere. -/
def looksAround (s : ComplexSelector) : Bool :=
  s.combinators.any (·.isSibling) || s.leaves.any (·.isPositional)

/-- Whether a selector looks at nothing but the element itself. -/
def isLocal (s : ComplexSelector) : Bool :=
  s.combinators.isEmpty && s.leaves.all (!·.asksPlace)

/-- The names of the attributes that a selector tests. -/
def testedAttributes (s : ComplexSelector) : List String :=
  s.leaves.filterMap (·.testedAttribute?)

theorem ne_negation_of_mem_leaves {s : ComplexSelector} {t : SimpleSelector} (h : t ∈ s.leaves)
    (options : List (List SimpleSelector)) : t ≠ .negation options := by
  obtain ⟨c, -, ht⟩ := List.mem_flatMap.1 h
  exact SimpleSelector.ne_negation_of_mem_leavesOfAll options c ht

end ComplexSelector

namespace Document

section Compounds

variable {d d' : Document} {id : NodeId} {e e' : Element}

mutual

theorem matchesSimple_congr : ∀ s : SimpleSelector,
    (∀ t ∈ s.leaves, d'.matchesSimple id e' t = d.matchesSimple id e t) →
      d'.matchesSimple id e' s = d.matchesSimple id e s
  | .negation options, h => by
    rw [matchesSimple, matchesSimple, matchesSome_congr options h]
  | .universal, h | .type _, h | .id _, h | .hasClass _, h | .attr _, h | .place _, h
  | .nth _ _, h | .dynamic _ _, h | .pseudoElement _, h => h _ (List.mem_singleton.2 rfl)

theorem matchesAll_congr : ∀ c : List SimpleSelector,
    (∀ t ∈ SimpleSelector.leavesOfAll c, d'.matchesSimple id e' t = d.matchesSimple id e t) →
      d'.matchesAll id e' c = d.matchesAll id e c
  | [], _ => rfl
  | s :: rest, h => by
    rw [matchesAll, matchesAll, matchesSimple_congr s fun t ht => h t (List.mem_append_left _ ht),
      matchesAll_congr rest fun t ht => h t (List.mem_append_right _ ht)]

theorem matchesSome_congr : ∀ options : List (List SimpleSelector),
    (∀ t ∈ SimpleSelector.leavesOfOptions options,
      d'.matchesSimple id e' t = d.matchesSimple id e t) →
      d'.matchesSome id e' options = d.matchesSome id e options
  | [], _ => rfl
  | c :: rest, h => by
    rw [matchesSome, matchesSome, matchesAll_congr c fun t ht => h t (List.mem_append_left _ ht),
      matchesSome_congr rest fun t ht => h t (List.mem_append_right _ ht)]

end

end Compounds

/-- Two documents agree about a selector on nodes from which its combinators do not
lead away, if they agree about its leaves there. -/
theorem satisfies_congr {d d' : Document} {Q : NodeId → Prop} {s : ComplexSelector}
    (helement : ∀ id, Q id → (d'.element? id).isSome = (d.element? id).isSome)
    (hleaves : ∀ id e e', Q id → d.element? id = some e → d'.element? id = some e' →
      ∀ t ∈ s.leaves, d'.matchesSimple id e' t = d.matchesSimple id e t)
    (hreached : ∀ id, Q id → ∀ k ∈ s.combinators, d'.reached k id = d.reached k id ∧
      ∀ other ∈ d.reached k id, Q other)
    {id : NodeId} (hid : Q id) : d'.satisfies id s = d.satisfies id s := by
  have hcompound : ∀ (c : CompoundSelector),
      (∀ t ∈ SimpleSelector.leavesOfAll c, t ∈ s.leaves) → ∀ id, Q id →
        d'.matchesCompound id c = d.matchesCompound id c := by
    intro c hc id hid
    have hsome := helement id hid
    rw [matchesCompound, matchesCompound]
    cases he : d.element? id with
    | none =>
      rw [he] at hsome
      rw [Option.isSome_eq_false_iff.1 hsome |> Option.isNone_iff_eq_none.1]
    | some e =>
      rw [he] at hsome
      obtain ⟨e', he'⟩ := Option.isSome_iff_exists.1 hsome
      rw [he']
      exact matchesAll_congr c fun t ht => hleaves id e e' hid he he' t (hc t ht)
  have hall : ∀ (part : ComplexSelector), (∀ t ∈ part.leaves, t ∈ s.leaves) →
      (∀ k ∈ part.combinators, k ∈ s.combinators) → ∀ id, Q id →
        d'.satisfies id part = d.satisfies id part := by
    intro part
    induction part with
    | compound c =>
      intro hpart _ id hid
      exact hcompound c (by simpa using hpart) id hid
    | combined left k c ih =>
      intro hpart hk id hid
      rw [ComplexSelector.leaves_combined] at hpart
      rw [ComplexSelector.combinators] at hk
      obtain ⟨hsame, hinside⟩ := hreached id hid k (hk k (by simp))
      have hleft : ∀ other, Q other → d'.satisfies other left = d.satisfies other left :=
        ih (fun t ht => hpart t (List.mem_append_left _ ht))
          fun k hk' => hk k (List.mem_append_left _ hk')
      rw [satisfies, satisfies, hsame,
        hcompound c (fun t ht => hpart t (List.mem_append_right _ ht)) id hid,
        Bool.eq_iff_iff]
      simp only [Bool.and_eq_true, List.any_eq_true]
      refine and_congr_right fun _ => exists_congr fun other => and_congr_right fun hother => ?_
      rw [hleft other (hinside other hother)]
  exact hall s (fun _ ht => ht) (fun _ hk => hk) id hid

end Document
end SvgCompact
