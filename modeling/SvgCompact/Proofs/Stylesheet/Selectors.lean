import SvgCompact.Proofs.Order.Sorting
import SvgCompact.Stylesheet.Reader

/-!
The style rules of a sheet when selectors are taken out of it.

Taking selectors out by their addresses keeps the order of the rules, their contexts
and their declarations; pruning drops the rules that have no selector left and
nothing else.  A sheet that was read numbers its rules in the order of the source,
so an address names one selector at most.
-/

namespace SvgCompact

/-! ## Taking selectors out -/

namespace StyleRule

/-- The rule without the selectors at some addresses. -/
def without (removed : List Rule.Address) (r : StyleRule) : StyleRule :=
  { r with selectors := Rule.keepPlaces (fun i => removed.contains (r.number, i)) 0 r.selectors }

end StyleRule

namespace Rule

theorem keepPlaces_eq (drop : Nat → Bool) (l : List String) (start : Nat) :
    keepPlaces drop start l =
      ((l.zipIdx start).filter fun x => !drop x.2).map (·.1) := by
  induction l generalizing start with
  | nil => rfl
  | cons s rest ih =>
    rw [keepPlaces, List.zipIdx_cons, List.filter_cons]
    cases h : drop start
    · simp [ih (start + 1)]
    · simp [ih (start + 1)]

mutual

theorem styleRules_withoutSelectors (removed : List Address) (contexts : List String) :
    (r : Rule) → styleRules contexts (withoutSelectors removed r) =
      (styleRules contexts r).map fun x => (x.1, x.2.without removed)
  | style _ => rfl
  | statement _ _ => rfl
  | group _ _ rules => styleRulesOf_withoutSelectorsOf removed _ rules
  | verbatim _ _ _ => rfl

theorem styleRulesOf_withoutSelectorsOf (removed : List Address) (contexts : List String) :
    (rules : List Rule) → styleRulesOf contexts (withoutSelectorsOf removed rules) =
      (styleRulesOf contexts rules).map fun x => (x.1, x.2.without removed)
  | [] => rfl
  | r :: rest => by
    rw [withoutSelectorsOf, styleRulesOf, styleRulesOf, List.map_append,
      styleRules_withoutSelectors removed contexts r,
      styleRulesOf_withoutSelectorsOf removed contexts rest]

end

mutual

theorem styleRules_pruned? (contexts : List String) :
    (r : Rule) → ((pruned? r).toList.flatMap (styleRules contexts)) =
      (styleRules contexts r).filter fun x => !x.2.selectors.isEmpty
  | style r => by
    rw [pruned?, styleRules, List.filter_cons]
    cases h : r.selectors.isEmpty
    · rfl
    · rfl
  | statement _ _ => rfl
  | group name prelude rules => by
    have hrules := styleRulesOf_prunedOf (contexts ++ [context name prelude]) rules
    rw [pruned?, styleRules, ← hrules]
    cases prunedOf rules with
    | nil => rfl
    | cons r rest => simp [styleRules]
  | verbatim _ _ _ => rfl

theorem styleRulesOf_prunedOf (contexts : List String) :
    (rules : List Rule) → styleRulesOf contexts (prunedOf rules) =
      (styleRulesOf contexts rules).filter fun x => !x.2.selectors.isEmpty
  | [] => rfl
  | r :: rest => by
    have hfirst := styleRules_pruned? contexts r
    rw [styleRulesOf, List.filter_append, ← hfirst, ← styleRulesOf_prunedOf contexts rest,
      prunedOf]
    cases pruned? r with
    | none => rfl
    | some r => simp [styleRulesOf]

end

end Rule

namespace Stylesheet

theorem styleRules_pruned_withoutSelectors (removed : List Rule.Address) (sheet : Stylesheet) :
    (sheet.withoutSelectors removed).pruned.styleRules =
      (sheet.styleRules.map fun x => (x.1, x.2.without removed)).filter
        fun x => !x.2.selectors.isEmpty := by
  unfold styleRules pruned withoutSelectors
  rw [Rule.styleRulesOf_prunedOf, Rule.styleRulesOf_withoutSelectorsOf]

end Stylesheet

/-! ## Numbers of rules -/

namespace Stylesheet

/-- Numbers that grow from one bound to another. -/
structure GrowsBetween (low high : Nat) (l : List Nat) : Prop where
  le : low ≤ high
  bounds : ∀ n ∈ l, low ≤ n ∧ n < high
  sorted : l.Pairwise (· < ·)

theorem GrowsBetween.nil {low high : Nat} (h : low ≤ high) : GrowsBetween low high [] :=
  ⟨h, by simp, List.Pairwise.nil⟩

theorem GrowsBetween.append {low middle high : Nat} {a b : List Nat}
    (ha : GrowsBetween low middle a) (hb : GrowsBetween middle high b) :
    GrowsBetween low high (a ++ b) := by
  have hle₁ := ha.le
  have hle₂ := hb.le
  refine ⟨by omega, fun n hn => ?_, ?_⟩
  · rcases List.mem_append.1 hn with hn | hn
    · have := ha.bounds n hn
      omega
    · have := hb.bounds n hn
      omega
  · rw [List.pairwise_append]
    refine ⟨ha.sorted, hb.sorted, fun m hm n hn => ?_⟩
    have hm := ha.bounds m hm
    have hn := hb.bounds n hn
    omega

theorem GrowsBetween.cons {low high : Nat} {l : List Nat} (h : GrowsBetween (low + 1) high l) :
    GrowsBetween low high (low :: l) := by
  have hsingle : GrowsBetween low (low + 1) [low] := ⟨by omega, by simp, by simp⟩
  exact hsingle.append h

/-- The numbers of the style rules, groups included. -/
def numbers (contexts : List String) (rules : List Rule) : List Nat :=
  (Rule.styleRulesOf contexts rules).map (·.2.number)

theorem numbers_group (contexts : List String) (name prelude : String) (rules rest : List Rule) :
    numbers contexts (.group name prelude rules :: rest) =
      numbers (contexts ++ [Rule.context name prelude]) rules ++ numbers contexts rest :=
  List.map_append

theorem prepend_eq_ok {rule : Rule} {result : Result} {rules : List Rule} {high : Nat}
    (h : prepend rule result = .ok (rules, high)) :
    ∃ rest, result = .ok (rest, high) ∧ rules = rule :: rest := by
  cases result with
  | error refusal => cases h
  | ok r =>
    cases h
    exact ⟨r.1, rfl, rfl⟩

/-- Rules that are read take numbers from the first free one on. -/
theorem growsBetween_of_readRules {begun : Begun} {position : Position} {low high : Nat}
    {cs : List Css.Component} {rules : List Rule}
    (h : readRules begun position low cs = .ok (rules, high)) (contexts : List String) :
    GrowsBetween low high (numbers contexts rules) := by
  fun_induction readRules begun position low cs generalizing rules high contexts
  case case1 | case3 =>
    cases h
    exact .nil (Nat.le_refl _)
  case case5 ih =>
    obtain ⟨rest, hrest, rfl⟩ := prepend_eq_ok h
    exact (ih hrest contexts).cons
  case case6 hbody ihBody ihRest =>
    obtain ⟨rest, hrest, rfl⟩ := prepend_eq_ok h
    rw [numbers_group]
    exact (ihBody hbody _).append (ihRest hrest contexts)
  case case9 ih | case15 ih =>
    obtain ⟨rest, hrest, rfl⟩ := prepend_eq_ok h
    exact ih hrest contexts
  case case11 ih | case13 ih | case16 ih =>
    exact ih h contexts
  all_goals cases h

/-- The numbers of a sheet that was read tell its style rules apart. -/
theorem number_injective_of_read {s : String} {sheet : Stylesheet} (h : read s = .ok sheet)
    {i j : Nat} {x y : List String × StyleRule} (hx : sheet.styleRules[i]? = some x)
    (hy : sheet.styleRules[j]? = some y) (hxy : x.2.number = y.2.number) : i = j := by
  have hread : ∃ high, readRules .nothing .start 0 (Css.components s.toList) =
      .ok (sheet.rules, high) := by
    rw [read] at h
    split at h
    · next rules high heq =>
      cases h
      exact ⟨high, heq⟩
    · cases h
  obtain ⟨high, hread⟩ := hread
  have hsorted := (growsBetween_of_readRules hread []).sorted
  rw [numbers] at hsorted
  rw [List.pairwise_map] at hsorted
  obtain ⟨hi, rfl⟩ := List.getElem?_eq_some_iff.1 hx
  obtain ⟨hj, rfl⟩ := List.getElem?_eq_some_iff.1 hy
  have hcompare := List.pairwise_iff_getElem.1 hsorted
  rcases Nat.lt_trichotomy i j with hij | hij | hij
  · have := hcompare i j hi hj hij
    unfold styleRules at hxy
    omega
  · exact hij
  · have := hcompare j i hj hi hij
    unfold styleRules at hxy
    omega

end Stylesheet

/-! ## What is left of rules when some selectors are gone

The relation `Rule.Reduces` names each thing that may happen to a rule: a style rule
loses selectors and goes with the last of them, a group goes when nothing is left in it,
and all else stays where it was.  Taking selectors out and pruning afterwards does this
and nothing else, as long as the addresses that are taken out are those of the selectors
that are gone. -/

namespace Rule

/-- Whether rules are what is left of other rules in some contexts.  Which selectors are
gone depends on their contexts and their text. -/
inductive Reduces (gone : List String → String → Bool) : List String → List Rule → List Rule → Prop
  | nil (contexts : List String) : Reduces gone contexts [] []
  | style {contexts : List String} {r : StyleRule} {rules rest : List Rule}
      (hleft : r.selectors.filter (fun text => !gone contexts text) ≠ [])
      (h : Reduces gone contexts rules rest) :
      Reduces gone contexts (style r :: rules)
        (style { r with selectors := r.selectors.filter fun text => !gone contexts text } :: rest)
  | usedUp {contexts : List String} {r : StyleRule} {rules rest : List Rule}
      (hgone : ∀ text ∈ r.selectors, gone contexts text = true)
      (h : Reduces gone contexts rules rest) : Reduces gone contexts (style r :: rules) rest
  | statement {contexts : List String} (name prelude : String) {rules rest : List Rule}
      (h : Reduces gone contexts rules rest) :
      Reduces gone contexts (statement name prelude :: rules) (statement name prelude :: rest)
  | group {contexts : List String} {name prelude : String} {inner left rules rest : List Rule}
      (hinner : Reduces gone (contexts ++ [context name prelude]) inner left) (hleft : left ≠ [])
      (h : Reduces gone contexts rules rest) :
      Reduces gone contexts (group name prelude inner :: rules) (group name prelude left :: rest)
  | emptied {contexts : List String} {name prelude : String} {inner rules rest : List Rule}
      (hinner : Reduces gone (contexts ++ [context name prelude]) inner [])
      (h : Reduces gone contexts rules rest) :
      Reduces gone contexts (group name prelude inner :: rules) rest
  | verbatim {contexts : List String} (name prelude body : String) {rules rest : List Rule}
      (h : Reduces gone contexts rules rest) :
      Reduces gone contexts (verbatim name prelude body :: rules)
        (verbatim name prelude body :: rest)

/-- Whether the addresses of the selectors that are gone, and of no other selectors of
these rules, are taken out. -/
def Removes (removed : List Address) (gone : List String → String → Bool)
    (entries : List (List String × StyleRule)) : Prop :=
  ∀ x ∈ entries, ∀ (i : Nat) (text : String), x.2.selectors[i]? = some text →
    removed.contains (x.2.number, i) = gone x.1 text

variable {gone : List String → String → Bool} {removed : List Address}

theorem removes_append {front back : List (List String × StyleRule)} :
    Removes removed gone (front ++ back) ↔
      Removes removed gone front ∧ Removes removed gone back := by
  unfold Removes
  exact List.forall_mem_append

theorem keepPlaces_eq_filter {drop : Nat → Bool} {q : String → Bool} {l : List String}
    {start : Nat} (h : ∀ i text, l[i]? = some text → drop (start + i) = q text) :
    keepPlaces drop start l = l.filter fun text => !q text := by
  induction l generalizing start with
  | nil => rfl
  | cons s rest ih =>
    have hfirst : drop start = q s := h 0 s rfl
    have hrest : keepPlaces drop (start + 1) rest = rest.filter fun text => !q text :=
      ih fun i text hi => by
        rw [Nat.add_assoc, Nat.add_comm 1]
        exact h (i + 1) text hi
    rw [keepPlaces, hfirst, hrest]
    cases hs : q s with
    | false => rw [if_neg Bool.false_ne_true, List.filter_cons_of_pos (by rw [hs]; rfl)]
    | true => rw [if_pos rfl, List.filter_cons_of_neg (by rw [hs]; exact Bool.false_ne_true)]

theorem prunedOf_cons (r : Rule) (rest : List Rule) :
    prunedOf (r :: rest) = (pruned? r).toList ++ prunedOf rest := by
  rw [prunedOf]
  cases pruned? r <;> rfl

mutual

theorem Reduces.cons {contexts : List String} {rules rest : List Rule}
    (h : Reduces gone contexts rules rest) :
    (r : Rule) → Removes removed gone (styleRules contexts r) →
      Reduces gone contexts (r :: rules) ((pruned? (withoutSelectors removed r)).toList ++ rest)
  | .style r, hremoves => by
    have hkeep : keepPlaces (fun i => removed.contains (r.number, i)) 0 r.selectors =
        r.selectors.filter fun text => !gone contexts text :=
      keepPlaces_eq_filter fun i text hi => by
        rw [Nat.zero_add]
        exact hremoves (contexts, r) (List.mem_singleton_self _) i text hi
    rw [withoutSelectors, pruned?, hkeep]
    by_cases hnone : r.selectors.filter (fun text => !gone contexts text) = []
    · rw [if_pos (List.isEmpty_iff.2 hnone)]
      rw [List.filter_eq_nil_iff] at hnone
      exact .usedUp (fun text htext => by simpa using hnone text htext) h
    · rw [if_neg (by rwa [List.isEmpty_iff])]
      exact .style hnone h
  | .statement name prelude, _ => .statement name prelude h
  | .group name prelude inner, hremoves => by
    have hinner := reduces_prunedOf inner hremoves
    rw [withoutSelectors, pruned?]
    cases hleft : prunedOf (withoutSelectorsOf removed inner) with
    | nil => exact .emptied (hleft ▸ hinner) h
    | cons r left => exact .group (hleft ▸ hinner) (List.cons_ne_nil _ _) h
  | .verbatim name prelude body, _ => .verbatim name prelude body h

theorem reduces_prunedOf {contexts : List String} :
    (rules : List Rule) → Removes removed gone (styleRulesOf contexts rules) →
      Reduces gone contexts rules (prunedOf (withoutSelectorsOf removed rules))
  | [], _ => .nil contexts
  | r :: rest, hremoves => by
    rw [styleRulesOf, removes_append] at hremoves
    rw [withoutSelectorsOf, prunedOf_cons]
    exact (reduces_prunedOf rest hremoves.2).cons r hremoves.1

end

/-! ### What is left -/

/-- The style rules that are left, with the selectors that are left. -/
theorem Reduces.styleRulesOf {contexts : List String} {rules rest : List Rule}
    (h : Reduces gone contexts rules rest) :
    styleRulesOf contexts rest =
      ((styleRulesOf contexts rules).map fun x =>
        (x.1, { x.2 with selectors := x.2.selectors.filter fun text => !gone x.1 text })).filter
          fun x => !x.2.selectors.isEmpty := by
  induction h with
  | nil => rfl
  | @style contexts r rules rest hleft _ ih =>
    have hkept : (r.selectors.filter fun text => !gone contexts text).isEmpty = false :=
      List.isEmpty_eq_false_iff.2 hleft
    rw [Rule.styleRulesOf, Rule.styleRulesOf, List.map_append, List.filter_append, ih, styleRules,
      styleRules, List.map_singleton, List.filter_cons_of_pos (by rw [hkept]; rfl), List.filter_nil]
  | @usedUp contexts r rules rest hgone _ ih =>
    have hnone : (r.selectors.filter fun text => !gone contexts text).isEmpty = true :=
      List.isEmpty_iff.2 (List.filter_eq_nil_iff.2 fun text htext => by simp [hgone text htext])
    rw [Rule.styleRulesOf, List.map_append, List.filter_append, ih, styleRules, List.map_singleton,
      List.filter_cons_of_neg (by rw [hnone]; exact Bool.false_ne_true), List.filter_nil,
      List.nil_append]
  | statement _ _ _ ih | verbatim _ _ _ _ ih => exact ih
  | group _ _ _ ihInner ih =>
    rw [Rule.styleRulesOf, Rule.styleRulesOf, List.map_append, List.filter_append, ih, styleRules,
      styleRules, ihInner]
  | emptied _ _ ihInner ih =>
    rw [Rule.styleRulesOf, List.map_append, List.filter_append, ih, styleRules, ← ihInner]
    rfl

theorem Reduces.exists_declarations_iff {contexts : List String} {rules rest : List Rule}
    (h : Reduces gone contexts rules rest) {q : List Declaration → Prop} :
    (∃ x ∈ Rule.styleRulesOf contexts rest, q x.2.declarations) ↔
      ∃ x ∈ Rule.styleRulesOf contexts rules,
        (∃ text ∈ x.2.selectors, gone x.1 text = false) ∧ q x.2.declarations := by
  have hleft : ∀ x : List String × StyleRule,
      (!(x.2.selectors.filter fun text => !gone x.1 text).isEmpty) = true ↔
        ∃ text ∈ x.2.selectors, gone x.1 text = false := fun x => by
    simp
  simp only [h.styleRulesOf, List.mem_filter, List.mem_map]
  constructor
  · rintro ⟨_, ⟨⟨x, hx, rfl⟩, hkept⟩, hq⟩
    exact ⟨x, hx, (hleft x).1 hkept, hq⟩
  · rintro ⟨x, hx, hkept, hq⟩
    exact ⟨_, ⟨⟨x, hx, rfl⟩, (hleft x).2 hkept⟩, hq⟩

mutual

/-- The bodies of at-rules that are kept as text. -/
def bodies : Rule → List String
  | style _ => []
  | statement _ _ => []
  | group _ _ rules => bodiesOf rules
  | verbatim _ _ body => [body]

def bodiesOf : List Rule → List String
  | [] => []
  | r :: rest => bodies r ++ bodiesOf rest

end

theorem Reduces.bodiesOf {contexts : List String} {rules rest : List Rule}
    (h : Reduces gone contexts rules rest) : bodiesOf rest = bodiesOf rules := by
  induction h with
  | nil => rfl
  | style _ _ ih | usedUp _ _ ih | statement _ _ _ ih => exact ih
  | group _ _ _ ihInner ih =>
    rw [Rule.bodiesOf, Rule.bodiesOf, ih, bodies, bodies, ihInner]
  | emptied _ _ ihInner ih =>
    rw [Rule.bodiesOf, bodies, ← ihInner, ih]
    rfl
  | verbatim _ _ _ _ ih => rw [Rule.bodiesOf, Rule.bodiesOf, ih, bodies]

end Rule

end SvgCompact
