import SvgCompact.Proofs.Inlining.Applying

/-!
Inlining computes the cascade.

Records are listed with the positions of their selectors.  Sorting by strength keeps
later selectors before earlier ones of the same specificity, so the origins of the
candidates that are offered to an element get weaker and weaker.  What the element
holds in the end is the outcome among its own declaration and theirs:
`isOutcome_declarationAt_inline`.
-/

namespace SvgCompact
namespace Inlining

/-- The selector of a style rule at a position of some sheets, with the rule and the
contexts around it. -/
structure IsSelectorAt (sheets : List Sheet) (position : Position) (contexts : List String)
    (rule : StyleRule) (text : String) : Prop where
  exists_sheet : ∃ s, sheets[position.sheet]? = some s ∧
    s.sheet.styleRules[position.rule]? = some (contexts, rule)
  selector : rule.selectors[position.place]? = some text

/-- The candidates for a property at a node: what it holds itself, and what the rules
declare whose contexts and pseudo parts are admitted and whose selector matches it
without them, and nothing else if records have to match once. -/
inductive Competes (options : Options) (d : Document) (id : NodeId) (p : String) :
    Candidate → Prop
  | own {x : Declaration} : d.declarationAt id p = some x → Competes options d id p ⟨x, .inline⟩
  | rule {position : Position} {contexts : List String} {rule : StyleRule} {text : String}
      {selector : ComplexSelector} {x : Declaration} :
      IsSelectorAt (sheetsOf d) position contexts rule text →
      options.admits contexts = true →
      ComplexSelector.read text = .ok selector →
      selector.pseudoText ∈ options.pseudos →
      id ∈ d.select Document.root [selector.withoutPseudos] →
      (options.onlyOnce = true → (d.select Document.root [selector.withoutPseudos]).length = 1) →
      (Style.ofDeclarations rule.declarations).find? p = some x →
      Competes options d id p ⟨x, .rule selector.withoutPseudos.specificity position⟩

/-! ## Selectors with their positions -/

/-- A selector of a style rule with all that is around it. -/
structure PlacedSelector where
  position : Position
  owner : NodeId
  contexts : List String
  rule : StyleRule
  text : String

def selectorsOfRule (owner : NodeId) (i j : Nat) (entry : List String × StyleRule) :
    List PlacedSelector :=
  entry.2.selectors.zipIdx.map fun (text, k) => ⟨⟨i, j, k⟩, owner, entry.1, entry.2, text⟩

def selectorsOfSheet (i : Nat) (s : Sheet) : List PlacedSelector :=
  s.sheet.styleRules.zipIdx.flatMap fun (entry, j) => selectorsOfRule s.owner i j entry

/-- The selectors of sheets with their positions, in source order. -/
def selectorsOf (sheets : List Sheet) : List PlacedSelector :=
  sheets.zipIdx.flatMap fun (s, i) => selectorsOfSheet i s

theorem mem_selectorsOf {sheets : List Sheet} {x : PlacedSelector} :
    x ∈ selectorsOf sheets ↔
      ∃ s, sheets[x.position.sheet]? = some s ∧ s.owner = x.owner ∧
        s.sheet.styleRules[x.position.rule]? = some (x.contexts, x.rule) ∧
        x.rule.selectors[x.position.place]? = some x.text := by
  obtain ⟨⟨i, j, k⟩, owner, contexts, rule, text⟩ := x
  unfold selectorsOf selectorsOfSheet selectorsOfRule
  simp only [List.mem_flatMap, List.mem_map, Prod.exists, List.mk_mem_zipIdx_iff_getElem?,
    PlacedSelector.mk.injEq, Position.mk.injEq]
  constructor
  · intro hex
    obtain ⟨s, i', hs, contexts', rule', j', hj, text', k', hk, ⟨rfl, rfl, rfl⟩, rfl, rfl, rfl,
      rfl⟩ := hex
    exact ⟨s, hs, rfl, hj, hk⟩
  · intro hex
    obtain ⟨s, hs, rfl, hj, hk⟩ := hex
    exact ⟨s, i, hs, contexts, rule, j, hj, text, k, hk, ⟨rfl, rfl, rfl⟩, rfl, rfl, rfl, rfl⟩

theorem isSelectorAt_iff {sheets : List Sheet} {position : Position} {contexts : List String}
    {rule : StyleRule} {text : String} :
    IsSelectorAt sheets position contexts rule text ↔
      ∃ owner, ⟨position, owner, contexts, rule, text⟩ ∈ selectorsOf sheets := by
  simp only [mem_selectorsOf]
  constructor
  · intro hex
    obtain ⟨⟨s, hs, hj⟩, hk⟩ := hex
    exact ⟨s.owner, s, hs, rfl, hj, hk⟩
  · intro hex
    obtain ⟨_, s, hs, -, hj, hk⟩ := hex
    exact ⟨⟨s, hs, hj⟩, hk⟩

/-- Blocks that are tagged with growing numbers and sorted inside are sorted. -/
theorem pairwise_flatMap_zipIdx {α β : Type} {R : β → β → Prop} {f : α × Nat → List β}
    (hin : ∀ x, (f x).Pairwise R)
    (hout : ∀ x y, x.2 < y.2 → ∀ a ∈ f x, ∀ b ∈ f y, R a b) (l : List α) :
    (l.zipIdx.flatMap f).Pairwise R := by
  rw [List.pairwise_flatMap]
  exact ⟨fun x _ => hin x, (Sorting.pairwise_zipIdx l 0).imp fun h => hout _ _ h⟩

theorem position_of_mem_selectorsOfRule {owner : NodeId} {i j : Nat}
    {entry : List String × StyleRule} {x : PlacedSelector}
    (h : x ∈ selectorsOfRule owner i j entry) : x.position.sheet = i ∧ x.position.rule = j := by
  obtain ⟨y, -, rfl⟩ := List.mem_map.1 h
  exact ⟨rfl, rfl⟩

theorem position_of_mem_selectorsOfSheet {i : Nat} {s : Sheet} {x : PlacedSelector}
    (h : x ∈ selectorsOfSheet i s) : x.position.sheet = i := by
  obtain ⟨y, -, hy⟩ := List.mem_flatMap.1 h
  exact (position_of_mem_selectorsOfRule hy).1

theorem pairwise_selectorsOf (sheets : List Sheet) :
    (selectorsOf sheets).Pairwise fun x y => x.position.Precedes y.position := by
  refine pairwise_flatMap_zipIdx (fun x => ?_) (fun x y hxy a ha b hb => ?_) sheets
  · refine pairwise_flatMap_zipIdx (fun y => ?_) (fun y z hyz a ha b hb => ?_) _
    · refine List.pairwise_map.2 ((Sorting.pairwise_zipIdx _ 0).imp fun {u v} huv => ?_)
      exact .inr ⟨rfl, .inr ⟨rfl, huv⟩⟩
    · obtain ⟨ha₁, ha₂⟩ := position_of_mem_selectorsOfRule ha
      obtain ⟨hb₁, hb₂⟩ := position_of_mem_selectorsOfRule hb
      exact .inr ⟨ha₁.trans hb₁.symm, .inl (by rwa [ha₂, hb₂])⟩
  · have ha₁ := position_of_mem_selectorsOfSheet ha
    have hb₁ := position_of_mem_selectorsOfSheet hb
    exact .inl (by rwa [ha₁, hb₁])

/-! ## Records with their positions -/

abbrev Placed := Position × Record

/-- The record of a selector whose contexts are admitted. -/
def PlacedSelector.record? (options : Options) (d : Document) (x : PlacedSelector) :
    Option Record :=
  if options.admits x.contexts then
    Inlining.record? options d x.owner (Style.ofDeclarations x.rule.declarations)
      (x.rule.number, x.position.place) x.text
  else none

/-- The records of sheets with their positions, in source order. -/
def placedOf (options : Options) (d : Document) (sheets : List Sheet) : List Placed :=
  (selectorsOf sheets).filterMap fun x => (x.record? options d).map fun r => (x.position, r)

variable {options : Options} {d : Document}

theorem filterMap_selectorsOfRule (owner : NodeId) (i j : Nat) (entry : List String × StyleRule) :
    (selectorsOfRule owner i j entry).filterMap (·.record? options d) =
      if options.admits entry.1 then recordsOfRule options d owner entry.2 else [] := by
  rw [selectorsOfRule]
  rw [List.filterMap_map]
  split
  · next h =>
    refine List.filterMap_congr fun x _ => ?_
    simp only [Function.comp_apply, PlacedSelector.record?, h, if_true]
  · next h =>
    refine List.filterMap_eq_nil_iff.2 fun x _ => ?_
    simp only [Function.comp_apply, PlacedSelector.record?, h, if_false, Bool.false_eq_true]

theorem flatMap_filter {α β : Type} (q : α → Bool) (f : α → List β) (l : List α) :
    (l.filter q).flatMap f = l.flatMap fun a => if q a then f a else [] := by
  induction l with
  | nil => rfl
  | cons a rest ih => by_cases ha : q a = true <;> simp [ha, ih]

theorem filterMap_selectorsOf (sheets : List Sheet) :
    (selectorsOf sheets).filterMap (·.record? options d) = recordsOf options d sheets := by
  have hsheet : ∀ x : Sheet × Nat,
      (selectorsOfSheet x.2 x.1).filterMap (·.record? options d) =
        (x.1.sheet.styleRules.filter fun entry => options.admits entry.1).flatMap
          fun entry => recordsOfRule options d x.1.owner entry.2 := fun x => by
    rw [selectorsOfSheet]
    simp only [List.filterMap_flatMap, filterMap_selectorsOfRule]
    rw [flatMap_filter]
    exact Sorting.flatMap_zipIdx (fun entry : List String × StyleRule =>
      if options.admits entry.1 then recordsOfRule options d x.1.owner entry.2 else []) _ _
  rw [selectorsOf]
  simp only [List.filterMap_flatMap, hsheet]
  exact Sorting.flatMap_zipIdx (fun s : Sheet =>
    (s.sheet.styleRules.filter fun entry => options.admits entry.1).flatMap
      fun entry => recordsOfRule options d s.owner entry.2) _ _

theorem map_placedOf (sheets : List Sheet) :
    (placedOf options d sheets).map (·.2) = recordsOf options d sheets := by
  rw [← filterMap_selectorsOf, placedOf, List.map_filterMap]
  refine List.filterMap_congr fun x _ => ?_
  rw [Option.map_map]
  exact Option.map_id'

theorem mem_placedOf {sheets : List Sheet} {position : Position} {r : Record} :
    (position, r) ∈ placedOf options d sheets ↔
      ∃ x ∈ selectorsOf sheets, x.position = position ∧ x.record? options d = some r := by
  rw [placedOf]
  simp only [List.mem_filterMap, Option.map_eq_some_iff, Prod.mk.injEq]
  constructor
  · intro hex
    obtain ⟨x, hx, _, hr, rfl, rfl⟩ := hex
    exact ⟨x, hx, rfl, hr⟩
  · intro hex
    obtain ⟨x, hx, rfl, hr⟩ := hex
    exact ⟨x, hx, r, hr, rfl, rfl⟩

theorem pairwise_placedOf (sheets : List Sheet) :
    (placedOf options d sheets).Pairwise fun x y => x.1.Precedes y.1 := by
  refine List.pairwise_filterMap.2 ((pairwise_selectorsOf sheets).imp fun hxy a ha b hb => ?_)
  obtain ⟨r, -, rfl⟩ := Option.map_eq_some_iff.1 ha
  obtain ⟨s, -, rfl⟩ := Option.map_eq_some_iff.1 hb
  exact hxy

theorem record?_eq_some_iff {x : PlacedSelector} {r : Record} :
    x.record? options d = some r ↔
      options.admits x.contexts = true ∧
        ∃ selector, ComplexSelector.read x.text = .ok selector ∧
          selector.pseudoText ∈ options.pseudos ∧
          r = ⟨x.owner, (x.rule.number, x.position.place), selector.withoutPseudos,
            Style.ofDeclarations x.rule.declarations,
            d.select Document.root [selector.withoutPseudos]⟩ := by
  unfold PlacedSelector.record? record?
  by_cases hadmits : options.admits x.contexts = true
  · cases ComplexSelector.read x.text with
    | error e => simp
    | ok selector =>
      by_cases hp : selector.pseudoText ∈ options.pseudos <;> simp [hadmits, hp, eq_comm]
  · simp [hadmits]

/-! ## Stronger origins first -/

def Placed.origin (x : Placed) : Origin :=
  .rule x.2.selector.specificity x.1

/-- The records of sheets with their positions, in the order in which they are
applied. -/
def placedByStrength (options : Options) (d : Document) (sheets : List Sheet) : List Placed :=
  (placedOf options d sheets).reverse.mergeSort fun x y =>
    !x.2.selector.specificity.lt y.2.selector.specificity

theorem map_placedByStrength (sheets : List Sheet) :
    (placedByStrength options d sheets).map (·.2) = byStrength (recordsOf options d sheets) := by
  unfold placedByStrength byStrength
  rw [← map_placedOf, ← List.map_reverse]
  exact List.map_mergeSort fun _ _ _ _ => rfl

theorem pairwise_placedByStrength (sheets : List Sheet) :
    (placedByStrength options d sheets).Pairwise fun x y => x.origin.Outranks y.origin :=
  pairwise_byStrength (fun x : Placed => x.2.selector.specificity) (·.1) (pairwise_placedOf sheets)

/-! ## The candidates that are offered -/

/-- The candidate that a record offers for a property at a node. -/
def Placed.candidate? (options : Options) (id : NodeId) (p : String) (x : Placed) :
    Option Candidate :=
  if options.isEligible x.2 then (x.2.offered id p).map fun declaration => ⟨declaration, x.origin⟩
  else none

/-- The candidates for a property at a node, of weaker and weaker origin. -/
def candidates (options : Options) (d : Document) (id : NodeId) (p : String) : List Candidate :=
  ((d.declarationAt id p).map fun declaration => ⟨declaration, .inline⟩).toList
    ++ (placedByStrength options d (sheetsOf d)).filterMap (Placed.candidate? options id p)

theorem origin_of_candidate? {id : NodeId} {p : String} {x : Placed} {c : Candidate}
    (h : x.candidate? options id p = some c) : c.origin = x.origin := by
  rw [Placed.candidate?] at h
  split at h
  · obtain ⟨y, -, rfl⟩ := Option.map_eq_some_iff.1 h
    rfl
  · cases h

theorem pairwise_candidates (options : Options) (d : Document) (id : NodeId) (p : String) :
    (candidates options d id p).Pairwise fun a b => a.origin.Outranks b.origin := by
  rw [candidates]
  rw [List.pairwise_append]
  refine ⟨?_, ?_, fun a ha b hb => ?_⟩
  · cases d.declarationAt id p <;> simp
  · rw [List.pairwise_filterMap]
    refine (pairwise_placedByStrength _).imp fun hxy a ha b hb => ?_
    rwa [origin_of_candidate? ha, origin_of_candidate? hb]
  · obtain ⟨y, -, rfl⟩ := Option.map_eq_some_iff.1 (Option.mem_toList.1 ha)
    obtain ⟨x, -, hx⟩ := List.mem_filterMap.1 hb
    rw [origin_of_candidate? hx]
    trivial

theorem isEligible_iff {r : Record} {id : NodeId} (hid : id ∈ r.matched) :
    options.isEligible r = true ↔ (options.onlyOnce = true → r.matched.length = 1) := by
  rw [Options.isEligible]
  split
  · next h => simp [h] at hid
  · next h => simp [h]
  · next h₀ h₁ =>
    match hm : r.matched with
    | [] => exact absurd hm h₀
    | [a] => exact absurd hm (h₁ a)
    | a :: b :: rest => simp

theorem mem_candidates_iff {id : NodeId} {p : String} {c : Candidate} :
    c ∈ candidates options d id p ↔ Competes options d id p c := by
  unfold candidates placedByStrength
  simp only [List.mem_append, Option.mem_toList, Option.map_eq_some_iff, List.mem_filterMap,
    List.mem_mergeSort, List.mem_reverse]
  constructor
  · intro hcase
    rcases hcase with ⟨x, hx, rfl⟩ | ⟨⟨position, r⟩, hmem, hc⟩
    · exact .own hx
    · obtain ⟨x, hx, rfl, hr⟩ := mem_placedOf.1 hmem
      obtain ⟨hadmits, selector, hread, hpseudo, rfl⟩ := record?_eq_some_iff.1 hr
      rw [Placed.candidate?] at hc
      split at hc
      · next heligible =>
        obtain ⟨declaration, hdeclaration, rfl⟩ := Option.map_eq_some_iff.1 hc
        rw [Record.offered] at hdeclaration
        split at hdeclaration
        · next hid =>
          exact .rule (isSelectorAt_iff.2 ⟨x.owner, hx⟩) hadmits hread hpseudo hid
            ((isEligible_iff hid).1 heligible) hdeclaration
        · cases hdeclaration
      · cases hc
  · intro hc
    cases hc with
    | own hx => exact .inl ⟨_, hx, rfl⟩
    | rule hat hadmits hread hpseudo hid honce hx =>
      obtain ⟨owner, hmem⟩ := isSelectorAt_iff.1 hat
      refine .inr ⟨(_, _), mem_placedOf.2 ⟨_, hmem, rfl,
        record?_eq_some_iff.2 ⟨hadmits, _, hread, hpseudo, rfl⟩⟩, ?_⟩
      unfold Placed.candidate? Record.offered
      rw [if_pos ((isEligible_iff hid).2 honce), if_pos hid, hx]
      rfl

/-! ## The outcome -/

theorem isSound_of_mem_recordsOf {sheets : List Sheet} {r : Record}
    (h : r ∈ recordsOf options d sheets) : r.IsSound d := by
  rw [← filterMap_selectorsOf] at h
  obtain ⟨x, -, hr⟩ := List.mem_filterMap.1 h
  obtain ⟨-, selector, -, -, rfl⟩ := record?_eq_some_iff.1 hr
  refine ⟨Style.nodup_properties_ofDeclarations _, fun id hid => ?_⟩
  have hm := (List.mem_filter.1 hid).2
  simp only [Document.matchesList, List.any_cons, List.any_nil, Bool.or_false,
    Bool.and_eq_true] at hm
  have hcompound : ∀ c, d.matchesCompound id c = true → (d.element? id).isSome := by
    intro c hc
    rw [Document.matchesCompound] at hc
    split at hc
    · next e he => rw [he]; rfl
    · cases hc
  cases hsel : selector.withoutPseudos with
  | compound c =>
    rw [hsel, Document.satisfies] at hm
    exact hcompound c hm.2
  | combined left k c =>
    rw [hsel, Document.satisfies, Bool.and_eq_true] at hm
    exact hcompound c hm.2.1

theorem foldl_contend {α : Type} (f : α → Option Candidate) (l : List α)
    (best : Option Candidate) :
    (l.map fun a => (f a).map (·.declaration)).foldl contend (best.map (·.declaration)) =
      ((l.filterMap f).foldl Candidate.choose best).map (·.declaration) := by
  induction l generalizing best with
  | nil => rfl
  | cons a rest ih =>
    have hstep : contend (best.map (·.declaration)) ((f a).map (·.declaration)) =
        ((f a).toList.foldl Candidate.choose best).map (·.declaration) := by
      cases f a with
      | none => cases best <;> rfl
      | some c =>
        cases best with
        | none => rfl
        | some held => simp only [Option.map_some, contend, Option.toList_some, List.foldl_cons,
            List.foldl_nil, Candidate.choose]; split <;> rfl
    rw [List.map_cons, List.foldl_cons, hstep, ih]
    cases hf : f a <;> simp [hf]

theorem inlined_eq :
    inlined options d =
      ((placedByStrength options d (sheetsOf d)).filter fun x => options.isEligible x.2).map
        (·.2) := by
  rw [inlined, ← map_placedByStrength, List.filter_map]
  rfl

theorem perm_inlined (options : Options) (d : Document) :
    (inlined options d).Perm ((recordsOf options d (sheetsOf d)).filter options.isEligible) :=
  ((List.mergeSort_perm _ _).trans (List.reverse_perm _)).filter _

theorem declarationAt_styled (id : NodeId) (p : String) :
    (styled options d).declarationAt id p =
      ((candidates options d id p).foldl Candidate.choose none).map (·.declaration) := by
  have hsound : ∀ r ∈ inlined options d, r.IsSound d := fun r hr =>
    isSound_of_mem_recordsOf
      (List.mem_reverse.1 (List.mem_mergeSort.1 (List.mem_filter.1 hr).1))
  -- what a record offers, as a candidate of the record's origin
  let offer (x : Placed) : Option Candidate :=
    (x.2.offered id p).map fun declaration => ⟨declaration, x.origin⟩
  let own : Option Candidate := (d.declarationAt id p).map fun x => ⟨x, .inline⟩
  have hoffered : (inlined options d).map (·.offered id p) =
      ((placedByStrength options d (sheetsOf d)).filter fun x => options.isEligible x.2).map
        fun x => (offer x).map (·.declaration) := by
    rw [inlined_eq, List.map_map]
    congr 1
    funext x
    simp only [Function.comp_apply, offer]
    cases x.2.offered id p <;> rfl
  have hown : d.declarationAt id p = own.map (·.declaration) := by
    simp only [own]
    cases d.declarationAt id p <;> rfl
  have hfirst : own.toList.foldl Candidate.choose none = own := by cases own <;> rfl
  rw [styled, declarationAt_foldl_applyRecord hsound, hoffered, hown, foldl_contend,
    List.filterMap_filter, candidates, List.foldl_append, hfirst]
  rfl

/-- The pass leaves the outcome of the competition at each element. -/
theorem isOutcome_declarationAt_inline (options : Options) (d : Document) (id : NodeId)
    (p : String) :
    Candidate.IsOutcome (Competes options d id p) ((inline options d).declarationAt id p) := by
  rw [declarationAt_inline, declarationAt_styled]
  exact (Candidate.isOutcome_foldl (pairwise_candidates options d id p)).congr
    fun _ => mem_candidates_iff

/-- What an element declares for a property after the pass is the declaration of the
winning candidate, and it declares nothing where there is no candidate.  Elements
stay elements. -/
theorem declarationAt_inline_eq_some_iff (options : Options) (d : Document) (id : NodeId)
    (p : String) :
    ((inline options d).element? id).isSome = (d.element? id).isSome ∧
      (∀ x, (inline options d).declarationAt id p = some x ↔
        ∃ c, Candidate.IsWinner (Competes options d id p) c ∧ c.declaration = x) ∧
      ((inline options d).declarationAt id p = none ↔ ∀ c, ¬ Competes options d id p c) := by
  have houtcome := isOutcome_declarationAt_inline options d id p
  exact ⟨isSome_element?_inline options d id, houtcome.eq_some_iff, houtcome.eq_none_iff⟩

end Inlining
end SvgCompact
