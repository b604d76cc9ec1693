import SvgCompact.Proofs.Inlining.Cascade
import SvgCompact.Proofs.Stylesheet.Selectors

/-!
What stays in the sheets.

Positions shift when selectors leave a sheet, so the sheets before and after are
compared by their clauses: selectors with the declarations and contexts of their
rules.  The clauses that stay are those whose records were not inlined, in their old
order.
-/

namespace SvgCompact
namespace Inlining

/-- A selector with what its rule declares, wherever in its sheet it stands. -/
structure Clause where
  owner : NodeId
  contexts : List String
  declarations : List Declaration
  text : String
deriving DecidableEq

def PlacedSelector.clause (x : PlacedSelector) : Clause :=
  ⟨x.owner, x.contexts, x.rule.declarations, x.text⟩

def PlacedSelector.address (x : PlacedSelector) : Rule.Address :=
  (x.rule.number, x.position.place)

def clausesOfRule (owner : NodeId) (entry : List String × StyleRule) : List Clause :=
  entry.2.selectors.map fun text => ⟨owner, entry.1, entry.2.declarations, text⟩

/-- The clauses of sheets in source order. -/
def clausesOf (sheets : List Sheet) : List Clause :=
  sheets.flatMap fun s => s.sheet.styleRules.flatMap (clausesOfRule s.owner)

/-- The addresses of the selectors that leave the sheet of an element. -/
def removedFrom (records : List Record) (owner : NodeId) : List Rule.Address :=
  (records.filter (·.owner == owner)).map (·.address)

theorem styleRules_reduced (s : Sheet) (records : List Record) :
    (s.reduced records).sheet.styleRules =
      (s.sheet.styleRules.map fun x => (x.1, x.2.without (removedFrom records s.owner))).filter
        fun x => !x.2.selectors.isEmpty :=
  Stylesheet.styleRules_pruned_withoutSelectors _ _

/-! ## Clauses and positions -/

theorem map_clause_selectorsOf (sheets : List Sheet) :
    (selectorsOf sheets).map (·.clause) = clausesOf sheets := by
  have hrule : ∀ (owner : NodeId) (i j : Nat) (entry : List String × StyleRule),
      (selectorsOfRule owner i j entry).map (·.clause) = clausesOfRule owner entry := by
    intro owner i j entry
    unfold selectorsOfRule clausesOfRule
    rw [List.map_map]
    conv_rhs => rw [← List.zipIdx_map_fst 0 entry.2.selectors, List.map_map]
    rfl
  have hsheet : ∀ (i : Nat) (s : Sheet),
      (selectorsOfSheet i s).map (·.clause)
        = s.sheet.styleRules.flatMap (clausesOfRule s.owner) := by
    intro i s
    rw [selectorsOfSheet]
    simp only [List.map_flatMap, hrule]
    exact Sorting.flatMap_zipIdx (clausesOfRule s.owner) _ _
  unfold selectorsOf clausesOf
  simp only [List.map_flatMap, hsheet]
  exact Sorting.flatMap_zipIdx (fun s : Sheet =>
    s.sheet.styleRules.flatMap (clausesOfRule s.owner)) _ _

theorem clausesOfRule_without (records : List Record) (owner : NodeId) (i j : Nat)
    (entry : List String × StyleRule) :
    clausesOfRule owner (entry.1, entry.2.without (removedFrom records owner)) =
      ((selectorsOfRule owner i j entry).filter
        fun x => !(removedFrom records x.owner).contains x.address).map (·.clause) := by
  unfold clausesOfRule selectorsOfRule StyleRule.without
  rw [Rule.keepPlaces_eq, List.filter_map, List.map_map, List.map_map]
  rfl

theorem clausesOf_reduced (records : List Record) (sheets : List Sheet) :
    clausesOf (sheets.map (·.reduced records)) =
      ((selectorsOf sheets).filter
        fun x => !(removedFrom records x.owner).contains x.address).map (·.clause) := by
  have hsheet : ∀ (i : Nat) (s : Sheet),
      ((selectorsOfSheet i s).filter
        fun x => !(removedFrom records x.owner).contains x.address).map (·.clause) =
      (s.reduced records).sheet.styleRules.flatMap (clausesOfRule s.owner) := by
    intro i s
    rw [selectorsOfSheet]
    rw [List.filter_flatMap, List.map_flatMap, styleRules_reduced, flatMap_filter,
      List.flatMap_map]
    simp only [← clausesOfRule_without]
    rw [Sorting.flatMap_zipIdx (fun entry : List String × StyleRule =>
      clausesOfRule s.owner (entry.1, entry.2.without (removedFrom records s.owner)))]
    refine List.flatMap_congr fun entry _ => ?_
    -- a rule without selectors has no clauses
    cases h : (entry.2.without (removedFrom records s.owner)).selectors with
    | nil => simp [clausesOfRule, h]
    | cons text rest => simp
  unfold clausesOf selectorsOf
  rw [List.filter_flatMap, List.map_flatMap, List.flatMap_map]
  simp only [hsheet]
  exact (Sorting.flatMap_zipIdx (fun s : Sheet =>
    (s.reduced records).sheet.styleRules.flatMap (clausesOfRule s.owner)) _ _).symm

/-! ## What leaves -/

/-- Whether the record of a selector is inlined. -/
def PlacedSelector.isInlined (options : Options) (d : Document) (x : PlacedSelector) : Bool :=
  (x.record? options d).any options.isEligible

theorem read_of_sheetOf? {d : Document} {id : NodeId} {s : Sheet} (h : sheetOf? d id = some s) :
    s.owner = id ∧ Stylesheet.read (d.textContent id) = .ok s.sheet := by
  rw [sheetOf?] at h
  split at h
  · dsimp only at h
    split at h
    · cases h
    · obtain ⟨sheet, hsheet, rfl⟩ := Option.map_eq_some_iff.1 h
      refine ⟨rfl, ?_⟩
      cases hread : Stylesheet.read (d.textContent id) with
      | error e => rw [hread] at hsheet; cases hsheet
      | ok r => rw [hread] at hsheet; cases hsheet; rfl
  · cases h

theorem sheetOf?_of_mem {d : Document} {s : Sheet} (h : s ∈ sheetsOf d) :
    sheetOf? d s.owner = some s ∧ Stylesheet.read (d.textContent s.owner) = .ok s.sheet := by
  obtain ⟨id, -, hs⟩ := List.mem_filterMap.1 h
  obtain ⟨rfl, hread⟩ := read_of_sheetOf? hs
  exact ⟨hs, hread⟩

theorem sheetOf?_of_read {d : Document} {id : NodeId} {text : String} {sheet : Stylesheet}
    (hsheet : (d.element? id).any (isSheet d id) = true) (htext : d.textContent id = text)
    (hblank : text.toList.all Text.isBlank = false) (hread : Stylesheet.read text = .ok sheet) :
    sheetOf? d id = some ⟨id, sheet, d.holdsCdata id⟩ := by
  rw [sheetOf?, if_pos hsheet, htext]
  dsimp only
  rw [if_neg (by rw [hblank]; exact Bool.false_ne_true), hread]
  rfl

/-- Owner and address tell which selector of a document is meant. -/
theorem eq_of_address {d : Document} {x y : PlacedSelector} (hx : x ∈ selectorsOf (sheetsOf d))
    (hy : y ∈ selectorsOf (sheetsOf d)) (howner : x.owner = y.owner)
    (haddress : x.address = y.address) :
    x.contexts = y.contexts ∧ x.rule = y.rule ∧ x.text = y.text := by
  obtain ⟨s, hs, hsx, hxrule, hxtext⟩ := mem_selectorsOf.1 hx
  obtain ⟨t, ht, hty, hyrule, hytext⟩ := mem_selectorsOf.1 hy
  have hs := sheetOf?_of_mem (List.mem_of_getElem? hs)
  have ht := sheetOf?_of_mem (List.mem_of_getElem? ht)
  have hst : s = t := by
    have hsame := hs.1
    rw [hsx, howner, ← hty, ht.1] at hsame
    exact (Option.some.inj hsame).symm
  subst hst
  obtain ⟨hnumber, hplace⟩ := Prod.mk.inj haddress
  have hindex := Stylesheet.number_injective_of_read hs.2 hxrule hyrule hnumber
  rw [hindex, hyrule] at hxrule
  obtain ⟨hcontexts, hrule⟩ := Prod.mk.inj (Option.some.inj hxrule)
  rw [← hrule, hplace, hytext] at hxtext
  exact ⟨hcontexts.symm, hrule.symm, (Option.some.inj hxtext).symm⟩

theorem mem_removedFrom_iff {options : Options} {d : Document} {x : PlacedSelector}
    (hx : x ∈ selectorsOf (sheetsOf d)) :
    x.address ∈ removedFrom (inlined options d) x.owner ↔ x.isInlined options d = true := by
  have hinlined : ∀ r, r ∈ inlined options d ↔
      (∃ y ∈ selectorsOf (sheetsOf d), y.record? options d = some r) ∧
        options.isEligible r = true := by
    intro r
    unfold inlined byStrength
    rw [List.mem_filter, List.mem_mergeSort, List.mem_reverse, ← filterMap_selectorsOf,
      List.mem_filterMap]
  unfold removedFrom PlacedSelector.isInlined
  rw [List.mem_map, Option.any_eq_true]
  constructor
  · intro hex
    obtain ⟨r, hr, haddress⟩ := hex
    rw [List.mem_filter, hinlined, beq_iff_eq] at hr
    obtain ⟨⟨⟨y, hy, hry⟩, heligible⟩, howner⟩ := hr
    -- the record is that of a selector with the same owner and address, which is `x`
    obtain ⟨hadmits, selector, hread, hpseudo, rfl⟩ := record?_eq_some_iff.1 hry
    obtain ⟨hcontexts, hrule, htext⟩ := eq_of_address hx hy howner.symm haddress.symm
    refine ⟨_, record?_eq_some_iff.2 ?_, heligible⟩
    rw [hcontexts, htext]
    refine ⟨hadmits, selector, hread, hpseudo, ?_⟩
    have hplace : x.position.place = y.position.place := (Prod.mk.inj haddress.symm).2
    rw [hrule, hplace, show y.owner = x.owner from howner]
  · intro hex
    obtain ⟨r, hr, heligible⟩ := hex
    refine ⟨r, ?_, ?_⟩
    · rw [List.mem_filter, hinlined, beq_iff_eq]
      refine ⟨⟨⟨x, hx, hr⟩, heligible⟩, ?_⟩
      obtain ⟨-, -, -, -, rfl⟩ := record?_eq_some_iff.1 hr
      rfl
    · obtain ⟨-, -, -, -, rfl⟩ := record?_eq_some_iff.1 hr
      rfl

/-- The clauses that are left are those that are not inlined, in their old order. -/
theorem clausesOf_reduced_sheetsOf (options : Options) (d : Document) :
    clausesOf ((sheetsOf d).map (·.reduced (inlined options d))) =
      ((selectorsOf (sheetsOf d)).filter fun x => !x.isInlined options d).map (·.clause) := by
  rw [clausesOf_reduced]
  congr 1
  refine List.filter_congr fun x hx => ?_
  congr 1
  rw [Bool.eq_iff_iff, List.contains_iff_mem, mem_removedFrom_iff hx]

end Inlining
end SvgCompact
