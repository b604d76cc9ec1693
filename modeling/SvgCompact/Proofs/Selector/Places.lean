import Mathlib
import SvgCompact.Selector.Matching
import SvgCompact.Proofs.Selector.Chains

/-!
Places among siblings.

What `an+b` selects is decided by a remainder and a quotient, which words of 64 bits hold
for coefficients and places of 32 (`selectsWord_eq_selects`).  The place of an element is
one more than the number of siblings before it, or after it, that count; a selector for
places matches by this number alone (`IsForest.satisfies_place_iff`).
-/

namespace SvgCompact

/-! ## Positions of the form `an+b` -/

namespace Nth

theorem selects_iff {nth : Nth} {position : Int} :
    nth.selects position = true ↔ ∃ n : Nat, position = nth.step * n + nth.offset := by
  rw [selects]
  by_cases hzero : nth.step = 0
  · rw [if_pos hzero, decide_eq_true_iff, hzero]
    constructor
    · intro h
      exact ⟨0, by omega⟩
    · rintro ⟨n, rfl⟩
      omega
  · rw [if_neg hzero, decide_eq_true_iff, ← Int.dvd_iff_emod_eq_zero]
    constructor
    · rintro ⟨⟨n, hn⟩, hpos⟩
      rw [hn, Int.mul_ediv_cancel_left n hzero] at hpos
      exact ⟨n.toNat, by rw [Int.toNat_of_nonneg hpos, ← hn]; omega⟩
    · rintro ⟨n, rfl⟩
      rw [Int.add_sub_cancel, Int.mul_ediv_cancel_left _ hzero]
      exact ⟨Int.dvd_mul_right .., Int.natCast_nonneg n⟩

/-- How far a place is from the offset. -/
def distance (offset place : Int32) : Int64 :=
  place.toInt64 - offset.toInt64

/-- `selects` in machine words, whose division truncates. -/
def selectsWord (step offset place : Int32) : Bool :=
  if step.toInt64 = 0 then distance offset place = 0
  else distance offset place % step.toInt64 = 0 ∧ 0 ≤ distance offset place / step.toInt64

/-- The distance of two words is less than half the range of the longer ones. -/
theorem toInt_distance (offset place : Int32) :
    (distance offset place).toInt = place.toInt - offset.toInt := by
  have hplace := place.le_toInt
  have hplace' := place.toInt_lt
  have hoffset := offset.le_toInt
  have hoffset' := offset.toInt_lt
  rw [distance, Int64.toInt_sub, Int32.toInt_toInt64, Int32.toInt_toInt64]
  exact Int.bmod_eq_of_le (by omega) (by omega)

theorem distance_ne_minValue (offset place : Int32) : distance offset place ≠ Int64.minValue := by
  intro h
  have hdistance := congrArg Int64.toInt h
  rw [toInt_distance, Int64.toInt_minValue] at hdistance
  have hplace := place.le_toInt
  have hoffset := offset.toInt_lt
  omega

theorem toInt64_eq_zero_iff (step : Int32) : step.toInt64 = 0 ↔ step.toInt = 0 := by
  rw [← Int64.toInt_inj, Int32.toInt_toInt64, Int64.toInt_zero]

/-- Truncation makes no difference: the remainder is zero for both divisions or for none, and
where it is zero the quotients agree. -/
theorem selectsWord_eq_selects (step offset place : Int32) :
    selectsWord step offset place = selects ⟨step.toInt, offset.toInt⟩ place.toInt := by
  have hrest : distance offset place % step.toInt64 = 0 ↔
      step.toInt ∣ place.toInt - offset.toInt := by
    rw [← Int64.toInt_inj, Int64.toInt_mod, toInt_distance, Int32.toInt_toInt64, Int64.toInt_zero,
      Int.dvd_iff_tmod_eq_zero]
  have hquotient : (distance offset place / step.toInt64).toInt =
      (place.toInt - offset.toInt).tdiv step.toInt := by
    rw [Int64.toInt_div_of_ne_left _ _ (distance_ne_minValue offset place), toInt_distance,
      Int32.toInt_toInt64]
  rw [selectsWord, selects]
  by_cases hzero : step.toInt = 0
  · rw [if_pos ((toInt64_eq_zero_iff step).2 hzero), if_pos hzero, decide_eq_decide,
      ← Int64.toInt_inj, toInt_distance, Int64.toInt_zero]
  · rw [if_neg (mt (toInt64_eq_zero_iff step).1 hzero), if_neg hzero, decide_eq_decide, hrest,
      ← Int.dvd_iff_emod_eq_zero, Int64.le_iff_toInt_le, hquotient, Int64.toInt_zero]
    refine and_congr_right fun hdvd => ?_
    rw [Int.tdiv_eq_ediv_of_dvd hdvd]

end Nth

/-! ## Places -/

/-- The place at which one starts to count. -/
def Counting.extreme : Counting → Place
  | ⟨false, false⟩ => .firstChild
  | ⟨false, true⟩ => .lastChild
  | ⟨true, false⟩ => .firstOfType
  | ⟨true, true⟩ => .lastOfType

/-- Being the only one to count. -/
def Place.only (sameType : Bool) : Place :=
  if sameType then .onlyOfType else .onlyChild

namespace Document

variable (d : Document)

/-- Whether a node counts for the place of an element. -/
def counts (counting : Counting) (e : Element) (other : NodeId) : Bool :=
  match d.element? other with
  | some o => !counting.sameType || o.name == e.name
  | none => false

/-- The number of siblings that come first, for an element between two lists of siblings. -/
def countBefore (counting : Counting) (e : Element) (before after : List NodeId) : Nat :=
  (if counting.fromEnd then after else before).countP (d.counts counting e)

/-- The elements among which the place of an element is looked up, in the order in which they
are counted. -/
def counted (id : NodeId) (counting : Counting) : List NodeId :=
  let l := if counting.sameType then d.sameNamed id else d.family id
  if counting.fromEnd then l.reverse else l

theorem matchesNth_eq (id : NodeId) (counting : Counting) (nth : Nth) :
    d.matchesNth id counting nth = nth.selects (placeIn id (d.counted id counting)) := rfl

theorem matchesPlace_extreme (id : NodeId) (counting : Counting) :
    d.matchesPlace id counting.extreme = ((d.counted id counting).head? == some id) := by
  cases counting with
  | mk sameType fromEnd =>
    cases sameType <;> cases fromEnd <;>
      simp [Counting.extreme, matchesPlace, counted, List.head?_reverse]

theorem matchesPlace_only (id : NodeId) (sameType fromEnd : Bool) :
    d.matchesPlace id (.only sameType) = ((d.counted id ⟨sameType, fromEnd⟩).length == 1) := by
  cases sameType <;> cases fromEnd <;> simp [Place.only, matchesPlace, counted]

theorem satisfies_simple {id : NodeId} {e : Element} (he : d.element? id = some e)
    (s : SimpleSelector) : d.satisfies id (.compound [s]) = d.matchesSimple id e s := by
  rw [satisfies, matchesCompound, he]
  simp only [matchesAll, Bool.and_true]

/-! ### One element in a list -/

section Lists

variable {id : NodeId} {xs : List NodeId} (hxs : id ∉ xs) (ys : List NodeId)
include hxs

theorem placeIn_append : placeIn id (xs ++ id :: ys) = xs.length + 1 := by
  have hidx : (xs ++ id :: ys).idxOf? id = some xs.length := by
    rw [List.idxOf?_eq_some_iff]
    refine ⟨by simp, by simp, fun j hj heq => hxs ?_⟩
    rw [List.getElem_append_left hj] at heq
    exact heq ▸ List.getElem_mem hj
  rw [placeIn, hidx]

theorem head?_append_eq_iff : (xs ++ id :: ys).head? = some id ↔ xs = [] := by
  cases xs with
  | nil => simp
  | cons x rest =>
    have hne : x ≠ id := fun h => hxs (h ▸ List.mem_cons_self ..)
    simp [hne]

end Lists

/-! ### An element among its siblings -/

namespace IsForest

variable {d : Document} {p id : NodeId} {e : Element}

/-- An element and those that count before and behind it. -/
theorem counted_eq (hp : d.parent id = some p) (he : d.element? id = some e)
    {before after : List NodeId} (hs : d.children p = before ++ id :: after)
    (counting : Counting) :
    d.counted id counting =
      (if counting.fromEnd then after.reverse else before).filter (d.counts counting e) ++
        id :: (if counting.fromEnd then before.reverse else after).filter
          (d.counts counting e) := by
  have hself : d.counts counting e id = true := by simp [counts, he]
  have hlist : (if counting.sameType then d.sameNamed id else d.family id) =
      (d.children p).filter (d.counts counting e) := by
    cases counting with
    | mk sameType fromEnd =>
      cases sameType with
      | false =>
        rw [if_neg Bool.false_ne_true, family, hp]
        refine List.filter_congr fun other _ => ?_
        rw [counts, isElement, Content.isElement, ← element?]
        cases d.element? other <;> rfl
      | true =>
        rw [if_pos rfl, sameNamed, he, family, hp]
        dsimp only
        rw [childElements, List.filter_filter]
        refine List.filter_congr fun other _ => ?_
        rw [counts, isElement, Content.isElement, ← element?]
        cases d.element? other <;> simp
  rw [counted, hlist, hs, List.filter_append, List.filter_cons_of_pos hself]
  cases counting.fromEnd <;> simp [List.filter_reverse]

variable (h : d.IsForest) (hp : d.parent id = some p) (he : d.element? id = some e)
include h hp he

/-- The lists around an element that is counted, as the proofs below use them. -/
theorem exists_counted {before after : List NodeId} (hs : d.children p = before ++ id :: after)
    (counting : Counting) :
    ∃ xs ys, d.counted id counting = xs ++ id :: ys ∧ id ∉ xs ∧
      xs.length = d.countBefore counting e before after ∧
      ys.length = d.countBefore ⟨counting.sameType, !counting.fromEnd⟩ e before after := by
  have hnodup := h.nodup_children p
  rw [hs, List.nodup_middle, List.nodup_cons, List.mem_append, not_or] at hnodup
  obtain ⟨⟨hbefore, hafter⟩, -⟩ := hnodup
  refine ⟨_, _, counted_eq hp he hs counting, fun hmem => ?_, ?_, ?_⟩
  · have hin := (List.mem_filter.1 hmem).1
    cases hend : counting.fromEnd with
    | false => rw [hend] at hin; exact hbefore hin
    | true => rw [hend] at hin; exact hafter (List.mem_reverse.1 hin)
  · rw [countBefore, ← List.countP_eq_length_filter]
    cases counting.fromEnd <;> simp
  · rw [countBefore, ← List.countP_eq_length_filter]
    have hsame : d.counts ⟨counting.sameType, !counting.fromEnd⟩ e = d.counts counting e := rfl
    rw [hsame]
    cases counting.fromEnd <;> simp

section Places

variable {before after : List NodeId} (hs : d.children p = before ++ id :: after)
include hs

theorem satisfies_nth (counting : Counting) (nth : Nth) :
    d.satisfies id (.compound [.nth counting nth]) =
      nth.selects (d.countBefore counting e before after + 1 : Nat) := by
  obtain ⟨xs, ys, hcounted, hxs, hlen, -⟩ := h.exists_counted hp he hs counting
  rw [d.satisfies_simple he, matchesSimple, matchesNth_eq, hcounted, placeIn_append hxs, hlen]

/-- An extreme place is that of an element before which none counts. -/
theorem satisfies_extreme (counting : Counting) :
    d.satisfies id (.compound [.place counting.extreme]) = true ↔
      d.countBefore counting e before after = 0 := by
  obtain ⟨xs, ys, hcounted, hxs, hlen, -⟩ := h.exists_counted hp he hs counting
  rw [d.satisfies_simple he, matchesSimple, matchesPlace_extreme, hcounted, beq_iff_eq,
    head?_append_eq_iff hxs, ← hlen, List.length_eq_zero_iff]

theorem satisfies_only (sameType : Bool) :
    d.satisfies id (.compound [.place (.only sameType)]) = true ↔
      d.countBefore ⟨sameType, false⟩ e before after = 0 ∧
        d.countBefore ⟨sameType, true⟩ e before after = 0 := by
  obtain ⟨xs, ys, hcounted, -, hxs, hys⟩ := h.exists_counted hp he hs ⟨sameType, false⟩
  have hys : ys.length = d.countBefore ⟨sameType, true⟩ e before after := hys
  rw [d.satisfies_simple he, matchesSimple, d.matchesPlace_only id sameType false, hcounted,
    beq_iff_eq, List.length_append, List.length_cons, hxs, hys]
  omega

omit h hp in
/-- The element itself does not count. -/
theorem countBefore_lt (counting : Counting) :
    d.countBefore counting e before after < (d.childElements p).length := by
  have hfamily : ∀ other, d.counts counting e other = true → d.isElement other = true := by
    intro other hother
    rw [counts] at hother
    rw [isElement, Content.isElement, ← element?]
    split at hother
    · next heq => rw [heq]; rfl
    · cases hother
  have hself : d.isElement id = true := by
    rw [isElement, Content.isElement, ← element?, he]
    rfl
  rw [countBefore, childElements, hs, ← List.countP_eq_length_filter, List.countP_append,
    List.countP_cons_of_pos hself]
  cases counting.fromEnd with
  | false =>
    have hle := List.countP_mono_left fun other (_ : other ∈ before) => hfamily other
    rw [if_neg Bool.false_ne_true]
    omega
  | true =>
    have hle := List.countP_mono_left fun other (_ : other ∈ after) => hfamily other
    rw [if_pos rfl]
    omega

end Places

/-- Selectors for places count.  An element stands between two lists of siblings.  For each way
to count, its place is one more than the number of siblings on one side that count, and a word
holds it.  `an+b` selects the place if some `n` gives it, which words decide without overflow;
the extreme place is the one that `0n+1` selects; and an only element is first and last. -/
theorem satisfies_place_iff (hfew : (d.childElements p).length < 2 ^ 31) :
    ∃ before after, d.children p = before ++ id :: after ∧
      (∀ (counting : Counting) (a b : Int32) (place : Nat),
        place = d.countBefore counting e before after + 1 →
        (Int32.ofNat place).toInt = place ∧
        (d.satisfies id (.compound [.nth counting ⟨a.toInt, b.toInt⟩]) = true ↔
          ∃ n : Nat, (place : Int) = a.toInt * n + b.toInt) ∧
        d.satisfies id (.compound [.nth counting ⟨a.toInt, b.toInt⟩]) =
          Nth.selectsWord a b (Int32.ofNat place) ∧
        (Nth.distance b (Int32.ofNat place)).toInt = place - b.toInt) ∧
      (∀ counting : Counting, d.satisfies id (.compound [.place counting.extreme]) =
        d.satisfies id (.compound [.nth counting ⟨0, 1⟩])) ∧
      ∀ sameType : Bool, d.satisfies id (.compound [.place (.only sameType)]) =
        (d.satisfies id (.compound [.place (Counting.extreme ⟨sameType, false⟩)]) &&
          d.satisfies id (.compound [.place (Counting.extreme ⟨sameType, true⟩)])) := by
  obtain ⟨before, after, hs, -⟩ := h.indexInParent?_eq_some hp
  refine ⟨before, after, hs, ?_, ?_, ?_⟩
  · intro counting a b place hplace
    have hword : (Int32.ofNat place).toInt = place := by
      have hlt := countBefore_lt he hs counting
      exact Int32.toInt_ofNat_of_lt (by omega)
    have hselects := h.satisfies_nth hp he hs counting ⟨a.toInt, b.toInt⟩
    rw [← hplace] at hselects
    refine ⟨hword, ?_, ?_, ?_⟩
    · rw [hselects, Nth.selects_iff]
    · rw [hselects, Nth.selectsWord_eq_selects, hword]
    · rw [Nth.toInt_distance, hword]
  · intro counting
    rw [Bool.eq_iff_iff, h.satisfies_extreme hp he hs, h.satisfies_nth hp he hs, Nth.selects_iff]
    constructor
    · intro hzero
      exact ⟨0, by rw [hzero]; rfl⟩
    · rintro ⟨n, hn⟩
      dsimp only at hn
      omega
  · intro sameType
    rw [Bool.eq_iff_iff, Bool.and_eq_true, h.satisfies_only hp he hs,
      h.satisfies_extreme hp he hs, h.satisfies_extreme hp he hs]

end IsForest

/-! ### The second of two -/

/-- The element behind the comment is the second from the front, and `-n+3` selects it. -/
theorem satisfies_place_parted :
    parted.IsForest ∧ parted.parent 5 = some 2 ∧ (parted.childElements 2).length < 2 ^ 31 ∧
      parted.satisfies 5 (.compound [.nth ⟨false, false⟩ ⟨-1, 3⟩]) = true ∧
      parted.satisfies 5 (.compound [.place .lastChild]) = true ∧
      parted.satisfies 5 (.compound [.place .onlyChild]) = false := by
  have hforest : parted.IsForest :=
    ((((IsForest.empty.append _ (by decide)).append _ (by decide)).append _ (by decide)).append _
      (by decide)).append _ (by decide)
  have hparent : parted.parent 5 = some 2 := rfl
  have helement : parted.element? 5 = some (.ofAttributes (.plain "b") []) := rfl
  have hfew : (parted.childElements 2).length < 2 ^ 31 := by decide
  obtain ⟨before, after, hs, hnth, hextreme, honly⟩ :=
    hforest.satisfies_place_iff hparent helement hfew
  have hsplit : parted.children 2 = [3, 4] ++ 5 :: [] := rfl
  obtain ⟨-, rfl, rfl⟩ := hforest.place_unique hsplit hs
  have hsecond := (hnth ⟨false, false⟩ (-1) 3 2 (by decide)).2.1
  have hlast := hextreme ⟨false, true⟩
  have hone := (hnth ⟨false, true⟩ 0 1 1 (by decide)).2.1
  have hfirst := hextreme ⟨false, false⟩
  have htwo := (hnth ⟨false, false⟩ 0 1 2 (by decide)).2.1
  have honly' := honly false
  refine ⟨hforest, hparent, hfew, hsecond.2 ⟨1, by decide⟩,
    hlast.trans (hone.2 ⟨0, by decide⟩), honly'.trans ?_⟩
  rw [hfirst, Bool.and_eq_false_iff]
  refine .inl (Bool.eq_false_iff.2 fun hmatch => ?_)
  obtain ⟨n, hn⟩ := htwo.1 hmatch
  simp at hn
end Document
end SvgCompact
