import Mathlib.Data.List.Basic

/-!
Places in lists, and sorting that keeps them.

A list that is paired with places and sorted stays in its old order wherever the
order of sorting does not decide.
-/

namespace SvgCompact
namespace Sorting

open List

variable {α β : Type}

theorem pairwise_zipIdx (l : List α) (k : Nat) : (l.zipIdx k).Pairwise fun x y => x.2 < y.2 := by
  induction l generalizing k with
  | nil => exact Pairwise.nil
  | cons a rest ih =>
    rw [zipIdx_cons]
    refine Pairwise.cons (fun x hx => ?_) (ih (k + 1))
    exact le_snd_of_mem_zipIdx hx

theorem flatMap_zipIdx (f : α → List β) (l : List α) (k : Nat) :
    ((l.zipIdx k).flatMap fun x => f x.1) = l.flatMap f := by
  rw [← zipIdx_map_fst k l, flatMap_map, zipIdx_map_fst]

/-- Elements stand as the order of sorting asks, and as before where it has no
preference. -/
theorem pairwise_mergeSort_stable {le : α → α → Bool}
    (trans : ∀ a b c, le a b → le b c → le a c) (total : ∀ a b, le a b || le b a)
    {before : α → α → Prop} {l : List α} (hl : l.Pairwise before) :
    (l.mergeSort le).Pairwise fun a b => le a b = true ∧ (le b a = true → before a b) := by
  rw [← mergeSort_zipIdx, pairwise_map]
  have hsorted := pairwise_mergeSort (zipIdxLE_trans trans) (zipIdxLE_total total) l.zipIdx
  have hplaces : (l.zipIdx.mergeSort (zipIdxLE le)).Pairwise fun x y => x.2 ≠ y.2 :=
    ((mergeSort_perm _ _).pairwise_iff fun h => h.symm).2
      ((pairwise_zipIdx l 0).imp Nat.ne_of_lt)
  refine (hsorted.and hplaces).imp_of_mem fun {x y} hx hy hxy => ?_
  obtain ⟨hle, hne⟩ := hxy
  have hx' := mem_zipIdx_iff_getElem?.1 (mem_mergeSort.1 hx)
  have hy' := mem_zipIdx_iff_getElem?.1 (mem_mergeSort.1 hy)
  rw [zipIdxLE] at hle
  split at hle
  · next h =>
    refine ⟨h, fun hyx => ?_⟩
    rw [if_pos hyx, decide_eq_true_iff] at hle
    obtain ⟨hi, hxi⟩ := List.getElem?_eq_some_iff.1 hx'
    obtain ⟨hj, hyj⟩ := List.getElem?_eq_some_iff.1 hy'
    rw [← hxi, ← hyj]
    exact pairwise_iff_getElem.1 hl _ _ hi hj (Nat.lt_of_le_of_ne hle hne)
  · cases hle

end Sorting
end SvgCompact
