import Mathlib.Data.List.Dedup
import Mathlib.Data.Prod.Lex
import Mathlib.Data.String.Basic
import SvgCompact.Pass.Order
import SvgCompact.Proofs.Order.Sorting
import SvgCompact.Proofs.Pass.FixedPoint

/-!
Definitions next to definitions of their name.

Sorting puts the children of a node in blocks, one for each name.  What the order of the
blocks and the order within each block ask for is met by one list only, so the result does
not depend on how the names are counted, and sorting again finds nothing to do.
-/

namespace SvgCompact

namespace DefsOrder

open Document (root)

/-! ## The order of names -/

/-- By how many there are of a name, then by its bytes, then by the name itself. -/
def rank (names : List String) (s : String) : ℕ ×ₗ ℕ ×ₗ String :=
  toLex (names.count s, toLex (Text.byteSize s.toList, s))

theorem rank_injective (names : List String) : Function.Injective (rank names) := by
  intro a b h
  exact congrArg (fun r : ℕ ×ₗ ℕ ×ₗ String => (ofLex (ofLex r).2).2) h

theorem rank_eq_of_perm {names names' : List String} (h : names.Perm names') :
    rank names = rank names' := by
  funext s
  rw [rank, rank, h.count_eq]

theorem precedes_iff {names : List String} {a b : String} :
    precedes names a b = true ↔ rank names b ≤ rank names a := by
  have hlast : Text.precedes b a = true ↔ b ≤ a := by
    rw [Text.precedes, bne_iff_ne, ne_eq, compare_gt_iff_gt, not_lt]
  rw [rank, rank, Prod.Lex.toLex_le_toLex, Prod.Lex.toLex_le_toLex, precedes]
  split
  · next hcount => rw [decide_eq_true_iff, or_iff_left fun h => hcount h.1.symm]
  · next hcount =>
    rw [not_not] at hcount
    split
    · next hsize =>
      rw [decide_eq_true_iff, hcount, or_iff_right (lt_irrefl _), and_iff_right rfl,
        or_iff_left fun h => hsize h.1.symm]
    · next hsize =>
      rw [not_not] at hsize
      rw [hlast, hcount, hsize, or_iff_right (lt_irrefl _), and_iff_right rfl,
        or_iff_right (lt_irrefl _), and_iff_right rfl]

theorem precedes_trans (names : List String) (a b c : String) (hab : precedes names a b = true)
    (hbc : precedes names b c = true) : precedes names a c = true :=
  precedes_iff.2 ((precedes_iff.1 hbc).trans (precedes_iff.1 hab))

theorem precedes_total (names : List String) (a b : String) :
    (precedes names a b || precedes names b a) = true := by
  rw [Bool.or_eq_true, precedes_iff, precedes_iff]
  exact le_total _ _

variable {name : NodeId → String} {old new : List NodeId}

/-- The blocks of one name each that a list of nodes falls into, and what their order is. -/
structure IsGrouped (name : NodeId → String) (old new : List NodeId) : Prop where
  perm : new.Perm old
  blocks : ∃ names : List String,
    names.Pairwise (fun a b => rank (old.map name) b < rank (old.map name) a) ∧
    new = names.flatMap fun s => old.filter fun id => name id == s

/-- Whether a node stands before another: its name comes first, or the names are the same
and it stood before the other. -/
def IsEarlier (name : NodeId → String) (old : List NodeId) (x y : NodeId) : Prop :=
  rank (old.map name) (name y) < rank (old.map name) (name x) ∨
    name x = name y ∧ old.idxOf x < old.idxOf y

theorem IsEarlier.asymm {x y : NodeId} (h : IsEarlier name old x y) : ¬ IsEarlier name old y x := by
  rintro (hyx | ⟨heq, hyx⟩)
  · rcases h with hxy | ⟨heq, -⟩
    · exact lt_asymm hxy hyx
    · rw [heq] at hyx
      exact lt_irrefl _ hyx
  · rcases h with hxy | ⟨-, hxy⟩
    · rw [heq] at hxy
      exact lt_irrefl _ hxy
    · exact lt_asymm hxy hyx

theorem pairwise_idxOf (hold : old.Nodup) :
    old.Pairwise fun x y => old.idxOf x < old.idxOf y := by
  rw [List.pairwise_iff_getElem]
  intro i j hi hj hij
  rwa [hold.idxOf_getElem, hold.idxOf_getElem]

theorem pairwise_blocks (hold : old.Nodup) {names : List String}
    (hnames : names.Pairwise fun a b => rank (old.map name) b < rank (old.map name) a) :
    (names.flatMap fun s => old.filter fun id => name id == s).Pairwise
      (IsEarlier name old) := by
  rw [List.pairwise_flatMap]
  constructor
  · intro s _
    have hplaces := (pairwise_idxOf hold).filter fun id => name id == s
    refine hplaces.imp_of_mem fun {x y} hx hy hxy => .inr ⟨?_, hxy⟩
    rw [eq_of_beq (List.mem_filter.1 hx).2, eq_of_beq (List.mem_filter.1 hy).2]
  · refine hnames.imp fun {a b} hab x hx y hy => .inl ?_
    rwa [eq_of_beq (List.mem_filter.1 hx).2, eq_of_beq (List.mem_filter.1 hy).2]

theorem IsGrouped.pairwise (h : IsGrouped name old new) (hold : old.Nodup) :
    new.Pairwise (IsEarlier name old) := by
  obtain ⟨names, hnames, rfl⟩ := h.blocks
  exact pairwise_blocks hold hnames

/-- Two orders that are both as asked for are one. -/
theorem eq_of_pairwise {l l' : List NodeId} (hperm : l.Perm l')
    (hl : l.Pairwise (IsEarlier name old)) (hl' : l'.Pairwise (IsEarlier name old)) : l = l' :=
  hperm.eq_of_pairwise (fun _ _ _ _ hxy hyx => absurd hyx hxy.asymm) hl hl'

/-- The names in order, each once. -/
theorem exists_names (names : List String) :
    ∃ blocks : List String, blocks.Pairwise (fun a b => rank names b < rank names a) ∧
      ∀ s, s ∈ blocks ↔ s ∈ names := by
  refine ⟨names.dedup.mergeSort (precedes names), ?_, fun s => ?_⟩
  · have hnodup : (names.dedup.mergeSort (precedes names)).Pairwise (· ≠ ·) :=
      (List.mergeSort_perm _ _).nodup_iff.2 (List.nodup_dedup names)
    have hsorted := List.pairwise_mergeSort (precedes_trans names) (precedes_total names) names.dedup
    refine (hsorted.and hnodup).imp fun {a b} hab => ?_
    exact lt_of_le_of_ne (precedes_iff.1 hab.1) fun heq => hab.2 (rank_injective names heq).symm
  · rw [List.mem_mergeSort, List.mem_dedup]

theorem exists_isGrouped (hold : old.Nodup) : ∃ new, IsGrouped name old new := by
  obtain ⟨blocks, hblocks, hmem⟩ := exists_names (old.map name)
  refine ⟨_, ?_, blocks, hblocks, rfl⟩
  have hnodup := (pairwise_blocks hold hblocks).imp (S := (· ≠ ·)) fun {x y} hxy heq => by
    rw [heq] at hxy
    exact hxy.asymm hxy
  refine (List.perm_ext_iff_of_nodup hnodup hold).2 fun x => ?_
  simp only [List.mem_flatMap, List.mem_filter, beq_iff_eq, hmem]
  constructor
  · exact fun ⟨_, _, hx, _⟩ => hx
  · exact fun hx => ⟨name x, List.mem_map_of_mem hx, hx, rfl⟩

/-! ## Sorting -/

/-- Nodes by their names. -/
def arranged (name : NodeId → String) (old : List NodeId) : List NodeId :=
  old.mergeSort fun x y => precedes (old.map name) (name x) (name y)

theorem pairwise_arranged (hold : old.Nodup) :
    (arranged name old).Pairwise (IsEarlier name old) := by
  have hsorted := Sorting.pairwise_mergeSort_stable
    (fun x y z => precedes_trans (old.map name) (name x) (name y) (name z))
    (fun x y => precedes_total (old.map name) (name x) (name y)) (pairwise_idxOf hold)
  refine hsorted.imp fun {x y} hxy => ?_
  obtain ⟨hle, hbefore⟩ := hxy
  rw [precedes_iff] at hle hbefore
  rcases hle.lt_or_eq with hlt | heq
  · exact .inl hlt
  · exact .inr ⟨(rank_injective _ heq).symm, hbefore heq.ge⟩

/-- One list is grouped, and it is found by sorting. -/
theorem isGrouped_iff (hold : old.Nodup) : IsGrouped name old new ↔ new = arranged name old := by
  have heq : ∀ l, IsGrouped name old l → l = arranged name old := fun l h =>
    eq_of_pairwise (h.perm.trans (List.mergeSort_perm _ _).symm) (h.pairwise hold)
      (pairwise_arranged hold)
  refine ⟨heq new, fun h => ?_⟩
  obtain ⟨l, hl⟩ : ∃ l, IsGrouped name old l := exists_isGrouped hold
  rwa [h, ← heq l hl]

/-- Sorted nodes stay where they are. -/
theorem arranged_arranged : arranged name (arranged name old) = arranged name old := by
  have hperm : (arranged name old).Perm old := List.mergeSort_perm _ _
  have hprecedes : precedes ((arranged name old).map name) = precedes (old.map name) := by
    funext a b
    rw [Bool.eq_iff_iff, precedes_iff, precedes_iff, rank_eq_of_perm (hperm.map name)]
  rw [arranged, hprecedes]
  exact List.mergeSort_of_pairwise (List.pairwise_mergeSort
    (fun x y z => precedes_trans _ (name x) (name y) (name z))
    (fun x y => precedes_total _ (name x) (name y)) old)

/-! ## Sorting in a document -/

variable {d d' : Document} {id j : NodeId}

theorem key_congr (h : ∀ j, d'.content j = d.content j) : key d' = key d := by
  funext j
  rw [key, key, Document.element?, h j, ← Document.element?]

/-- What sorting below some definitions leaves as it was. -/
structure IsSorting (d d' : Document) : Prop where
  isForest : d'.IsForest
  size : d'.size = d.size
  content : ∀ j, d'.content j = d.content j
  parent : ∀ j, d'.parent j = d.parent j
  children : ∀ j, d'.children j = d.children j ∨
    d.isNamed j "defs" = true ∧ d'.children j = arranged (key d) (d.children j)

/-- Sorts below one node. -/
def visit : Visit := fun d id =>
  if d.isNamed id "defs" then (d.setChildren id (sorted d id), .keep) else (d, .keep)

theorem visit_keep (d : Document) (id : NodeId) : (visit d id).2 = .keep := by
  unfold visit
  split <;> rfl

namespace IsSorting

theorem refl (hd : d.IsForest) : IsSorting d d :=
  ⟨hd, rfl, fun _ => rfl, fun _ => rfl, fun _ => .inl rfl⟩

theorem isNamed_eq (h : IsSorting d d') (j : NodeId) (s : String) :
    d'.isNamed j s = d.isNamed j s := by
  rw [Document.isNamed, Document.isNamed, Document.element?, h.content j, ← Document.element?]

/-- Children that were sorted before are those that are found now. -/
theorem sorted_eq (h : IsSorting d d') (id : NodeId) :
    sorted d' id = arranged (key d) (d.children id) := by
  have hkey := key_congr h.content
  show arranged (key d') (d'.children id) = _
  rw [hkey]
  rcases h.children id with heq | ⟨-, heq⟩
  · rw [heq]
  · rw [heq, arranged_arranged]

/-- Below what a visited node stands for, children are sorted. -/
theorem visit (h : IsSorting d d') (id : NodeId) :
    IsSorting d (visit d' id).1 ∧ ∀ j, (DefsOrder.visit d' id).1.children j =
      if j = id ∧ d.isNamed id "defs" = true then arranged (key d) (d.children id)
      else d'.children j := by
  have hsorted := h.sorted_eq id
  unfold DefsOrder.visit
  rw [h.isNamed_eq id]
  split
  · next hnamed =>
    have hlt : id < d'.size := Document.lt_size_of_isElement
      (Document.isElement_of_isNamed ((h.isNamed_eq id "defs").trans hnamed))
    have hchildren : ∀ j, (d'.setChildren id (sorted d' id)).children j =
        if j = id ∧ d.isNamed id "defs" = true then arranged (key d) (d.children id)
        else d'.children j := fun j => by
      rw [Document.children_setChildren, hsorted]
      simp only [hlt, hnamed]
    refine ⟨⟨h.isForest.setChildren_of_perm (List.mergeSort_perm _ _),
      (Document.size_setChildren ..).trans h.size, fun j => ?_, fun j => ?_, fun j => ?_⟩, hchildren⟩
    · rw [Document.content_setChildren, h.content]
    · rw [Document.parent_setChildren, h.parent]
    · rw [hchildren]
      split
      · next hj => exact .inr ⟨hj.1 ▸ hnamed, hj.1 ▸ rfl⟩
      · exact h.children j
  · next hnamed => exact ⟨h, fun j => by rw [if_neg fun hj => hnamed hj.2]⟩

theorem keeps (d : Document) : DefsOrder.visit.Keeps (IsSorting d) :=
  .of_keep (fun _ id _ h _ => (h.visit id).1) visit_keep

/-- The definitions that the walk comes to are sorted when it is over. -/
theorem keeps_sorted (d : Document) (j : NodeId) : DefsOrder.visit.Keeps fun d' =>
    IsSorting d d' ∧ d'.children j = arranged (key d) (d.children j) := by
  refine .of_keep (fun d' id _ ⟨h, hj⟩ _ => ⟨(h.visit id).1, ?_⟩) visit_keep
  rw [(h.visit id).2]
  split
  · next heq => rw [heq.1]
  · exact hj

end IsSorting

theorem isSorting_run (hd : d.IsForest) : IsSorting d (Pass.sortDefs.run d) :=
  (IsSorting.keeps d).topDown (.refl hd)

theorem children_run (hd : d.IsForest) (hj : d.IsAbove root j) (hnamed : d.isNamed j "defs" = true) :
    (Pass.sortDefs.run d).children j = arranged (key d) (d.children j) := by
  refine (Visit.reaches_topDown hd visit_keep (IsSorting.keeps d) (IsSorting.keeps_sorted d j)
    (fun d' h => ⟨h.isForest, fun i _ => h.parent i⟩) (fun d' p h _ => ⟨(h.visit j).1, ?_⟩) hj
    (.refl hd)).2
  rw [(h.visit j).2, if_pos ⟨rfl, hnamed⟩]

/-- Sorted definitions are at rest. -/
theorem run_run (hd : d.IsForest) :
    Pass.sortDefs.run (Pass.sortDefs.run d) = Pass.sortDefs.run d := by
  have h := isSorting_run hd
  refine Visit.Settles.topDown_of_rest h.isForest fun id hid => Prod.ext ?_ (visit_keep _ id)
  have hid' : d.IsAbove root id := hid.mono fun c p hc => by rwa [h.parent] at hc
  obtain ⟨hvisited, hchildren⟩ := h.visit id
  refine Document.ext_views (hvisited.size.trans h.size.symm)
    (fun j => (hvisited.parent j).trans (h.parent j).symm) (fun j => ?_)
    fun j => (hvisited.content j).trans (h.content j).symm
  refine (hchildren j).trans ?_
  split
  · next hj => rw [hj.1, children_run hd hid' hj.2]
  · rfl

end DefsOrder

namespace Pass

open Document (root)
open DefsOrder (IsGrouped)

/-- Sorting puts the children of all definitions in blocks, does nothing else, and has
nothing to do afterwards. -/
theorem children_sortDefs {d r : Document} (hd : d.IsForest) (hr : sortDefs.run d = r) :
    (∀ j, d.IsAbove root j → d.isNamed j "defs" = true →
      ∀ l, IsGrouped (DefsOrder.key d) (d.children j) l ↔ l = r.children j) ∧
    (∀ j, d.isNamed j "defs" = false → r.children j = d.children j) ∧
    (∀ j, r.content j = d.content j ∧ r.parent j = d.parent j) ∧
    sortDefs.run r = r := by
  subst hr
  have h := DefsOrder.isSorting_run hd
  refine ⟨fun j hj hnamed l => ?_, fun j hnamed => ?_, fun j => ⟨h.content j, h.parent j⟩,
    DefsOrder.run_run hd⟩
  · rw [DefsOrder.children_run hd hj hnamed]
    exact DefsOrder.isGrouped_iff (hd.nodup_children j)
  · refine (h.children j).resolve_right fun hsorted => ?_
    rw [hnamed] at hsorted
    cases hsorted.1

namespace Mixed

def element (name : String) : Content := .element (.ofAttributes (.plain name) [])

def document : Document :=
  [(root, element "defs"), (1, element "b"), (1, element "a"), (1, .text " "),
    (1, element "path"), (1, element "a"), (1, element "c")].foldl
    (fun d (p, content) => (d.append p content).1) .empty

theorem isForest_document : document.IsForest :=
  ((((((Document.IsForest.empty.append _ (by decide)).append _ (by decide)).append _
    (by decide)).append _ (by decide)).append _ (by decide)).append _ (by decide)).append _
    (by decide)

end Mixed

theorem children_sortDefs_mixed :
    Mixed.document.IsForest ∧ (sortDefs.run Mixed.document).children 1 = [3, 6, 5, 7, 2, 4] := by
  have hgrouped : IsGrouped (DefsOrder.key Mixed.document) (Mixed.document.children 1)
      [3, 6, 5, 7, 2, 4] :=
    ⟨by decide, ["a", "path", "c", "b", ""], by decide, by decide⟩
  have hblocks := (children_sortDefs Mixed.isForest_document rfl).1 1
    (Document.isAbove_of_parent rfl) (by decide)
  exact ⟨Mixed.isForest_document, ((hblocks _).1 hgrouped).symm⟩

end Pass
end SvgCompact
