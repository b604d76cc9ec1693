import SvgCompact.Proofs.Document.Branches
import SvgCompact.Proofs.Markup.Printing

/-!
Markup of the trees of a document.

Printing depends on the trees alone: `printNode` writes the markup of a tree, laid out.
Pretty printing is compact printing of trees with blank texts put between their nodes,
below each element whose own nodes hold no characters.
-/

namespace SvgCompact
namespace Branches

open Markup

/-! ## Compact markup -/

def writeElement (options : PrintOptions) (e : Element) (empty : Bool) (inner : List Char) :
    List Char :=
  if empty && options.selfClose then '<' :: printHead options e ++ ['/', '>']
  else '<' :: printHead options e ++ '>' :: (inner ++ ('<' :: '/' :: e.name.full.toList ++ ['>']))

/-- A node around the markup of what is below it. -/
def writeContent (options : PrintOptions) (empty : Bool) (inner : List Char) :
    Content → List Char
  | .element e => writeElement options e empty inner
  | c => printLeaf c

/-- The nodes as markup without line breaks. -/
def write (options : PrintOptions) : Branches → List Char
  | nil => []
  | node c below rest =>
    writeContent options below.isNil (below.write options) c ++ rest.write options

theorem writeContent_of_not_isElement (options : PrintOptions) (empty : Bool)
    (inner : List Char) {c : Content} (hc : c.isElement = false) :
    writeContent options empty inner c = printLeaf c := by
  cases c with
  | element e => cases hc
  | _ => rfl

/-! ## Line breaks -/

/-- The nodes with a text before each and one at the end. -/
def spread (before after : List Char) : Branches → Branches
  | nil => node (.text (String.ofList after)) nil nil
  | node c below rest =>
    node (.text (String.ofList before)) nil (node c below (rest.spread before after))

/-- Whether any node in the row holds characters. -/
def holdsCharacters : Branches → Bool
  | nil => false
  | node c _ rest => c.characters?.isSome || rest.holdsCharacters

/-- Whether line breaks are put between the nodes below an element. -/
def isBroken (options : PrintOptions) (below : Branches) : Bool :=
  options.pretty && !below.isNil && !below.holdsCharacters

/-- The nodes with the line breaks of pretty printing as texts. -/
def laidOut (options : PrintOptions) (depth : Nat) : Branches → Branches
  | nil => nil
  | node c below rest =>
    let inner := below.laidOut options (depth + 1)
    node c
      (if below.isBroken options then
        inner.spread (lineBreak options (depth + 1)) (lineBreak options depth)
      else inner)
      (rest.laidOut options depth)

/-- Compact printing lays nothing out. -/
theorem laidOut_of_compact {options : PrintOptions} (hcompact : options.pretty = false)
    (depth : Nat) (f : Branches) : f.laidOut options depth = f := by
  induction f generalizing depth with
  | nil => rfl
  | node c below rest ihBelow ihRest =>
    rw [laidOut, isBroken, hcompact, Bool.false_and, Bool.false_and, ihBelow, ihRest]
    rfl

theorem isNil_laidOut (options : PrintOptions) (depth : Nat) (f : Branches) :
    (f.laidOut options depth).isNil = f.isNil := by
  cases f <;> rfl

theorem isNil_spread (before after : List Char) (f : Branches) :
    (f.spread before after).isNil = false := by
  cases f <;> rfl

end Branches

namespace Markup

theorem flatMap_escapeText_lineBreak (options : PrintOptions) (depth : Nat) :
    (lineBreak options depth).flatMap escapeText = lineBreak options depth := by
  rw [lineBreak, List.flatMap_cons]
  refine congrArg (['\n'] ++ ·) ?_
  induction options.indent * depth with
  | zero => rfl
  | succ n ih =>
    rw [List.replicate_succ, List.flatMap_cons, ih]
    rfl

variable {d : Document}

theorem holdsCharacters_branches (h : d.IsForest) (ids : List NodeId) :
    (d.branches ids).holdsCharacters = ids.any fun c => (d.content c).characters?.isSome := by
  induction ids with
  | nil => rw [Document.branches_nil]; rfl
  | cons id rest ih => rw [Document.branches_cons h, Branches.holdsCharacters, ih, List.any_cons]

theorem isNil_branches (h : d.IsForest) (ids : List NodeId) :
    (d.branches ids).isNil = ids.isEmpty := by
  cases ids with
  | nil => rw [Document.branches_nil]; rfl
  | cons id rest => rw [Document.branches_cons h]; rfl

theorem mayBreak_eq (h : d.IsForest) (id : NodeId) :
    mayBreak d id = !(d.branches (d.children id)).holdsCharacters := by
  rw [holdsCharacters_branches h, mayBreak, List.not_any_eq_all_not]
  refine List.all_congr rfl fun c => ?_
  cases (d.content c).characters? <;> rfl

theorem isBroken_branches (h : d.IsForest) (options : PrintOptions) (id : NodeId) :
    (d.branches (d.children id)).isBroken options =
      (options.pretty && mayBreak d id && !(d.children id).isEmpty) := by
  rw [Branches.isBroken, isNil_branches h, mayBreak_eq h, Bool.and_assoc, Bool.and_assoc,
    Bool.and_comm (!_)]

/-- What is below a node, laid out for the node. -/
def laidBelow (options : PrintOptions) (depth : Nat) (below : Branches) : Branches :=
  if below.isBroken options then
    (below.laidOut options (depth + 1)).spread (lineBreak options (depth + 1))
      (lineBreak options depth)
  else below.laidOut options (depth + 1)

/-- Whether a node is printed as the markup of its tree, laid out. -/
def PrintsTree (options : PrintOptions) (d : Document) (bound depth : Nat) (id : NodeId) : Prop :=
  let below := laidBelow options depth (d.branches (d.children id))
  printNode options d bound depth id =
    Branches.writeContent options below.isNil (below.write options) (d.content id)

section Rows

variable (h : d.IsForest) {options : PrintOptions} {bound depth : Nat} {ids : List NodeId}
  (hids : ∀ id ∈ ids, PrintsTree options d bound depth id)
include h hids

theorem flatten_map_printNode : (ids.map (printNode options d bound depth)).flatten =
    ((d.branches ids).laidOut options depth).write options := by
  induction ids with
  | nil =>
    rw [Document.branches_nil]
    rfl
  | cons id rest ih =>
    rw [List.map_cons, List.flatten_cons, hids id (by simp), ih fun c hc => hids c (by simp [hc]),
      Document.branches_cons h]
    rfl

theorem flatMap_map_printNode (before after : List Char)
    (hbefore : before.flatMap escapeText = before) (hafter : after.flatMap escapeText = after) :
    ((ids.map (printNode options d bound depth)).flatMap fun child => before ++ child) ++ after =
      (((d.branches ids).laidOut options depth).spread before after).write options := by
  have htext : ∀ {x : List Char}, x.flatMap escapeText = x → ∀ {rest : Branches},
      (Branches.node (.text (String.ofList x)) .nil rest).write options =
        x ++ rest.write options := by
    intro x hx rest
    show (String.ofList x).toList.flatMap escapeText ++ _ = _
    rw [String.toList_ofList, hx]
  induction ids with
  | nil =>
    rw [Document.branches_nil, Branches.laidOut, Branches.spread, htext hafter]
    exact (List.append_nil _).symm
  | cons id rest ih =>
    rw [List.map_cons, List.flatMap_cons, List.append_assoc, ih fun c hc => hids c (by simp [hc]),
      hids id (by simp), Document.branches_cons h, Branches.laidOut, Branches.spread,
      htext hbefore, List.append_assoc]
    rfl

omit h hids in
theorem isNil_laidBelow (options : PrintOptions) (level : Nat) (below : Branches) :
    (laidBelow options level below).isNil = below.isNil := by
  rw [laidBelow]
  split
  · next hspread =>
    rw [Branches.isBroken, Bool.and_eq_true, Bool.and_eq_true, Bool.not_eq_true'] at hspread
    rw [Branches.isNil_spread, hspread.1.2]
  · exact Branches.isNil_laidOut options _ _

theorem printElement_eq {id : NodeId} (hchildren : d.children id = ids) (e : Element)
    {level : Nat} (hlevel : depth = level + 1) :
    let below := laidBelow options level (d.branches ids)
    printElement options level e (options.pretty && mayBreak d id)
        (ids.map (printNode options d bound depth)) =
      Branches.writeElement options e below.isNil (below.write options) := by
  subst hlevel
  have hbroken := isBroken_branches h options id
  rw [hchildren] at hbroken
  simp only
  rw [Branches.writeElement, isNil_laidBelow, isNil_branches h, laidBelow, hbroken]
  cases ids with
  | nil =>
    rw [Document.branches_nil, List.isEmpty_nil, Bool.not_true, Bool.and_false,
      if_neg Bool.false_ne_true]
    rfl
  | cons c rest =>
    have hflat := flatten_map_printNode h hids
    have hspread := flatMap_map_printNode h hids (lineBreak options (level + 1))
      (lineBreak options level) (flatMap_escapeText_lineBreak options _)
      (flatMap_escapeText_lineBreak options _)
    rw [List.isEmpty_cons, Bool.not_false, Bool.and_true]
    cases options.pretty && mayBreak d id with
    | false =>
      rw [if_neg Bool.false_ne_true, ← hflat]
      simp [printElement]
    | true =>
      rw [if_pos rfl, ← hspread]
      simp [printElement]

end Rows

theorem printsTree (h : d.IsRooted) (options : PrintOptions) {bound : Nat} (depth : Nat)
    {id p : NodeId} (hparent : d.parent id = some p) (hbound : ∀ a, d.climb bound a ≠ some id) :
    PrintsTree options d bound depth id := by
  have hforest := h.isForest
  induction bound generalizing depth id p with
  | zero => exact absurd rfl (hbound id)
  | succ n ih =>
    have hbelow : ∀ c ∈ d.children id, PrintsTree options d n (depth + 1) c := by
      intro c hc
      have hparent := (hforest.mem_children_iff id c).1 hc
      refine ih (depth + 1) hparent fun a ha => hbound a ?_
      rw [Document.climb_succ, ha, Option.bind_some, hparent]
    rw [PrintsTree, printNode]
    cases hc : d.content id with
    | root => exact absurd hc (h.only_root id p hparent)
    | element e =>
      exact printElement_eq hforest hbelow rfl e rfl
    | _ => rfl

end Markup
end SvgCompact
