import SvgCompact.Proofs.Markup.Growth
import SvgCompact.Proofs.Markup.Printing

/-!
Compact printing is undone by reading.

A document that was read is numbered in document order, and printing walks through it
in that order.  So reading what was printed goes through the document again: behind a
printed node it is the document cut off behind the nodes printed so far.
-/

namespace SvgCompact
namespace Markup

open Document (root)

/-- An element as it is read from its printed tag. -/
def reprinted (options : PrintOptions) (e : Element) : Element :=
  Element.ofAttributes e.name (printedAttributes options e)

/-- Content that printing keeps apart from its surroundings. -/
def IsRestorable : Content → Prop
  | .root => False
  | .element e => e.IsPlain
  | .text _ => True
  | .comment s => IsWritable (.comment s)
  | .cdata s => Text.IsBody "]]>".toList s.toList
  | .instruction _ _ => False
  | .doctype _ => False

/-- The document that is there again when the nodes before `n` are read. -/
def stage (options : PrintOptions) (d : Document) (n : Nat) : Document :=
  (d.mapElements (reprinted options)).upTo n

/-- The reading that is about to come to the node `n`. -/
def stageBuilder (options : PrintOptions) (d : Document) (n : Nat)
    (pending : List (NodeId × List Char)) (hasRoot : Bool) : Builder :=
  ⟨stage options d n, pending, hasRoot⟩

section Nodes

variable {d : Document} {options : PrintOptions} {pending : List (NodeId × List Char)}
  {hasRoot : Bool} {id : NodeId}

theorem stops_cons (s : List Char) : Stops ('<' :: s) := by
  intro c hc
  exact (Option.some.inj hc).symm

theorem dropMark_of_stops {s : List Char} (h : Stops s) : dropMark s = s := by
  unfold dropMark
  split
  · next cs => exact absurd (h _ rfl) (by decide)
  · rfl

theorem Stops.takeWhile {s : List Char} (h : Stops s) : s.takeWhile (· != '<') = [] := by
  cases s with
  | nil => rfl
  | cons c cs => rw [List.takeWhile_cons_of_neg (by simp [h c rfl])]

theorem Stops.dropWhile {s : List Char} (h : Stops s) : s.dropWhile (· != '<') = s := by
  cases s with
  | nil => rfl
  | cons c cs => rw [List.dropWhile_cons_of_neg (by simp [h c rfl])]

theorem isAnyOf_reprinted (options : PrintOptions) (e : Element) (names : List String) :
    (reprinted options e).isAnyOf names = e.isAnyOf names := by
  have hname : (reprinted options e).name = e.name := Element.name_ofAttributes _ _
  unfold Element.isAnyOf Element.isNamed
  rw [hname]

theorem element?_stage (options : PrintOptions) {p n : Nat} (hp : p < n) {e : Element}
    (he : d.element? p = some e) : (stage options d n).element? p = some (reprinted options e) := by
  rw [Document.element?, stage, Document.content_upTo, if_pos hp, Document.content_mapElements,
    Content.element?_mapElement]
  exact congrArg (Option.map (reprinted options)) he

theorem stageBuilder_append (hd : d.IsOrderly) (hid : id < d.size)
    (hparent : d.parent id = some (stageBuilder options d id pending hasRoot).place)
    {content : Content} (hcontent : (d.content id).mapElement (reprinted options) = content) :
    (stageBuilder options d id pending hasRoot).append content =
      stageBuilder options d (id + 1) pending hasRoot := by
  have hmap := hd.toIsNumbered.mapElements (reprinted options)
  have happend := hmap.append_upTo (n := id) (by rwa [Document.size_mapElements])
    ((Document.parent_mapElements ..).trans hparent)
  rw [Document.content_mapElements, hcontent] at happend
  exact congrArg (Builder.mk · pending hasRoot) happend

section Leaves

variable (hd : d.IsOrderly) (hid : id < d.size)
  (hparent : d.parent id = some (stageBuilder options d id pending hasRoot).place)
  {s : List Char} {b' : Builder}
  (h : Reads (stageBuilder options d (id + 1) pending hasRoot) s b')
include hd hid hparent h

theorem reads_comment {body : String} (hcontent : d.content id = .comment body)
    (hbody : IsWritable (.comment body)) :
    Reads (stageBuilder options d id pending hasRoot) (printLeaf (.comment body) ++ s) b' := by
  have happend := stageBuilder_append hd hid hparent (congrArg _ hcontent)
  refine .cons (next_comment hbody s) ?_ h
  rw [Builder.add, String.ofList_toList]
  exact congrArg Except.ok happend

theorem reads_cdata {body : String} (hcontent : d.content id = .cdata body)
    (hbody : Text.IsBody "]]>".toList body.toList) (hopen : pending ≠ []) :
    Reads (stageBuilder options d id pending hasRoot) (printLeaf (.cdata body) ++ s) b' := by
  have happend := stageBuilder_append hd hid hparent (congrArg _ hcontent)
  have htop : ¬ (stageBuilder options d id pending hasRoot).atTop = true := fun htop =>
    hopen (List.isEmpty_iff.1 htop)
  refine .cons (next_cdata hbody s) ?_ h
  rw [Builder.add, if_neg htop, String.ofList_toList]
  exact congrArg Except.ok happend

theorem reads_text {u : String} (hcontent : d.content id = .text u) (hopen : pending ≠ [])
    (hstops : Stops s) :
    Reads (stageBuilder options d id pending hasRoot) (printLeaf (.text u) ++ s) b' := by
  have happend := stageBuilder_append hd hid hparent (congrArg _ hcontent)
  have hresolve := (Resolves.flatMap Resolves.escapeText u.toList).resolve_eq
  have hfits := hd.fits id _ hparent
  rw [hcontent] at hfits
  obtain ⟨hne, hblank⟩ := hfits u rfl
  -- the printed text is one piece, since no markup is in it and markup follows
  have hpiece : ∃ c cs, u.toList.flatMap escapeText = c :: cs ∧
      Piece.next c (cs ++ s) = .ok (.text (c :: cs), s) := by
    have hlt := notMem_escapeText u.toList
    cases hraw : u.toList.flatMap escapeText with
    | nil =>
      rw [hraw] at hresolve
      have hnil : u.toList = [] := by
        rw [Resolves.nil.resolve_eq] at hresolve
        exact (Except.ok.inj hresolve).symm
      exact absurd (String.toList_eq_nil_iff.1 hnil) hne
    | cons c cs =>
      rw [hraw, List.mem_cons, not_or] at hlt
      have hcs : ∀ x ∈ cs, (x != '<') = true := fun x hx => by
        simpa using ne_of_mem_of_not_mem hx hlt.2
      refine ⟨c, cs, rfl, ?_⟩
      rw [next_of_ne (Ne.symm hlt.1), List.takeWhile_append_of_pos hcs,
        List.dropWhile_append_of_pos hcs, hstops.takeWhile, hstops.dropWhile, List.append_nil]
  obtain ⟨c, cs, hraw, hnext⟩ := hpiece
  show Reads _ (u.toList.flatMap escapeText ++ s) b'
  rw [hraw] at hresolve ⊢
  refine .cons hnext ?_ h
  rw [Builder.add, Builder.addText, hresolve]
  simp only [Except.mapError, bind, Except.bind]
  by_cases hempty : (Text.trim u.toList).isEmpty = true
  · obtain ⟨e, he, hshown⟩ := hblank hempty
    have he' := element?_stage options (hd.parent_lt hparent) he
    have hshown' : (reprinted options e).isAnyOf textElements = true := by
      rwa [isAnyOf_reprinted]
    have hplace : (stageBuilder options d id pending hasRoot).document.element?
        (stageBuilder options d id pending hasRoot).place = some (reprinted options e) := he'
    rw [if_pos hempty, hplace]
    simp only [hshown', if_true, String.ofList_toList]
    exact congrArg Except.ok happend
  · have htop : ¬ (stageBuilder options d id pending hasRoot).atTop = true := fun htop =>
      hopen (List.isEmpty_iff.1 htop)
    rw [if_neg hempty, if_neg htop, String.ofList_toList]
    exact congrArg Except.ok happend

end Leaves

section Tags

variable (hd : d.IsOrderly) (hid : id < d.size)
  (hparent : d.parent id = some (stageBuilder options d id pending hasRoot).place)
  {e : Element} (he : e.IsPlain) (hcontent : d.content id = .element e)
  (hfirst : pending = [] → hasRoot = false) {s : List Char} {b' : Builder}
include hd hid hparent he hcontent hfirst

theorem addStart_printHead (isEmpty : Bool) :
    (stageBuilder options d id pending hasRoot).addStart (printHead options e) isEmpty =
      .ok (stageBuilder options d (id + 1)
        (if isEmpty then pending else (id, e.name.full.toList) :: pending) true) := by
  have happend := stageBuilder_append hd hid hparent (congrArg _ hcontent)
  have hsize : (stage options d id).size = id := by
    refine Document.size_upTo ?_
    rw [Document.size_mapElements]
    exact Nat.le_of_lt hid
  refine Builder.addStart_eq_ok_iff.2 ⟨?_, _, elementOf_printHead he options, ?_⟩
  · show (pending.isEmpty && hasRoot) = false
    cases pending with
    | nil => exact hfirst rfl
    | cons x rest => rfl
  · rw [tagName_printHead he]
    have hdocument := congrArg Builder.document happend
    show stageBuilder options d (id + 1) _ true = ⟨_, if isEmpty then pending else
      ((stage options d id).size, e.name.full.toList) :: pending, true⟩
    rw [hsize]
    exact congrArg (Builder.mk · _ true) hdocument.symm

theorem reads_emptyTag (h : Reads (stageBuilder options d (id + 1) pending true) s b') :
    Reads (stageBuilder options d id pending hasRoot)
      ('<' :: printHead options e ++ '/' :: '>' :: s) b' :=
  .cons (next_emptyTag he options s) (addStart_printHead hd hid hparent he hcontent hfirst true) h

theorem reads_startTag
    (h : Reads (stageBuilder options d (id + 1) ((id, e.name.full.toList) :: pending) true) s b') :
    Reads (stageBuilder options d id pending hasRoot)
      ('<' :: printHead options e ++ '>' :: s) b' :=
  .cons (next_startTag he options s) (addStart_printHead hd hid hparent he hcontent hfirst false) h

end Tags

theorem reads_endTag {e : Element} (he : e.IsPlain) {n : Nat} {s : List Char} {b' : Builder}
    (h : Reads (stageBuilder options d n pending true) s b') :
    Reads (stageBuilder options d n ((id, e.name.full.toList) :: pending) true)
      ('<' :: '/' :: e.name.full.toList ++ '>' :: s) b' := by
  refine .cons (next_endTag he.name.toIsWord s) ?_ h
  rw [Builder.add, Builder.addFinish]
  simp [stageBuilder]

/-! ## Nodes -/

/-- A printed node, or nothing but markup in front of it. -/
theorem stops_printNode (hcontent : IsRestorable (d.content id))
    (htext : (d.content id).isText = false) (bound depth : Nat) (s : List Char) :
    Stops (printNode options d (bound + 1) depth id ++ s) := by
  rw [printNode]
  cases hc : d.content id with
  | element e =>
    simp only [printElement]
    split
    · split <;> exact stops_cons _
    · exact stops_cons _
  | comment body => exact stops_cons _
  | cdata body => exact stops_cons _
  | text u =>
    rw [hc] at htext
    cases htext
  | root =>
    rw [hc] at hcontent
    cases hcontent
  | instruction target body =>
    rw [hc] at hcontent
    cases hcontent
  | doctype body =>
    rw [hc] at hcontent
    cases hcontent

theorem printElement_compact (options : PrintOptions) (depth : Nat) (e : Element)
    (children : List (List Char)) (s : List Char) :
    printElement options depth e false children ++ s =
      if children.isEmpty && options.selfClose then '<' :: printHead options e ++ '/' :: '>' :: s
      else '<' :: printHead options e ++
        '>' :: (children.flatten ++ ('<' :: '/' :: e.name.full.toList ++ '>' :: s)) := by
  cases children with
  | nil =>
    cases hclose : options.selfClose <;> simp [printElement, hclose]
  | cons c rest => simp [printElement]

end Nodes

/-! ## Nodes and what is below them -/

/-- Whether reading a node that was printed with a bound goes through its subtree again. -/
def RestoresNodes (options : PrintOptions) (d : Document) (bound : Nat) : Prop :=
  ∀ {depth : Nat} {id : NodeId} {len : Nat} {pending : List (NodeId × List Char)}
    {hasRoot : Bool} {s : List Char} {b' : Builder},
    d.parent id = some (stageBuilder options d id pending hasRoot).place →
    d.size < bound + id → d.subtreeWithin bound id = List.range' id len →
    (pending = [] → (d.content id).characters? = none ∧ (d.isElement id = true → hasRoot = false)) →
    (pending ≠ [] → hasRoot = true) →
    ((d.content id).isText = true → Stops s) →
    Reads (stageBuilder options d (id + len) pending (hasRoot || d.isElement id)) s b' →
    Reads (stageBuilder options d id pending hasRoot) (printNode options d bound depth id ++ s) b'

section Below

variable {d : Document} {options : PrintOptions} (hd : d.IsOrderly)
  (hcontents : ∀ j p, d.parent j = some p → IsRestorable (d.content j))

/-- A walk through consecutive nodes begins with its top. -/
theorem eq_of_subtreeWithin_eq_range' {bound : Nat} {id : NodeId} {n k : Nat}
    (h : d.subtreeWithin bound id = List.range' n k) : id = n := by
  obtain ⟨below, hbelow⟩ : ∃ below, d.subtreeWithin bound id = id :: below := by
    cases bound with
    | zero => exact ⟨_, rfl⟩
    | succ bound => exact ⟨_, rfl⟩
  rw [hbelow] at h
  cases k with
  | zero => cases h
  | succ k => exact (List.cons.inj h).1

include hd in
theorem children_eq_nil_of_not_isElement {id p : NodeId} (hparent : d.parent id = some p)
    (hnot : d.isElement id = false) : d.children id = [] := by
  refine List.eq_nil_iff_forall_not_mem.2 fun c hm => ?_
  rcases hd.holder c id ((hd.isForest.mem_children_iff id c).1 hm) with hroot | helement
  · rw [hroot, hd.parent_root] at hparent
    cases hparent
  · rw [hnot] at helement
    cases helement

include hcontents

/-- Some children of a node in a row, which are elements only where one is open. -/
theorem RestoresNodes.children {bound : Nat} (ih : RestoresNodes options d bound)
    {depth : Nat} {pending : List (NodeId × List Char)} {hasRoot : Bool} {cs : List NodeId}
    {s : List Char} {b' : Builder} {n m : Nat}
    (hparents : ∀ c ∈ cs, d.parent c = some (stageBuilder options d n pending hasRoot).place)
    (hbounds : ∀ c ∈ cs, d.size < bound + c)
    (hmisc : pending = [] → ∀ c ∈ cs, (d.content c).isMisc = true)
    (hopen : pending ≠ [] → hasRoot = true)
    (hapart : (cs.map fun c => (d.content c).isText).IsChain fun x y => ¬ (x = true ∧ y = true))
    (hlen : cs.flatMap (d.subtreeWithin bound) = List.range' n m) (hstops : Stops s)
    (h : Reads (stageBuilder options d (n + m) pending hasRoot) s b') :
    Reads (stageBuilder options d n pending hasRoot)
      ((cs.map (printNode options d bound depth)).flatten ++ s) b' := by
  induction cs generalizing n m with
  | nil =>
    obtain rfl : 0 = m := by simpa using congrArg List.length hlen
    exact h
  | cons c rest ih' =>
    rw [List.flatMap_cons, eq_comm, List.range'_eq_append_iff] at hlen
    obtain ⟨k, hk, hfirst, hrest⟩ := hlen
    rw [Nat.mul_one] at hrest
    obtain rfl : c = n := eq_of_subtreeWithin_eq_range' hfirst
    have hparent := hparents c (by simp)
    have helement : (hasRoot || d.isElement c) = hasRoot := by
      by_cases hpending : pending = []
      · have hnot := Content.isElement_of_isMisc (hmisc hpending c (by simp))
        rw [Document.isElement, hnot, Bool.or_false]
      · rw [hopen hpending, Bool.true_or]
    have hafter := ih' (n := c + k) (m := m - k) (fun x hx => hparents x (by simp [hx]))
      (fun x hx => hbounds x (by simp [hx])) (fun hp x hx => hmisc hp x (by simp [hx]))
      hapart.tail hrest (by rwa [Nat.add_assoc, Nat.add_sub_cancel' hk])
    rw [List.map_cons, List.flatten_cons, List.append_assoc]
    refine ih hparent (hbounds c (by simp)) hfirst (fun hpending => ?_) hopen (fun htext => ?_)
      (by rwa [helement])
    · have hc := hmisc hpending c (by simp)
      refine ⟨Content.characters?_of_isMisc hc, fun helement => ?_⟩
      rw [Document.isElement, Content.isElement_of_isMisc hc] at helement
      cases helement
    · -- what follows a text is markup
      cases rest with
      | nil => exact hstops
      | cons next more =>
        have hnot : (d.content next).isText = false := by
          rw [List.map_cons, List.map_cons, List.isChain_cons_cons] at hapart
          exact Bool.eq_false_iff.2 fun hnext => hapart.1 ⟨htext, hnext⟩
        have hnext := hparents next (by simp)
        obtain ⟨n, rfl⟩ : ∃ n, bound = n + 1 := by
          refine Nat.exists_eq_add_one_of_ne_zero fun hzero => ?_
          have hlt := hbounds next (by simp)
          have hsize := Document.lt_size_of_parent hnext
          rw [hzero, Nat.zero_add] at hlt
          exact Nat.lt_asymm hlt hsize
        rw [List.map_cons, List.flatten_cons, List.append_assoc]
        exact stops_printNode (hcontents next _ hnext) hnot n depth _

include hd

/-- An element is read as its tags and, between them, its children. -/
theorem RestoresNodes.element {bound : Nat} (ih : RestoresNodes options d bound)
    (hpretty : options.pretty = false) {depth : Nat} {id : NodeId} {e : Element}
    {pending : List (NodeId × List Char)} {hasRoot : Bool} {s : List Char} {b' : Builder} {k : Nat}
    (hparent : d.parent id = some (stageBuilder options d id pending hasRoot).place)
    (hbound : d.size < bound + 1 + id) (hcontent : d.content id = .element e)
    (hbelow : (d.children id).flatMap (d.subtreeWithin bound) = List.range' (id + 1) k)
    (hfirst : pending = [] → hasRoot = false)
    (h : Reads (stageBuilder options d (id + (k + 1)) pending true) s b') :
    Reads (stageBuilder options d id pending hasRoot)
      (printElement options depth e (options.pretty && mayBreak d id)
        ((d.children id).map (printNode options d bound (depth + 1))) ++ s) b' := by
  have hid := Document.lt_size_of_parent hparent
  have hsiblings := hd.isForest.mem_children_iff id
  have hplain := hcontents id _ hparent
  rw [hcontent] at hplain
  simp only [hpretty, Bool.false_and]
  rw [printElement_compact]
  split
  · next hempty =>
    rw [Bool.and_eq_true, List.isEmpty_iff, List.map_eq_nil_iff] at hempty
    rw [hempty.1] at hbelow
    obtain rfl : 0 = k := by simpa using congrArg List.length hbelow
    exact reads_emptyTag hd hid hparent hplain hcontent hfirst h
  · refine reads_startTag hd hid hparent hplain hcontent hfirst ?_
    refine ih.children hcontents (fun c hm => (hsiblings c).1 hm) (fun c hm => ?_) nofun
      (fun _ => rfl) (hd.apart id) hbelow (stops_cons _)
      (reads_endTag hplain (by rwa [Nat.add_assoc, Nat.add_comm 1 k]))
    have hlt := hd.parent_lt ((hsiblings c).1 hm)
    rw [Nat.succ_add_eq_add_succ] at hbound
    exact Nat.lt_of_lt_of_le hbound (Nat.add_le_add_left hlt bound)

theorem restoresNodes (hpretty : options.pretty = false) (bound : Nat) :
    RestoresNodes options d bound := by
  induction bound with
  | zero =>
    intro depth id len pending hasRoot s b' hparent hbound
    rw [Nat.zero_add] at hbound
    exact absurd hbound (Nat.lt_asymm (Document.lt_size_of_parent hparent))
  | succ bound ih =>
    intro depth id len pending hasRoot s b' hparent hbound hlen htop hopen hstops h
    have hid := Document.lt_size_of_parent hparent
    have hcontent := hcontents id _ hparent
    rw [Document.subtreeWithin, eq_comm, List.range'_eq_cons_iff] at hlen
    obtain ⟨-, hpos, hbelow⟩ := hlen
    obtain ⟨k, rfl⟩ := Nat.exists_eq_add_one_of_ne_zero (Nat.ne_of_gt hpos)
    rw [Nat.add_sub_cancel] at hbelow
    have hleaf : d.isElement id = false →
        Reads (stageBuilder options d (id + 1) pending hasRoot) s b' := by
      intro hnot
      rw [children_eq_nil_of_not_isElement hd hparent hnot] at hbelow
      obtain rfl : k = 0 := (by simpa using congrArg List.length hbelow : 0 = k).symm
      rwa [hnot, Bool.or_false] at h
    have hcharacters : (d.content id).characters?.isSome = true → pending ≠ [] := by
      intro hsome hpending
      rw [(htop hpending).1] at hsome
      cases hsome
    rw [printNode]
    cases hc : d.content id with
    | element e =>
      have helement : d.isElement id = true := by
        rw [Document.isElement, hc]
        rfl
      rw [helement, Bool.or_true] at h
      exact ih.element hd hcontents hpretty hparent hbound hc hbelow
        (fun hpending => (htop hpending).2 helement) h
    | comment body =>
      rw [hc] at hcontent
      exact reads_comment hd hid hparent (hleaf (by rw [Document.isElement, hc]; rfl)) hc hcontent
    | cdata body =>
      rw [hc] at hcontent hcharacters
      exact reads_cdata hd hid hparent (hleaf (by rw [Document.isElement, hc]; rfl)) hc hcontent
        (hcharacters rfl)
    | text u =>
      rw [hc] at hcharacters hstops
      exact reads_text hd hid hparent (hleaf (by rw [Document.isElement, hc]; rfl)) hc
        (hcharacters rfl) (hstops rfl)
    | root =>
      rw [hc] at hcontent
      cases hcontent
    | instruction target body =>
      rw [hc] at hcontent
      cases hcontent
    | doctype body =>
      rw [hc] at hcontent
      cases hcontent

end Below

theorem intercalate_nil {α : Type} (l : List (List α)) :
    ([] : List α).intercalate l = l.flatten := by
  induction l with
  | nil => rfl
  | cons x rest ih =>
    by_cases hrest : rest = []
    · subst hrest
      simp
    · rw [List.intercalate_cons_of_ne_nil hrest, ih]
      simp

theorem toList_print {options : PrintOptions} (hpretty : options.pretty = false) (d : Document) :
    (print options d).toList = ((d.children root).map (printNode options d d.size 0)).flatten := by
  rw [print, String.toList_ofList, if_neg (by simp [hpretty]), intercalate_nil]

section Documents

variable {d : Document} {options : PrintOptions} (hd : d.IsOrderly) (hrooted : d.IsRooted)
include hd hrooted

/-- The document itself is there before anything is read. -/
theorem stage_one : stage options d 1 = Document.empty := by
  refine Document.ext_views ?_ (fun (j : Nat) => ?_) (fun (j : Nat) => ?_) fun (j : Nat) => ?_
  · refine (Document.size_upTo ?_).trans rfl
    rw [Document.size_mapElements]
    exact hrooted.size_pos
  · rw [stage, Document.parent_upTo, Document.parent_mapElements]
    cases j with
    | zero => exact hrooted.parent_root
    | succ j => rfl
  · rw [stage, Document.children_upTo, Document.children_mapElements]
    cases j with
    | zero =>
      refine List.filter_eq_nil_iff.2 fun c hc => ?_
      have hlt := hd.parent_lt ((hd.isForest.mem_children_iff root c).1 hc)
      exact fun hlt' => absurd (Nat.lt_one_iff.1 (of_decide_eq_true hlt')) (Nat.ne_of_gt hlt)
    | succ j => rfl
  · rw [stage, Document.content_upTo, Document.content_mapElements]
    cases j with
    | zero =>
      show (d.content root).mapElement _ = .root
      rw [hrooted.content_root]
      rfl
    | succ j => rfl

variable (hcontents : ∀ j p, d.parent j = some p → IsRestorable (d.content j)) {r : NodeId}
  (helement : d.isElement r = true) (hr : d.parent r = some root)
  (hothers : ∀ c, d.parent c = some root → c = r ∨ (d.content c).isMisc = true)
  (hpretty : options.pretty = false)
include hcontents helement hr hothers hpretty

/-- Comments in front of the root element, the root element, and comments behind it. -/
theorem reads_print : Reads (stageBuilder options d 1 [] false) (print options d).toList
    (stageBuilder options d d.size [] true) := by
  have hsiblings := hd.isForest.mem_children_iff root
  obtain ⟨front, back, hsplit⟩ := List.append_of_mem ((hsiblings r).2 hr)
  have hnodup := hd.isForest.nodup_children root
  have hapart := hd.apart root
  have hwalk := hd.subtreeWithin_root hrooted.size_pos (Nat.le_succ d.size)
  obtain ⟨n, hn⟩ := Nat.exists_eq_add_one_of_ne_zero (Nat.ne_of_gt hrooted.size_pos)
  have hnode : RestoresNodes options d d.size := restoresNodes hd hcontents hpretty d.size
  rw [hsplit, List.nodup_middle, List.nodup_cons, List.mem_append, not_or] at hnodup
  obtain ⟨⟨hfront, hback⟩, -⟩ := hnodup
  have hmisc : ∀ c ∈ front ++ back, d.parent c = some root ∧ (d.content c).isMisc = true := by
    intro c hc
    have hparent := (hsiblings c).1 (by
      rw [hsplit]
      rcases List.mem_append.1 hc with h | h <;> simp [h])
    refine ⟨hparent, (hothers c hparent).resolve_left ?_⟩
    rintro rfl
    exact (List.mem_append.1 hc).elim hfront hback
  have hbounds : ∀ c, d.parent c = some root → d.size < d.size + c := fun c hc =>
    Nat.lt_add_of_pos_right (hd.parent_lt hc)
  have hr' : (d.content r).isText = false :=
    Bool.eq_false_iff.2 (Content.isText_of_isElement helement)
  have hstops : ∀ t, Stops (printNode options d d.size 0 r ++ t) := by
    rw [hn]
    exact stops_printNode (hcontents r root hr) hr' n 0
  -- the walk through the document, cut at the root element
  rw [Document.subtreeWithin, List.range_eq_range', eq_comm, List.range'_eq_cons_iff, hsplit,
    List.flatMap_append, List.flatMap_cons, hn, Nat.add_sub_cancel, ← hn] at hwalk
  have hbelow : front.flatMap (d.subtreeWithin d.size) ++
      (d.subtreeWithin d.size r ++ back.flatMap (d.subtreeWithin d.size)) = List.range' 1 n :=
    hwalk.2.2
  obtain ⟨k, hk, hfrontWalk, hrest⟩ := List.range'_eq_append_iff.1 hbelow.symm
  obtain ⟨l, hl, hrWalk, hbackWalk⟩ := List.range'_eq_append_iff.1 hrest.symm
  rw [Nat.mul_one] at hrWalk hbackWalk
  rw [Nat.mul_one] at hbackWalk
  obtain rfl : 1 + k = r := (eq_of_subtreeWithin_eq_range' hrWalk).symm
  rw [hsplit, List.map_append, List.map_cons, List.isChain_append] at hapart
  rw [toList_print hpretty, hsplit, List.map_append, List.map_cons, List.flatten_append,
    List.flatten_cons]
  refine hnode.children hcontents (fun c hc => (hmisc c (by simp [hc])).1)
    (fun c hc => hbounds c (hmisc c (by simp [hc])).1) (fun _ c hc => (hmisc c (by simp [hc])).2)
    (absurd rfl) hapart.1 hfrontWalk (hstops _) ?_
  refine hnode hr (hbounds _ hr) hrWalk (fun _ => ⟨?_, fun _ => rfl⟩) (absurd rfl)
    (fun htext => absurd htext (by simp [hr'])) ?_
  · cases hc : d.content (1 + k) <;> rw [Document.isElement, hc] at helement <;>
      first | rfl | cases helement
  rw [helement, Bool.or_true, ← List.append_nil (List.flatten _)]
  refine hnode.children hcontents (fun c hc => (hmisc c (by simp [hc])).1)
    (fun c hc => hbounds c (hmisc c (by simp [hc])).1) (fun _ c hc => (hmisc c (by simp [hc])).2)
    (absurd rfl) hapart.2.1.tail hbackWalk (fun c hc => by cases hc) ?_
  have hend : 1 + k + l + (n - k - l) = d.size := by omega
  rw [hend]
  exact .nil _

theorem read_print_of_isOrderly :
    read (print options d) = .ok (d.mapElements (reprinted options)) := by
  have hreads := reads_print hd hrooted hcontents helement hr hothers hpretty
  rw [stageBuilder, stage_one hd hrooted] at hreads
  have hstops : Stops (print options d).toList := by
    obtain ⟨n, hn⟩ := Nat.exists_eq_add_one_of_ne_zero (Nat.ne_of_gt hrooted.size_pos)
    rw [toList_print hpretty, hn]
    cases hchildren : d.children root with
    | nil => exact nofun
    | cons c rest =>
      have hc := (hd.isForest.mem_children_iff root c).1 (by rw [hchildren]; simp)
      have htext : (d.content c).isText = false := by
        rcases hothers c hc with rfl | hmisc
        · exact Bool.eq_false_iff.2 (Content.isText_of_isElement helement)
        · exact Content.isText_of_isMisc hmisc
      exact stops_printNode (hcontents c root hc) htext n 0 _
  refine read_eq_ok_iff.2 ⟨stageBuilder options d d.size [] true, ?_, rfl, rfl, ?_⟩
  · rw [dropMark_of_stops hstops]
    exact hreads
  · show (d.mapElements (reprinted options)).upTo d.size = _
    rw [← Document.size_mapElements (reprinted options) d]
    exact Document.upTo_size (hd.toIsNumbered.mapElements _).isForest

end Documents

end Markup

/-- Whether two contents are the same but for the order of attributes. -/
def Content.IsLike : Content → Content → Prop
  | .element e, c => ∃ e', c = .element e' ∧ e'.name = e.name ∧
      e'.attributes.Perm e.attributes ∧ e'.classes = e.classes ∧ e'.style = e.style
  | c, c' => c' = c

namespace Markup

open Document (root)

theorem reprinted_of_isFresh {e : Element} (hfresh : e.IsFresh) (hplain : e.IsPlain)
    (options : PrintOptions) :
    (options.sortAttrs = false → reprinted options e = e) ∧
      (Content.element e).IsLike (.element (reprinted options e)) := by
  have hperm := perm_printedAttributes options e
  obtain ⟨hattributes, hclasses, hstyle⟩ := hfresh.ofAttributes_of_perm hplain.nodup hperm
  refine ⟨fun hsort => ?_, _, rfl, Element.name_ofAttributes _ _, ?_, hclasses, hstyle⟩
  · rw [reprinted, printedAttributes, if_neg (by simp [hsort])]
    exact hfresh.ofAttributes_eq hplain.nodup
  · rw [reprinted, hattributes]
    exact hperm

/-- What was read and printed in compact form is read as the same document: the same nodes
with the same links and contents.  If printing sorts attributes, they are the same but for
their order. -/
theorem read_print_compact {s : String} {d : Document} (h : read s = .ok d)
    (hkinds : ∀ j, (∀ target body, d.content j ≠ .instruction target body) ∧
      ∀ body, d.content j ≠ .doctype body)
    (hnames : ∀ j e, d.content j = .element e →
      e.name.IsWord ∧ ∀ a ∈ e.attributes, a.name.IsWord)
    {options : PrintOptions} (hpretty : options.pretty = false) :
    ∃ d', read (print options d) = .ok d' ∧ (options.sortAttrs = false → d' = d) ∧
      d'.size = d.size ∧ ∀ j, d'.parent j = d.parent j ∧ d'.children j = d.children j ∧
        (d.content j).IsLike (d'.content j) := by
  obtain ⟨hd, hspelled⟩ := isOrderly_of_read h
  obtain ⟨hrooted, hcontents, r, helement, hr, hothers⟩ := of_read h
  have hplain : ∀ j e, d.content j = .element e → e.IsPlain := fun j e he =>
    Element.isPlain_of_isWord ((hcontents j).2 e he) (hnames j e he).1 (hnames j e he).2
  have hrestorable : ∀ j p, d.parent j = some p → IsRestorable (d.content j) := by
    intro j p hp
    have hwritable := (hcontents j).1
    cases hc : d.content j with
    | root => exact hrooted.only_root j p hp hc
    | element e => exact hplain j e hc
    | text u => trivial
    | comment body =>
      rw [hc] at hwritable
      exact hwritable
    | cdata body => exact (hspelled j).cdata body hc
    | instruction target body => exact (hkinds j).1 target body hc
    | doctype body => exact (hkinds j).2 body hc
  have hread := read_print_of_isOrderly hd hrooted hrestorable helement hr hothers hpretty
  have hreprinted := fun j e (he : d.content j = .element e) =>
    reprinted_of_isFresh ((hspelled j).fresh e he) (hplain j e he) options
  have hcontent := Document.content_mapElements (reprinted options) d
  refine ⟨_, hread, fun hsort => ?_, Document.size_mapElements _ _, fun j => ⟨?_, ?_, ?_⟩⟩
  · refine Document.ext_views (Document.size_mapElements _ _) (Document.parent_mapElements _ _)
      (Document.children_mapElements _ _) fun j => ?_
    rw [hcontent]
    cases hc : d.content j with
    | element e => exact congrArg _ ((hreprinted j e hc).1 hsort)
    | _ => rfl
  · exact Document.parent_mapElements _ _ j
  · exact Document.children_mapElements _ _ j
  · rw [hcontent]
    cases hc : d.content j with
    | element e => exact (hreprinted j e hc).2
    | _ => rfl

/-! ## Blank text, a comment and an empty group -/

namespace Spaced

def outer : Element := .ofAttributes (.plain "text") [⟨.plain "y", "1"⟩, ⟨.plain "x", "&"⟩]

def inner : Element := .ofAttributes (.plain "g") []

def document : Document :=
  ((((Document.empty.append root (.element outer)).1.append 1 (.text " ")).1.append 1
    (.comment "c")).1.append 1 (.element inner)).1

def text : String := "<text y=\"1\" x=\"&amp;\"> <!--c--><g></g></text>"

theorem isPlain_outer : outer.IsPlain := by
  refine Element.all_ofAttributes (QName.isPlain_read (s := "text") (by decide) (by decide)) ?_
  intro a ha
  rcases List.mem_pair.1 ha with rfl | rfl
  · exact QName.isPlain_read (s := "y") (by decide) (by decide)
  · exact QName.isPlain_read (s := "x") (by decide) (by decide)

theorem isPlain_inner : inner.IsPlain :=
  Element.all_ofAttributes (QName.isPlain_read (s := "g") (by decide) (by decide)) nofun

/-- The document up to the group. -/
def leading : Document :=
  ((Document.empty.append root (.element outer)).1.append 1 (.text " ")).1.append 1
    (.comment "c") |>.1

theorem size_leading : leading.size = 4 := by
  simp only [leading, Document.size_append]
  rfl

theorem add_outer : Builder.empty.add (.start "text y=\"1\" x=\"&amp;\"".toList false) =
    .ok ⟨(Document.empty.append root (.element outer)).1, [(1, "text".toList)], true⟩ := by
  rw [Builder.add, Builder.addStart_eq_ok_iff]
  refine ⟨rfl, outer, elementOf_printHead isPlain_outer .default, ?_⟩
  rw [show tagName "text y=\"1\" x=\"&amp;\"".toList = "text".toList by decide]
  rfl

theorem add_inner : Builder.add ⟨leading, [(1, "text".toList)], true⟩ (.start "g".toList false) =
    .ok ⟨document, [(4, "g".toList), (1, "text".toList)], true⟩ := by
  rw [Builder.add, Builder.addStart_eq_ok_iff]
  refine ⟨rfl, inner, elementOf_printHead isPlain_inner .default, ?_⟩
  rw [show tagName "g".toList = "g".toList by decide, size_leading]
  rfl

theorem reads_group : Reads ⟨leading, [(1, "text".toList)], true⟩ "<g></g></text>".toList
    ⟨document, [], true⟩ := by
  have hend : Reads ⟨document, [(1, "text".toList)], true⟩ "</text>".toList ⟨document, [], true⟩ :=
    .cons (show Piece.next '<' "/text>".toList = .ok (.finish "text".toList, []) from rfl) rfl
      (.nil _)
  have hinner : Reads ⟨document, [(4, "g".toList), (1, "text".toList)], true⟩
      "</g></text>".toList ⟨document, [], true⟩ :=
    .cons (show Piece.next '<' "/g></text>".toList = .ok (.finish "g".toList, "</text>".toList)
      from rfl) rfl hend
  exact .cons (show Piece.next '<' "g></g></text>".toList = .ok (.start "g".toList false,
    "</g></text>".toList) from rfl) add_inner hinner

theorem read_text : read text = .ok document := by
  have hblank : resolve " ".toList = .ok " ".toList := (Resolves.of_notMem (by decide)).resolve_eq
  let first := (Document.empty.append root (.element outer)).1
  have hcomment : Reads ⟨(first.append 1 (.text " ")).1, [(1, "text".toList)], true⟩
      "<!--c--><g></g></text>".toList ⟨document, [], true⟩ :=
    .cons (show Piece.next '<' "!--c--><g></g></text>".toList = .ok (.comment "c".toList,
      "<g></g></text>".toList) from rfl) rfl reads_group
  have htext : Reads ⟨first, [(1, "text".toList)], true⟩ " <!--c--><g></g></text>".toList
      ⟨document, [], true⟩ := by
    refine .cons (show Piece.next ' ' "<!--c--><g></g></text>".toList = .ok (.text " ".toList,
      "<!--c--><g></g></text>".toList) from rfl) ?_ hcomment
    rw [Builder.add, Builder.addText, hblank]
    rfl
  exact read_eq_ok_iff.2 ⟨⟨document, [], true⟩,
    .cons (show Piece.next '<' "text y=\"1\" x=\"&amp;\"> <!--c--><g></g></text>".toList =
      .ok (.start "text y=\"1\" x=\"&amp;\"".toList false, " <!--c--><g></g></text>".toList)
      from rfl) add_outer htext, rfl, rfl, rfl⟩

theorem read_print_text :
    let options : PrintOptions := { PrintOptions.default with sortAttrs := true }
    read text = .ok document ∧ options.pretty = false ∧
      ∃ d', read (print options document) = .ok d' ∧ d'.size = document.size ∧
        ∀ j, d'.parent j = document.parent j ∧ d'.children j = document.children j ∧
          (document.content j).IsLike (d'.content j) := by
  intro options
  have hcontent : ∀ j, document.content j = if j = 1 then .element outer else
      if j = 2 then .text " " else if j = 3 then .comment "c" else
        if j = 4 then .element inner else .root := by
    rintro (_ | _ | _ | _ | _ | j) <;> rfl
  have hplain : ∀ j e, document.content j = .element e → e.IsPlain := by
    intro j e he
    rw [hcontent] at he
    split_ifs at he
    · cases he
      exact isPlain_outer
    · cases he
      exact isPlain_inner
  have hkinds : ∀ j, (∀ target body, document.content j ≠ .instruction target body) ∧
      ∀ body, document.content j ≠ .doctype body := by
    intro j
    rw [hcontent]
    split_ifs <;> simp
  obtain ⟨d', hread, -, hsame⟩ := read_print_compact read_text hkinds
    (fun j e he => ⟨(hplain j e he).name.toIsWord,
      fun a ha => ((hplain j e he).names a ha).toIsWord⟩)
    (show options.pretty = false from rfl)
  exact ⟨read_text, rfl, d', hread, hsame⟩

end Spaced

end Markup
end SvgCompact
