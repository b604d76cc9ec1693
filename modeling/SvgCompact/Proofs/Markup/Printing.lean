import SvgCompact.Proofs.Markup.Acceptance

/-!
Printed documents are read without a fault.

A printed node leads from the outline it is met with to the same outline, and the
root element to the one in which the root element is there.  So a document with one
root element is read again, and one without any is refused.
-/

namespace SvgCompact
namespace Markup

open Document (root)

/-- Whether some text leads from an outline to another, whatever follows it. -/
def Leads (o : Outline) (x : List Char) (o' : Outline) : Prop :=
  ∀ s o'', Accepts o' s o'' → Accepts o (x ++ s) o''

namespace Leads

variable {o o₁ o' : Outline} {x y : List Char}

theorem nil (o : Outline) : Leads o [] o := fun _ _ h => h

theorem append (hx : Leads o x o₁) (hy : Leads o₁ y o') : Leads o (x ++ y) o' := by
  intro s o'' h
  rw [List.append_assoc]
  exact hx _ _ (hy s o'' h)

theorem accepts (h : Leads o x o') : Accepts o x o' := by
  have hx := h [] o' (.nil o')
  rwa [List.append_nil] at hx

theorem flatMap {α : Type} {f : α → List Char} {l : List α} (hf : ∀ a ∈ l, Leads o (f a) o) :
    Leads o (l.flatMap f) o := by
  induction l with
  | nil => exact nil o
  | cons a rest ih =>
    rw [List.flatMap_cons]
    exact (hf a (by simp)).append (ih fun b hb => hf b (by simp [hb]))

end Leads

/-! ## Nodes -/

theorem leads_blank {o : Outline} {x : List Char} (hx : ∀ c ∈ x, c = '\n' ∨ c = ' ') :
    Leads o x o := by
  intro s o'' h
  refine h.text (.of_notMem fun hmem => ?_) (fun hmem => ?_) fun _ c hc => ?_
  · rcases hx _ hmem with h | h <;> cases h
  · rcases hx _ hmem with h | h <;> cases h
  · rcases hx c hc with rfl | rfl <;> decide

theorem leads_lineBreak (o : Outline) (options : PrintOptions) (depth : Nat) :
    Leads o (lineBreak options depth) o := by
  refine leads_blank fun c hc => ?_
  rcases List.mem_cons.1 hc with rfl | hc
  · exact .inl rfl
  · exact .inr (List.eq_of_mem_replicate hc)

/-- Content that is read again as what it is.  Only a document holds a root. -/
structure IsShown (content : Content) : Prop where
  isPrintable : IsPrintable content
  ne_root : content ≠ .root
  cdata : ∀ s, content = .cdata s → Text.IsBody "]]>".toList s.toList

theorem notMem_escapeText (s : List Char) : '<' ∉ s.flatMap escapeText := by
  intro h
  obtain ⟨c, -, hc⟩ := List.mem_flatMap.1 h
  unfold escapeText at hc
  split at hc
  · revert hc; decide
  · revert hc; decide
  · next hlt => exact hlt (List.mem_singleton.1 hc).symm

theorem leads_printLeaf {o : Outline} {content : Content} (h : IsShown content)
    (hopen : o.names = [] → content.characters? = none) : Leads o (printLeaf content) o := by
  intro s o'' hs
  cases content with
  | root => exact hs
  | element e => exact hs
  | text u =>
    refine hs.text (Resolves.flatMap Resolves.escapeText u.toList) (notMem_escapeText _) ?_
    intro hnames
    cases hopen hnames
  | comment u => exact hs.comment h.isPrintable.isWritable
  | cdata u =>
    refine hs.cdata (h.cdata u rfl) fun hnames => ?_
    cases hopen hnames
  | instruction target body => exact hs.instruction h.isPrintable.isWritable
  | doctype body => exact hs.doctype h.isPrintable

section Tags

variable {names : List (List Char)} {hasRoot : Bool}

theorem leads_startTag {e : Element} (he : e.IsPlain) (options : PrintOptions)
    (hfirst : names = [] → hasRoot = false) :
    Leads ⟨names, hasRoot⟩ ('<' :: printHead options e ++ ['>'])
      ⟨e.name.full.toList :: names, true⟩ := by
  intro s o'' h
  rw [List.append_assoc, List.singleton_append]
  exact Accepts.startTag he options hfirst h

theorem leads_emptyTag {e : Element} (he : e.IsPlain) (options : PrintOptions)
    (hfirst : names = [] → hasRoot = false) :
    Leads ⟨names, hasRoot⟩ ('<' :: printHead options e ++ ['/', '>']) ⟨names, true⟩ := by
  intro s o'' h
  rw [List.append_assoc]
  exact Accepts.emptyTag he options hfirst h

theorem leads_endTag {n : QName} (hn : n.IsWord) :
    Leads ⟨n.full.toList :: names, hasRoot⟩ ('<' :: '/' :: n.full.toList ++ ['>'])
      ⟨names, hasRoot⟩ := by
  intro s o'' h
  rw [List.append_assoc, List.singleton_append]
  exact Accepts.endTag hn h

theorem leads_printElement (options : PrintOptions) (depth : Nat) {e : Element} (he : e.IsPlain)
    (broken : Bool) {children : List (List Char)} (hfirst : names = [] → hasRoot = false)
    (hchildren : ∀ child ∈ children,
      Leads ⟨e.name.full.toList :: names, true⟩ child ⟨e.name.full.toList :: names, true⟩) :
    Leads ⟨names, hasRoot⟩ (printElement options depth e broken children) ⟨names, true⟩ := by
  have hstart := leads_startTag he options hfirst
  have hend : Leads ⟨e.name.full.toList :: names, true⟩
      ('<' :: '/' :: e.name.full.toList ++ ['>']) ⟨names, true⟩ := leads_endTag he.name.toIsWord
  have hbreak : ∀ level, Leads ⟨e.name.full.toList :: names, true⟩
      (if broken then lineBreak options level else []) ⟨e.name.full.toList :: names, true⟩ := by
    intro level
    split
    · exact leads_lineBreak _ options level
    · exact .nil _
  rw [printElement]
  simp only
  split
  · split
    · exact leads_emptyTag he options hfirst
    · have hall := hstart.append hend
      rwa [List.append_assoc, List.singleton_append] at hall
  · have hbelow := Leads.flatMap fun child hchild =>
      (hbreak (depth + 1)).append (hchildren child hchild)
    have hall := ((hstart.append hbelow).append (hbreak depth)).append hend
    rwa [List.append_assoc ('<' :: printHead options e), List.singleton_append] at hall

end Tags

theorem leads_printNode_misc {d : Document} (options : PrintOptions) (bound depth : Nat)
    {id : NodeId} (hshown : IsShown (d.content id)) (hmisc : (d.content id).isMisc = true) (o : Outline) :
    Leads o (printNode options d bound depth id) o := by
  have hleaf := leads_printLeaf (o := o) hshown
  cases bound with
  | zero =>
    refine hleaf fun _ => ?_
    cases hc : d.content id <;> rw [hc] at hmisc <;> first | rfl | cases hmisc
  | succ n =>
    rw [printNode]
    cases hc : d.content id <;> rw [hc] at hmisc hleaf <;>
      first | exact hleaf fun _ => rfl | cases hmisc

section Nodes

variable {d : Document} {B : NodeId → Prop} (hbelow : ∀ p, B p → ∀ c ∈ d.children p, B c)
  (hshown : ∀ c, B c → IsShown (d.content c)) (options : PrintOptions)
include hbelow hshown

/-- Inside an element every node leaves the outline as it is.  The induction is on
the bound; nodes below it are not printed at all. -/
theorem leads_printNode (bound depth : Nat) {id : NodeId} (hid : B id) {o : Outline}
    (hopen : o.names ≠ []) (hroot : o.hasRoot = true) :
    Leads o (printNode options d bound depth id) o := by
  induction bound generalizing depth id o with
  | zero => exact leads_printLeaf (hshown id hid) fun hnames => absurd hnames hopen
  | succ n ih =>
    have hleaf := fun content => @leads_printLeaf o content
    obtain ⟨names, hasRoot⟩ := o
    simp only at hopen hroot
    subst hroot
    have hcontent := hshown id hid
    rw [printNode]
    cases hc : d.content id with
    | root => exact absurd hc hcontent.ne_root
    | element e =>
      have he := hcontent.isPrintable.isPlain e hc
      refine leads_printElement options depth he _ (fun hnames => absurd hnames hopen) ?_
      intro child hchild
      obtain ⟨c, hc', rfl⟩ := List.mem_map.1 hchild
      exact ih (depth + 1) (hbelow id hid c hc') (by simp) rfl
    | text s => exact hleaf _ (hc ▸ hcontent) fun hnames => absurd hnames hopen
    | comment s => exact hleaf _ (hc ▸ hcontent) fun hnames => absurd hnames hopen
    | cdata s => exact hleaf _ (hc ▸ hcontent) fun hnames => absurd hnames hopen
    | instruction target body => exact hleaf _ (hc ▸ hcontent) fun hnames => absurd hnames hopen
    | doctype body => exact hleaf _ (hc ▸ hcontent) fun hnames => absurd hnames hopen

theorem leads_printNode_element (bound depth : Nat) {id : NodeId} (hid : B id)
    (helement : d.isElement id = true) :
    Leads ⟨[], false⟩ (printNode options d (bound + 1) depth id) ⟨[], true⟩ := by
  obtain ⟨e, he⟩ := Option.isSome_iff_exists.1 helement
  have hc := Content.eq_element_of_element? he
  rw [printNode]
  simp only [hc]
  refine leads_printElement options depth ((hshown id hid).isPrintable.isPlain e hc) _
    (fun _ => rfl) fun child hchild => ?_
  obtain ⟨c, hc', rfl⟩ := List.mem_map.1 hchild
  exact leads_printNode hbelow hshown options bound (depth + 1) (hbelow id hid c hc')
    (by simp) rfl

end Nodes

/-! ## Documents -/

theorem leads_intercalate {o : Outline} {sep : List Char} (hsep : Leads o sep o)
    {xs : List (List Char)} (hxs : ∀ x ∈ xs, Leads o x o) : Leads o (sep.intercalate xs) o := by
  induction xs with
  | nil => exact .nil o
  | cons x rest ih =>
    by_cases hrest : rest = []
    · subst hrest
      rw [List.intercalate_singleton]
      exact hxs x (by simp)
    · rw [List.intercalate_cons_of_ne_nil hrest]
      exact ((hxs x (by simp)).append hsep).append (ih fun y hy => hxs y (by simp [hy]))

/-- Among texts that change nothing, one that leads on. -/
theorem leads_intercalate_middle {o o' : Outline} {sep : List Char} (hsep : ∀ o, Leads o sep o)
    {front back : List (List Char)} {x : List Char} (hfront : ∀ y ∈ front, Leads o y o)
    (hx : Leads o x o') (hback : ∀ y ∈ back, Leads o' y o') :
    Leads o (sep.intercalate (front ++ x :: back)) o' := by
  induction front with
  | nil =>
    rw [List.nil_append]
    by_cases hempty : back = []
    · subst hempty
      rwa [List.intercalate_singleton]
    · rw [List.intercalate_cons_of_ne_nil hempty]
      exact (hx.append (hsep o')).append (leads_intercalate (hsep o') hback)
  | cons y rest ih =>
    rw [List.cons_append, List.intercalate_cons_of_ne_nil (by simp)]
    exact ((hfront y (by simp)).append (hsep o)).append (ih fun z hz => hfront z (by simp [hz]))

/-- No byte order mark is taken from an accepted text. -/
theorem dropMark_of_accepts {hasRoot : Bool} {s : List Char} {o' : Outline}
    (h : Accepts ⟨[], hasRoot⟩ s o') : dropMark s = s := by
  unfold dropMark
  split
  · next cs =>
    exfalso
    obtain ⟨t, ht, htop, -⟩ := h.text_of_accepts
    rw [List.takeWhile_cons_of_pos (by decide)] at ht
    rw [resolve] at ht
    rw [resolveFrom, if_neg (by decide)] at ht
    simp only [bind, Except.bind] at ht
    split at ht
    · cases ht
    · cases ht
      have hblank := htop rfl '\ufeff' (by simp)
      revert hblank
      decide
  · rfl

theorem read_of_accepts {s : String} {hasRoot : Bool}
    (h : Accepts ⟨[], false⟩ s.toList ⟨[], hasRoot⟩) :
    if hasRoot then ∃ d, read s = .ok d ∧ ∀ j, IsPrintable (d.content j)
    else ∃ e, read s = .error e := by
  have hempty : Builder.empty.IsSound IsPrintable :=
    .empty ⟨trivial, fun _ h => (nomatch h), fun _ h => (nomatch h)⟩
  obtain ⟨b, hread, hb, hsound⟩ := h.readPieces rfl hempty 0
  have hpending : b.pending = [] := by
    have hnames := congrArg Outline.names hb
    simpa [Builder.outline] using hnames
  have hhas : b.hasRoot = hasRoot := congrArg Outline.hasRoot hb
  rw [read]
  simp only [dropMark_of_accepts h, hread, hpending, hhas]
  cases hasRoot with
  | true => exact ⟨b.document, rfl, hsound.contents⟩
  | false => exact ⟨_, rfl⟩

end Markup

/-- One element at the top, and no characters beside it. -/
def Document.HasOneRoot (d : Document) : Prop :=
  ∃ r, d.childElements Document.root = [r]
    ∧ ∀ c ∈ d.children Document.root, (d.content c).characters? = none

namespace Markup

open Document (root)

section Documents

variable {d : Document} (hd : d.IsRooted) (hcontents : ∀ j, IsPrintable (d.content j))
  (hcdata : ∀ c s, d.IsAbove root c → d.content c = .cdata s → Text.IsBody "]]>".toList s.toList)
include hd hcontents hcdata

theorem isShown_of_isAbove {c : NodeId} (hc : d.IsAbove root c) : IsShown (d.content c) := by
  obtain ⟨p, -, hp⟩ := Relation.TransGen.tail'_iff.1 hc
  exact ⟨hcontents c, hd.only_root c p hp, fun s => hcdata c s hc⟩

omit hcontents hcdata in
theorem isAbove_of_mem_children {p : NodeId} (hp : p = root ∨ d.IsAbove root p) {c : NodeId}
    (hc : c ∈ d.children p) : d.IsAbove root c := by
  have hparent := (hd.isForest.mem_children_iff p c).1 hc
  rcases hp with rfl | hp
  · exact Document.isAbove_of_parent hparent
  · exact hp.tail hparent

omit hcontents hcdata in
theorem isMisc_of_mem_children {c : NodeId} (hc : c ∈ d.children root)
    (helement : d.isElement c = false) (hcharacters : (d.content c).characters? = none) :
    (d.content c).isMisc = true :=
  Content.isMisc_of_not (hd.only_root c root ((hd.isForest.mem_children_iff root c).1 hc))
    helement hcharacters

omit hcontents hcdata hd in
theorem leads_separator (options : PrintOptions) (o : Outline) :
    Leads o (if options.pretty then ['\n'] else []) o := by
  split
  · exact leads_blank fun c hc => .inl (List.mem_singleton.1 hc)
  · exact .nil o

/-- A document with one root element is read again. -/
theorem read_print_of_hasOneRoot (hone : d.HasOneRoot) (options : PrintOptions) :
    ∃ d', read (print options d) = .ok d' ∧ ∀ j, IsPrintable (d'.content j) := by
  obtain ⟨r, helements, hcharacters⟩ := hone
  have hr : r ∈ d.children root ∧ d.isElement r = true := by
    have hmem : r ∈ d.childElements root := by rw [helements]; simp
    exact List.mem_filter.1 hmem
  obtain ⟨front, back, hchildren⟩ := List.append_of_mem hr.1
  have hothers : (∀ c ∈ front, d.isElement c = false) ∧ ∀ c ∈ back, d.isElement c = false := by
    rw [Document.childElements] at helements
    rw [hchildren, List.filter_append, List.filter_cons_of_pos hr.2,
      List.append_eq_singleton_iff] at helements
    rcases helements with ⟨hfront, hback⟩ | ⟨-, hnil⟩
    · have hback' := (List.cons.inj hback).2
      rw [List.filter_eq_nil_iff] at hfront hback'
      exact ⟨fun c hc => by simpa using hfront c hc, fun c hc => by simpa using hback' c hc⟩
    · cases hnil
  have habove : ∀ c ∈ d.children root, d.IsAbove root c := fun c hc =>
    isAbove_of_mem_children hd (.inl rfl) hc
  have hmisc : ∀ c ∈ d.children root, d.isElement c = false → ∀ o,
      Leads o (printNode options d d.size 0 c) o := by
    intro c hc helement o
    exact leads_printNode_misc options d.size 0
      (isShown_of_isAbove hd hcontents hcdata (habove c hc))
      (isMisc_of_mem_children hd hc helement (hcharacters c hc)) o
  have hroot : Leads ⟨[], false⟩ (printNode options d d.size 0 r) ⟨[], true⟩ := by
    obtain ⟨n, hn⟩ : ∃ n, d.size = n + 1 :=
      Nat.exists_eq_succ_of_ne_zero (Nat.ne_of_gt hd.size_pos)
    have hbelow : ∀ p, d.IsAbove root p → ∀ c ∈ d.children p, d.IsAbove root c := fun p hp c hc =>
      isAbove_of_mem_children hd (.inr hp) hc
    rw [hn]
    exact leads_printNode_element hbelow
      (fun c hc => isShown_of_isAbove hd hcontents hcdata hc) options n 0 (habove r hr.1) hr.2
  have hall : Leads ⟨[], false⟩ (print options d).toList ⟨[], true⟩ := by
    rw [print, String.toList_ofList, hchildren, List.map_append, List.map_cons]
    refine leads_intercalate_middle (leads_separator options) (fun y hy => ?_) hroot fun y hy => ?_
    · obtain ⟨c, hc, rfl⟩ := List.mem_map.1 hy
      exact hmisc c (by simp [hchildren, hc]) (hothers.1 c hc) _
    · obtain ⟨c, hc, rfl⟩ := List.mem_map.1 hy
      exact hmisc c (by simp [hchildren, hc]) (hothers.2 c hc) _
  exact read_of_accepts hall.accepts

/-- A document without root element is not read again. -/
theorem read_print_of_isMisc (hmisc : ∀ c ∈ d.children root, (d.content c).isMisc = true)
    (options : PrintOptions) : ∃ e, read (print options d) = .error e := by
  have hall : Leads ⟨[], false⟩ (print options d).toList ⟨[], false⟩ := by
    rw [print, String.toList_ofList]
    refine leads_intercalate (leads_separator options _) fun y hy => ?_
    obtain ⟨c, hc, rfl⟩ := List.mem_map.1 hy
    have habove := isAbove_of_mem_children hd (.inl rfl) hc
    exact leads_printNode_misc options d.size 0 (isShown_of_isAbove hd hcontents hcdata habove)
      (hmisc c hc) _
  exact read_of_accepts hall.accepts

end Documents

end Markup
end SvgCompact
