import SvgCompact.Pass.Merging
import SvgCompact.Proofs.Element.Lookup
import SvgCompact.Proofs.Markup.Building
import SvgCompact.Proofs.Pass.Editing
import SvgCompact.Proofs.Pass.Walks
import SvgCompact.Proofs.Path.Joining

/-!
Merging regroups commands.

`drawing` lists what the children of a node draw: the commands of each path that can be
read, with the attributes it is drawn with, and every other child as it stands.  A path
that joins a run goes right behind the commands of that run, so the list stays the same
with each step, and over the whole walk.
-/

namespace SvgCompact
namespace Merging

open Document

/-- A part of what the children of a node draw. -/
inductive Part
  /-- A command of a path, and the attributes of that path beside its data. -/
  | command (attributes : Set Attribute) (command : Command Float)
  /-- A child as it stands. -/
  | node (id : NodeId) (content : Content)

def otherAttributes (e : Element) : Set Attribute :=
  {a | a ∈ e.attributes ∧ a.name.isNamed "d" = false}

/-- What a node draws.  Commands are absolute, and zeros have no sign. -/
def parts (d : Document) (id : NodeId) : List Part :=
  match d.element? id, pathOf? d id with
  | some e, some path =>
    if e.isNamed "path" && d.isEmpty id then
      (Path.unsigned path.absolute).map (.command (otherAttributes e))
    else [.node id (d.content id)]
  | _, _ => [.node id (d.content id)]

/-- What the children of a node draw, in order. -/
def drawing (d : Document) (id : NodeId) : List Part :=
  (d.children id).flatMap (parts d)

/-- Whether a node is a path without children, and its data reads as `path`. -/
structure Draws (d : Document) (id : NodeId) (e : Element) (path : Path Float) : Prop where
  element : d.element? id = some e
  named : e.isNamed "path" = true
  empty : d.children id = []
  reads : pathOf? d id = some path

/-- Whether the numbers of all paths in a document are finite. -/
def HasFinitePaths (d : Document) : Prop :=
  ∀ id e path, Draws d id e path → Path.IsFinite path

variable {d d' : Document} {id c : NodeId} {e e' : Element} {path : Path Float}

theorem parts_of_draws (h : Draws d id e path) :
    parts d id = (Path.unsigned path.absolute).map (.command (otherAttributes e)) := by
  have hdrawn : (e.isNamed "path" && d.isEmpty id) = true := by
    rw [h.named, isEmpty, h.empty]
    rfl
  simp only [parts, h.element, h.reads, hdrawn, if_true]

theorem parts_congr (hcontent : d'.content id = d.content id)
    (hempty : d'.isEmpty id = d.isEmpty id) : parts d' id = parts d id := by
  have helement : d'.element? id = d.element? id := congrArg Content.element? hcontent
  rw [parts, parts, pathOf?, pathOf?, helement, hcontent, hempty]

theorem exists_data (h : Draws d id e path) :
    ∃ text, e.attr? "d" = some text ∧ Path.read text = .ok path := by
  have hreads := h.reads
  rw [pathOf?, h.element, Option.bind_some, Option.bind_eq_some_iff] at hreads
  obtain ⟨text, htext, hread⟩ := hreads
  refine ⟨text, htext, ?_⟩
  cases hr : Path.read text with
  | error fault => rw [hr] at hread; cases hread
  | ok p => rw [hr] at hread; cases hread; rfl

theorem hasAttr_of_draws (h : Draws d id e path) : e.hasAttr "d" = true := by
  obtain ⟨text, htext, -⟩ := exists_data h
  rw [Element.attr?, Option.map_eq_some_iff] at htext
  obtain ⟨a, ha, -⟩ := htext
  rw [Element.hasAttr, ha]
  rfl

theorem draws_of_isMergeable (h : isMergeable d id = true) (he : d.element? id = some e)
    (hpath : pathOf? d id = some path) : Draws d id e path := by
  obtain ⟨e', he', hnamed⟩ := isNamed_iff.1 (isNamed_of_isMergeable h)
  obtain rfl : e' = e := Option.some.inj (he'.symm.trans he)
  exact ⟨he, hnamed, children_of_isMergeable h, hpath⟩

/-! ## Attributes -/

theorem read_d : QName.read "d" = QName.plain "d" := by decide

theorem isNamed_d {a : Attribute} (h : a.name = QName.read "d") : a.name.isNamed "d" = true :=
  (Element.isNamed_iff_eq_plain read_d).2 (h.trans read_d)

theorem otherAttributes_setAttr (e : Element) (text : String) :
    otherAttributes (e.setAttr "d" text) = otherAttributes e := by
  have hnamed : (⟨QName.read "d", text⟩ : Attribute).name.isNamed "d" = true := isNamed_d rfl
  ext a
  simp only [otherAttributes, Set.mem_ofPred_eq, Element.setAttr]
  rcases Element.attributes_put_cases e ⟨QName.read "d", text⟩ with
    ⟨front, held, back, hold, hheld, -, hnew⟩ | ⟨-, hnew⟩
  · have hheldNamed := isNamed_d hheld
    rw [hnew, hold]
    grind
  · rw [hnew]
    grind

theorem hasAttr_iff : e.hasAttr "d" = true ↔ ∃ a ∈ e.attributes, a.name = QName.plain "d" := by
  rw [Element.hasAttr, Element.attribute?, List.find?_isSome]
  constructor
  · rintro ⟨a, ha, hnamed⟩
    exact ⟨a, ha, (Element.isNamed_iff_eq_plain read_d).1 hnamed⟩
  · rintro ⟨a, ha, hname⟩
    exact ⟨a, ha, (Element.isNamed_iff_eq_plain read_d).2 hname⟩

/-- The same number of attributes, and each of one among those of the other, so that names
do not repeat on either side: they are the same. -/
theorem otherAttributes_eq_of_same (h : sameAttributes e e' = true)
    (hnodup : (e.attributes.map (·.name)).Nodup) (hnodup' : (e'.attributes.map (·.name)).Nodup)
    (hd : e.hasAttr "d" = true) : otherAttributes e' = otherAttributes e := by
  rw [sameAttributes, Bool.and_eq_true, beq_iff_eq, List.all_eq_true] at h
  obtain ⟨hlength, hall⟩ := h
  have hmem : ∀ a ∈ e'.attributes, a.name.isNamed "d" = false → a ∈ e.attributes := by
    intro a ha hother
    have hin := hall a ha
    rwa [hother, Bool.false_or, List.contains_iff_mem] at hin
  have hnames : (e'.attributes.map (·.name)).Perm (e.attributes.map (·.name)) := by
    refine List.Subperm.perm_of_length_le (List.subperm_of_subset hnodup' fun n hn => ?_) ?_
    · obtain ⟨a, ha, rfl⟩ := List.mem_map.1 hn
      cases hnamed : a.name.isNamed "d" with
      | true =>
        obtain ⟨b, hb, hname⟩ := hasAttr_iff.1 hd
        rw [(Element.isNamed_iff_eq_plain read_d).1 hnamed, ← hname]
        exact List.mem_map_of_mem hb
      | false => exact List.mem_map_of_mem (hmem a ha hnamed)
    · rw [List.length_map, List.length_map, hlength]
  ext a
  constructor
  · rintro ⟨ha, hother⟩
    exact ⟨hmem a ha hother, hother⟩
  · rintro ⟨ha, hother⟩
    obtain ⟨b, hb, hname⟩ := List.mem_map.1 (hnames.mem_iff.2 (List.mem_map_of_mem ha))
    have hb' := hmem b hb (by rw [hname]; exact hother)
    rw [List.inj_on_of_nodup_map hnodup hb' ha hname] at hb
    exact ⟨hb, hother⟩

/-! ## A path joins a run -/

/-- Whether the path that a run is collected in draws what the run does. -/
structure IsTarget (d : Document) (t : Target) : Prop where
  draws : ∃ e q, Draws d t.id e q ∧ Path.unsigned q = Path.unsigned t.path
  finite : Path.IsFinite t.path
  move : Path.BeginsWithMove t.path

theorem isTarget_of_draws (hd : HasFinitePaths d) (h : Draws d id e path) :
    IsTarget d ⟨id, path⟩ := by
  obtain ⟨text, -, hread⟩ := exists_data h
  exact ⟨⟨e, path, h, rfl⟩, hd id e path h, Path.beginsWithMove_of_read hread⟩

section Absorbing

variable (options : Options) (t : Target)

theorem children_absorb (hd : d.IsForest) (id c : NodeId) (path : Path Float) :
    (absorb options d t c path).1.children id = (d.children id).filter (· != c) := by
  have hlinks : (d.updateElement t.id
      (·.setAttr "d" (Path.write options.format (t.path.join path)))).IsForest :=
    hd.of_links (fun j => parent_updateElement ..) fun j => children_updateElement ..
  rw [absorb, hlinks.children_detach, children_updateElement]

theorem element?_absorb (d : Document) (id c : NodeId) (path : Path Float) :
    (absorb options d t c path).1.element? id =
      if id = t.id then
        (d.element? id).map (·.setAttr "d" (Path.write options.format (t.path.join path)))
      else d.element? id := by
  rw [absorb, element?, content_detach, ← element?, element?_updateElement]

theorem content_absorb (d : Document) {id c : NodeId} (path : Path Float) (hid : id ≠ t.id) :
    (absorb options d t c path).1.content id = d.content id := by
  rw [absorb, content_detach, content_updateElement, if_neg hid]

variable {options t}

/-- The run's path reads back as the joined path. -/
theorem draws_absorb (hprecision : options.format.precision = none) (hd : d.IsForest)
    (ht : IsTarget d t) (hfinite : Path.IsFinite path) (hmove : Path.BeginsWithMove path)
    (he : d.element? t.id = some e) :
    ∃ q, Draws (absorb options d t c path).1 t.id
        (e.setAttr "d" (Path.write options.format (t.path.join path))) q ∧
      Path.unsigned q = Path.unsigned (t.path.join path) ∧ Path.IsFinite q := by
  obtain ⟨e₀, q₀, hdraws, -⟩ := ht.draws
  obtain rfl : e = e₀ := Option.some.inj (he.symm.trans hdraws.element)
  obtain ⟨q, hq, hsame⟩ := Path.read_write_unrounded (ht.move.join hmove)
    (ht.finite.join hfinite) hprecision
  have helement := element?_absorb options t d t.id c path
  rw [if_pos rfl, he] at helement
  refine ⟨q, ⟨helement, ?_, ?_, ?_⟩, hsame⟩
  · rw [Element.isNamed, Element.setAttr, Element.name_put]
    exact hdraws.named
  · rw [children_absorb options t hd, hdraws.empty]
    rfl
  · have hdata : (e.setAttr "d" (Path.write options.format (t.path.join path))).attr? "d" =
        some (Path.write options.format (t.path.join path)) := by
      rw [Element.setAttr, Element.attr?_put read_d, if_pos read_d]
    rw [pathOf?, helement]
    simp only [Option.map_some, Option.bind_some, hdata, hq]
    rfl

/-- A path may join the run right before it if both have the same other attributes. -/
structure Joins (d : Document) (t : Target) (c : NodeId) (path : Path Float) : Prop where
  target : IsTarget d t
  alike : ∃ e e', d.element? t.id = some e ∧ Draws d c e' path ∧ sameAttributes e e' = true

variable (hprecision : options.format.precision = none) (hd : d.IsSound fun _ => True)
  (hfinite : HasFinitePaths d) (hjoins : Joins d t c path) {n : NodeId} {front rest : List NodeId}
  (hchildren : d.children n = front ++ t.id :: c :: rest)

include hd hchildren in
theorem children_absorb_eq (id : NodeId) :
    (absorb options d t c path).1.children id =
      if id = n then front ++ t.id :: rest else d.children id := by
  have hnodup := hd.isForest.nodup_children n
  have hsplit : front ++ t.id :: c :: rest = (front ++ [t.id]) ++ c :: rest :=
    List.append_cons front t.id (c :: rest)
  rw [hchildren, hsplit] at hnodup
  rw [children_absorb options t hd.isForest]
  split
  · next hid =>
    have hfront : c ∉ front ++ [t.id] := fun hc =>
      (List.nodup_append.1 hnodup).2.2 c hc c List.mem_cons_self rfl
    rw [hid, hchildren, hsplit, ← hnodup.erase_eq_filter, List.erase_append_right _ hfront,
      List.erase_cons_head, ← List.append_cons]
  · next hid =>
    refine List.filter_eq_self.2 fun k hk => ?_
    have hc : d.parent c = some n := by
      rw [← hd.isForest.mem_children_iff, hchildren]
      simp
    rw [bne_iff_ne]
    rintro rfl
    rw [hd.isForest.mem_children_iff, hc] at hk
    exact hid (Option.some.inj hk).symm

include hd hchildren in
theorem parts_absorb_of_ne (hid : id ≠ t.id) :
    parts (absorb options d t c path).1 id = parts d id := by
  refine parts_congr (content_absorb options t d path hid) ?_
  rw [isEmpty, isEmpty, children_absorb_eq hd hchildren]
  split
  · next hn =>
    rw [hn, hchildren]
    cases front <;> rfl
  · rfl

include hprecision hd hfinite hjoins

/-- The run's path goes on with the commands of the path that joins. -/
theorem parts_absorb :
    parts (absorb options d t c path).1 t.id = parts d t.id ++ parts d c ∧
      IsTarget (absorb options d t c path).1 { t with path := t.path.join path } := by
  obtain ⟨e, e', he, hc, hsame⟩ := hjoins.alike
  obtain ⟨e₀, q₀, hbefore, hq₀⟩ := hjoins.target.draws
  obtain rfl : e = e₀ := Option.some.inj (he.symm.trans hbefore.element)
  obtain ⟨text, -, hread⟩ := exists_data hc
  have hmove := Path.beginsWithMove_of_read hread
  have hpath := hfinite c e' path hc
  obtain ⟨q, hafter, hq, -⟩ :=
    draws_absorb (c := c) hprecision hd.isForest hjoins.target hpath hmove he
  refine ⟨?_, ⟨_, q, hafter, hq⟩, hjoins.target.finite.join hpath, hjoins.target.move.join hmove⟩
  have hothers : otherAttributes e' = otherAttributes e :=
    otherAttributes_eq_of_same hsame (hd.names _ e he).nodup (hd.names _ e' hc.element).nodup
      (hasAttr_of_draws hbefore)
  have habsolute : Path.unsigned q.absolute =
      Path.unsigned q₀.absolute ++ Path.unsigned path.absolute := by
    rw [Path.unsigned_absolute hq, Path.absolute_join t.path hmove, Path.unsigned_append,
      Path.unsigned_absolute hq₀]
  rw [parts_of_draws hafter, parts_of_draws hbefore, parts_of_draws hc, habsolute,
    otherAttributes_setAttr, hothers, List.map_append]

include hchildren

theorem hasFinitePaths_absorb : HasFinitePaths (absorb options d t c path).1 := by
  intro id e₁ q₁ hdraws
  by_cases hid : id = t.id
  · obtain ⟨e, e', he, hc, -⟩ := hjoins.alike
    obtain ⟨text, -, hread⟩ := exists_data hc
    obtain ⟨q, hafter, -, hq⟩ := draws_absorb (c := c) hprecision hd.isForest hjoins.target
      (hfinite c e' path hc) (Path.beginsWithMove_of_read hread) he
    rw [← hid] at hafter
    obtain rfl : q₁ = q := Option.some.inj (hdraws.reads.symm.trans hafter.reads)
    exact hq
  · have helement := element?_absorb options t d id c path
    rw [if_neg hid] at helement
    have hempty := hdraws.empty
    rw [children_absorb_eq hd hchildren] at hempty
    split at hempty
    · simp at hempty
    · refine hfinite id e₁ q₁ ⟨helement ▸ hdraws.element, hdraws.named, hempty, ?_⟩
      rw [← hdraws.reads, pathOf?, pathOf?, helement]

theorem drawing_absorb (id : NodeId) :
    drawing (absorb options d t c path).1 id = drawing d id := by
  have hnodup := hd.isForest.nodup_children n
  rw [hchildren] at hnodup
  have hothers : ∀ l : List NodeId, t.id ∉ l →
      l.flatMap (parts (absorb options d t c path).1) = l.flatMap (parts d) := by
    intro l hl
    refine List.flatMap_congr fun k hk => parts_absorb_of_ne hd hchildren ?_
    rintro rfl
    exact hl hk
  rw [drawing, drawing, children_absorb_eq hd hchildren]
  split
  · next hid =>
    obtain ⟨-, hback, hdisjoint⟩ := List.nodup_append.1 hnodup
    have hfront : t.id ∉ front := fun h => hdisjoint t.id h t.id List.mem_cons_self rfl
    have hrest : t.id ∉ rest := fun h =>
      (List.nodup_cons.1 hback).1 (List.mem_cons_of_mem c h)
    rw [hid, hchildren, List.flatMap_append, List.flatMap_append, List.flatMap_cons,
      List.flatMap_cons, List.flatMap_cons, hothers front hfront, hothers rest hrest,
      (parts_absorb hprecision hd hfinite hjoins).1, List.append_assoc]
  · next hid =>
    refine hothers _ fun hmem => hid ?_
    have hn : t.id ∈ d.children n := by
      rw [hchildren]
      simp
    rw [hd.isForest.mem_children_iff] at hmem hn
    exact Option.some.inj (hmem.symm.trans hn)

end Absorbing

/-! ## Runs -/

/-- What is so of the document and the run when the children `rest` of a node are still to
come: no drawing has changed, and the run's path is right before them. -/
structure Follows (start : Document) (n : NodeId) (rest : List NodeId)
    (s : Document × Option Target) : Prop where
  sound : s.1.IsSound fun _ => True
  finite : HasFinitePaths s.1
  drawing : ∀ id, drawing s.1 id = drawing start id
  ahead : rest <:+ s.1.children n
  run : ∀ t ∈ s.2, IsTarget s.1 t ∧ t.id :: rest <:+ s.1.children n

variable {options : Options} {start : Document} {n : NodeId} {rest : List NodeId}
  {s : Document × Option Target}

/-- A run that ends, or begins with the next child. -/
theorem Follows.next (h : Follows start n (c :: rest) s) {run : Option Target}
    (hrun : ∀ t ∈ run, t.id = c ∧ IsTarget s.1 t) : Follows start n rest (s.1, run) := by
  refine ⟨h.sound, h.finite, h.drawing, (List.suffix_cons c rest).trans h.ahead, fun t ht => ?_⟩
  obtain ⟨hid, htarget⟩ := hrun t ht
  exact ⟨htarget, hid ▸ h.ahead⟩

/-- The run goes on with the next child. -/
theorem Follows.absorb (hprecision : options.format.precision = none)
    (h : Follows start n (c :: rest) s) {t : Target} (ht : t ∈ s.2)
    (hc : s.1.isNamed c "path" = true) (hjoins : Joins s.1 t c path) :
    Follows start n rest (absorb options s.1 t c path) := by
  obtain ⟨-, front, hchildren⟩ := h.run t ht
  have hafter : (Merging.absorb options s.1 t c path).1.children n = front ++ t.id :: rest := by
    rw [children_absorb_eq h.sound hchildren.symm, if_pos rfl]
  refine ⟨(edits_absorb options t path hc).isSound h.sound, ?_, fun id => ?_, ?_, fun u hu => ?_⟩
  · exact hasFinitePaths_absorb hprecision h.sound h.finite hjoins hchildren.symm
  · rw [drawing_absorb hprecision h.sound h.finite hjoins hchildren.symm, h.drawing]
  · rw [hafter]
    exact (List.suffix_cons t.id rest).trans (List.suffix_append front _)
  · cases hu
    rw [hafter]
    exact ⟨(parts_absorb hprecision h.sound h.finite hjoins).2, List.suffix_append front _⟩

/-- One child: the run goes on with it, begins with it, or is over. -/
theorem follows_advance (hprecision : options.format.precision = none)
    (h : Follows start n (c :: rest) s) :
    Follows start n rest (advance options s.1 s.2 c) := by
  rcases advance_cases options s.1 s.2 c with ⟨run, heq, hrun⟩ | ⟨t, path, hrun, hjoins, heq⟩
  · rw [heq]
    refine h.next fun t ht => ?_
    obtain ⟨hmergeable, rfl, hpath⟩ := hrun t ht
    obtain ⟨e, he⟩ := Option.isSome_iff_exists.1
      (isElement_of_isNamed (isNamed_of_isMergeable hmergeable))
    exact ⟨rfl, isTarget_of_draws h.finite (draws_of_isMergeable hmergeable he hpath)⟩
  · obtain ⟨before, next, hbefore, hnext, hsame⟩ := hjoins.alike
    rw [heq]
    refine h.absorb hprecision hrun (isNamed_of_isMergeable hjoins.isMergeable) ?_
    exact ⟨(h.run t hrun).1, before, next, hbefore,
      draws_of_isMergeable hjoins.isMergeable hnext hjoins.reads, hsame⟩

theorem follows_foldl (hprecision : options.format.precision = none)
    (h : Follows start n rest s) :
    Follows start n [] (rest.foldl (fun (d, run) c => advance options d run c) s) := by
  induction rest generalizing s with
  | nil => exact h
  | cons c rest ih => exact ih (follows_advance hprecision h)

/-- Merging the children of one node changes no drawing. -/
theorem follows_mergeChildren (hprecision : options.format.precision = none)
    (hd : d.IsSound fun _ => True) (hfinite : HasFinitePaths d) (id : NodeId) :
    ∃ run, Follows d id [] (mergeChildren options d id, run) :=
  ⟨_, follows_foldl hprecision
    ⟨hd, hfinite, fun _ => rfl, List.suffix_refl _, fun t ht => by cases ht⟩⟩

/-- Over the whole walk every node's children draw the same commands, in the same order and
with the same attributes, and the same other children between them. -/
theorem drawing_mergePaths (hprecision : options.format.precision = none)
    (hd : d.IsSound fun _ => True) (hfinite : HasFinitePaths d) (id : NodeId) :
    drawing ((Pass.mergePaths options).run d) id = drawing d id := by
  have hkeeps : Visit.Keeps
      (fun d id =>
        if d.isElement id then (mergeChildren options d id, Verdict.keep) else (d, Verdict.keep))
      fun d' => d'.IsSound (fun _ => True) ∧ HasFinitePaths d' ∧
        ∀ id, drawing d' id = drawing d id := by
    refine Visit.Keeps.of_keep (fun d' n p hd' _ => ?_) fun d' n => by split <;> rfl
    obtain ⟨hsound, hpaths, hsame⟩ := hd'
    split
    · obtain ⟨run, hfollows⟩ := follows_mergeChildren hprecision hsound hpaths n
      exact ⟨hfollows.sound, hfollows.finite, fun j => (hfollows.drawing j).trans (hsame j)⟩
    · exact ⟨hsound, hpaths, hsame⟩
  exact (hkeeps.topDown ⟨hd, hfinite, fun _ => rfl⟩).2.2 id

/-! A line and two more of its color, one of them relative, and a rectangle among them. -/

namespace Lines

def line (color data : String) : Element :=
  .ofAttributes (.plain "path") [⟨.plain "stroke", color⟩, ⟨.plain "d", data⟩]

def document : Document :=
  (((((Document.empty.append Document.root (.element (.ofAttributes (.plain "svg") []))).1.append 1
    (.element (line "red" "M0 0H4"))).1.append 1 (.element (line "red" "m0 9h4"))).1.append 1
      (.element (.ofAttributes (.plain "rect") []))).1.append 1
        (.element (line "red" "M0 18h4"))).1

theorem isSound_document : document.IsSound fun _ => True := by
  have helement : ∀ e : Element, Content.element e ≠ .root := fun e h => by cases h
  refine ⟨?_, fun j e he => ⟨trivial, fun _ _ => trivial, ?_⟩⟩
  · exact ((((Document.IsRooted.empty.append (by decide) (helement _)).append (by decide)
      (helement _)).append (by decide) (helement _)).append (by decide) (helement _)).append
        (by decide) (helement _)
  · exact Document.forall_element?_of_all (Q := fun e => (e.attributes.map (·.name)).Nodup)
      (by decide) he

theorem hasFinitePaths_document : HasFinitePaths document := by
  have hall : ∀ id < document.size, ∀ path ∈ pathOf? document id, Path.IsFinite path := by
    decide +kernel
  exact fun id e path h => hall id (Document.lt_size_of_element? h.element) path h.reads

end Lines

/-- The second line joins the first, and the last one stays behind the rectangle. -/
theorem drawing_lines :
    let run := (Pass.mergePaths Options.default).run Lines.document
    run.children 1 = [2, 4, 5] ∧
      (run.element? 2).bind (·.attr? "d") = some "M0 0H4M0 9h4" ∧
      drawing run 1 = drawing Lines.document 1 := by
  refine ⟨by decide +kernel, by decide +kernel, ?_⟩
  exact drawing_mergePaths rfl Lines.isSound_document Lines.hasFinitePaths_document 1

end Merging
end SvgCompact
