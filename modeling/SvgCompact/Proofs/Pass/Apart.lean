import SvgCompact.Proofs.Document.Cutting
import SvgCompact.Proofs.Geometry.Joined
import SvgCompact.Proofs.Pass.Merging

/-!
What is merged was apart.

A path is compared with the whole that it joins only.  What is apart from the whole is
apart from each of its parts, so the paths of a run are apart in pairs.
-/

namespace SvgCompact
namespace Merging

open Document

/-- Whether two paths that are drawn alike are apart.  Boxes that only touch are. -/
structure AreDisjoint (d : Document) (id : NodeId) (a b : Path Float) : Prop where
  /-- Their areas are apart. -/
  areas : Geometry.overlap a b = false
  /-- With a stroke of a certain width their boxes are apart when padded by half of it. -/
  strokes : d.styleMentions "stroke" = false → ∀ stroke width boxA boxB,
    effective? d id "stroke" = some stroke → stroke ≠ "none".toList →
    Decimal.read? ((effective? d id "stroke-width").getD ['1']) = some width →
    Geometry.boxOf? a = some boxA → Geometry.boxOf? b = some boxB →
    (boxA.pad (width.abs / 2.0)).overlaps (boxB.pad (width.abs / 2.0)) = false
  /-- A style sheet may set any stroke, and then one of them draws nothing or goes beyond
  all numbers. -/
  sheets : d.styleMentions "stroke" = true →
    ¬ ((a ≠ [] ∧ Path.IsFinite a) ∧ (b ≠ [] ∧ Path.IsFinite b))

variable {d d' : Document} {id c : NodeId} {a b whole path : Path Float}

theorem areApart_iff : areApart d id a b = true ↔
    Geometry.overlap a b = false ∧ ∀ width, strokeWidth? d id = some width →
      ∃ boxA boxB, Geometry.boxOf? a = some boxA ∧ Geometry.boxOf? b = some boxB ∧
        (boxA.pad (width / 2.0)).overlaps (boxB.pad (width / 2.0)) = false := by
  rw [areApart]
  cases Geometry.overlap a b with
  | true => simp
  | false =>
    cases strokeWidth? d id with
    | none => simp
    | some width =>
      cases ha : Geometry.boxOf? a with
      | none => simp
      | some boxA =>
        cases hb : Geometry.boxOf? b with
        | none => simp
        | some boxB => simp

theorem strokeWidth?_of_read {stroke : List Char} {width : Float}
    (hsheets : d.styleMentions "stroke" = false) (hstroke : effective? d id "stroke" = some stroke)
    (hne : stroke ≠ "none".toList)
    (hwidth : Decimal.read? ((effective? d id "stroke-width").getD ['1']) = some width) :
    strokeWidth? d id = some width.abs := by
  have hne' : ¬ (stroke == "none".toList) = true := fun h => hne (eq_of_beq h)
  simp only [strokeWidth?, hsheets, hstroke, hwidth, if_neg hne', Bool.false_eq_true, if_false,
    Option.getD_some]

theorem unpack_half_infinity :
    ((1.0 / 0.0 : Float) / 2.0).toModel.unpack = .infinity .positive := rfl

/-- What is apart from the whole is apart from each part. -/
theorem areDisjoint_of_areApart (hapart : areApart d id whole b = true)
    (hpart : Geometry.IsPart a whole) (ha : Path.BeginsWithMove a) (hb : Path.BeginsWithMove b) :
    AreDisjoint d id a b := by
  obtain ⟨hareas, hstrokes⟩ := areApart_iff.1 hapart
  refine ⟨hpart.overlap hareas, ?_, ?_⟩
  · intro hsheets stroke width boxA boxB hstroke hne hwidth hboxA hboxB
    obtain ⟨boxW, boxB', hboxW, hboxB', hboxes⟩ :=
      hstrokes _ (strokeWidth?_of_read hsheets hstroke hne hwidth)
    obtain rfl : boxB' = boxB := Option.some.inj (hboxB'.symm.trans hboxB)
    exact hpart.pad hboxW hboxA _ hboxes
  · rintro hsheets ⟨⟨hne, hfinite⟩, hne', hfinite'⟩
    have hwidth : strokeWidth? d id = some (1.0 / 0.0) := by
      rw [strokeWidth?, if_pos hsheets]
    obtain ⟨boxW, boxB, hboxW, hboxB, hboxes⟩ := hstrokes _ hwidth
    obtain ⟨p, hp, hpfinite⟩ := Geometry.exists_finite_point ha hne hfinite
    obtain ⟨q, hq, hqfinite⟩ := Geometry.exists_finite_point hb hne' hfinite'
    obtain ⟨boxA, hboxA⟩ := Box.exists_around hp
    have hcovers := (hpart.covers hboxA hboxW).trans (Box.covers_around hboxA hp)
    have hoverlap := Box.overlaps_pad_infinite hcovers (Box.covers_around hboxB hq) hpfinite
      hqfinite unpack_half_infinity
    rw [hboxes] at hoverlap
    cases hoverlap

/-! ## Strokes stay -/

/-- Whether a node is drawn with the same stroke in two documents. -/
structure HasSameStroke (d d' : Document) (id : NodeId) : Prop where
  sheets : d'.styleMentions "stroke" = d.styleMentions "stroke"
  stroke : effective? d' id "stroke" = effective? d id "stroke"
  width : effective? d' id "stroke-width" = effective? d id "stroke-width"

theorem HasSameStroke.trans {d'' : Document} (h : HasSameStroke d d' id)
    (h' : HasSameStroke d' d'' id) : HasSameStroke d d'' id :=
  ⟨h'.sheets.trans h.sheets, h'.stroke.trans h.stroke, h'.width.trans h.width⟩

theorem AreDisjoint.of_hasSameStroke (h : AreDisjoint d' id a b) (hs : HasSameStroke d d' id) :
    AreDisjoint d id a b := by
  obtain ⟨hareas, hstrokes, hsheets⟩ := h
  rw [hs.sheets, hs.stroke, hs.width] at hstrokes
  rw [hs.sheets] at hsheets
  exact ⟨hareas, hstrokes, hsheets⟩

theorem property?_setAttr_d (e : Element) (text : String) {p : String}
    (hp : QName.read p = QName.plain p) (hne : QName.plain "d" ≠ QName.plain p) :
    (e.setAttr "d" text).property? p = e.property? p := by
  have hstyle : QName.plain "d" ≠ QName.plain "style" := by decide
  rw [Element.property?_eq_or, Element.property?_eq_or, Element.setAttr, read_d,
    Element.style_put hstyle, Element.attr?_put hp, if_neg hne]

section Absorbing

variable {options : Options} {t : Target}

theorem parent_absorb (j : NodeId) :
    (absorb options d t c path).1.parent j = if j = c then none else d.parent j := by
  rw [absorb, parent_detach, parent_updateElement]

theorem alike_absorb (j : NodeId) :
    (d.content j).Alike ((absorb options d t c path).1.content j) := by
  rw [absorb, content_detach]
  exact (IsRestyled.updateElement d t.id _).alike j

theorem isForest_absorb (hd : d.IsForest) : (absorb options d t c path).1.IsForest := by
  rw [absorb]
  exact (hd.of_links (fun j => parent_updateElement ..) fun j => children_updateElement ..).detach c

theorem isNamed_absorb (j : NodeId) (name : String) :
    (absorb options d t c path).1.isNamed j name = d.isNamed j name := by
  rw [absorb, isNamed, element?_detach, ← isNamed]
  exact isNamed_updateElement (fun e => Element.name_put e _) j name

theorem property?_absorb (j : NodeId) {p : String} (hp : QName.read p = QName.plain p)
    (hne : QName.plain "d" ≠ QName.plain p) :
    ((absorb options d t c path).1.element? j).bind (·.property? p) =
      (d.element? j).bind (·.property? p) := by
  rw [element?_absorb]
  split
  · cases d.element? j with
    | none => rfl
    | some e => exact property?_setAttr_d e _ hp hne
  · rfl

variable (hd : d.IsForest) (hc : d.children c = [])
include hd hc

theorem ancestors_absorb (hid : id ≠ c) :
    (absorb options d t c path).1.ancestors id = d.ancestors id := by
  refine hd.ancestors_eq (isForest_absorb hd) (P := (· ≠ c)) (fun j hj => ?_) ?_ hid
  · rw [parent_absorb, if_neg hj]
  · rintro j p - hp rfl
    rw [← hd.mem_children_iff, hc] at hp
    cases hp

theorem effective?_absorb (hid : id ≠ c) {p : String} (hp : QName.read p = QName.plain p)
    (hne : QName.plain "d" ≠ QName.plain p) :
    effective? (absorb options d t c path).1 id p = effective? d id p := by
  have hproperty (j : NodeId) : ((absorb options d t c path).1.element? j).bind (·.property? p) =
      (d.element? j).bind (·.property? p) := property?_absorb j hp hne
  simp only [effective?, ancestors_absorb hd hc hid, hproperty]

theorem mem_elements_absorb (hid : id ≠ c) :
    id ∈ (absorb options d t c path).1.elements ↔ id ∈ d.elements := by
  have hforest : (absorb options d t c path).1.IsForest := isForest_absorb hd
  rw [mem_elements_iff, mem_elements_iff, hforest.mem_subtree_iff, hd.mem_subtree_iff,
    ← hforest.mem_ancestors_iff, ← hd.mem_ancestors_iff, ancestors_absorb hd hc hid, isElement,
    (alike_absorb id).isElement_eq, isElement]

omit hc in
/-- A path is no text of the element it is taken from. -/
theorem textContent_absorb (hpath : d.isNamed c "path" = true) (id : NodeId) :
    (absorb options d t c path).1.textContent id = d.textContent id := by
  have hnone : (d.content c).characters? = none :=
    Content.characters?_of_isElement (isElement_of_isNamed hpath)
  rw [textContent, textContent, children_absorb options t hd, List.filterMap_filter]
  refine congrArg String.join (List.filterMap_congr fun j _ => ?_)
  rw [(alike_absorb j).characters?_eq]
  split
  · rfl
  · next hj =>
    rw [show j = c by simpa using hj, hnone]

theorem styleMentions_absorb (hpath : d.isNamed c "path" = true) (word : String) :
    (absorb options d t c path).1.styleMentions word = d.styleMentions word := by
  rw [styleMentions, styleMentions, Bool.eq_iff_iff]
  simp only [List.any_eq_true, Bool.and_eq_true]
  refine exists_congr fun id => ?_
  rw [isNamed_absorb, textContent_absorb hd hpath]
  refine and_congr_left fun hstyle => mem_elements_absorb hd hc ?_
  rintro rfl
  obtain ⟨e, he, hnamed⟩ := isNamed_iff.1 hpath
  obtain ⟨e', he', hnamed'⟩ := isNamed_iff.1 hstyle.1
  obtain rfl : e = e' := Option.some.inj (he.symm.trans he')
  exact absurd (QName.isNamed_unique (by decide) hnamed hnamed') (by decide)

theorem hasSameStroke_absorb (hpath : d.isNamed c "path" = true) (hid : id ≠ c) :
    HasSameStroke d (absorb options d t c path).1 id :=
  ⟨styleMentions_absorb hd hc hpath "stroke", effective?_absorb hd hc hid (by decide) (by decide),
    effective?_absorb hd hc hid (by decide) (by decide)⟩

end Absorbing

/-! ## Runs -/

/-- A child that stays, and those behind it that were merged into it. -/
structure Run where
  head : NodeId
  tail : List NodeId

def Run.ids (r : Run) : List NodeId := r.head :: r.tail

/-- Whether a path is that of the paths of a run, joined, which are disjoint in pairs. -/
def Collects (d : Document) (r : Run) (whole : Path Float) : Prop :=
  ∃ first others, r.ids.map (pathOf? d) = (first :: others).map some ∧
    others.foldl Path.join first = whole ∧ (first :: others).Pairwise (AreDisjoint d r.head)

/-- Whether the head of a run is written with the paths of the run, if there are more. -/
def IsMerged (options : Options) (d d' : Document) (r : Run) : Prop :=
  r.tail ≠ [] → ∃ whole, Collects d r whole ∧
    (d'.element? r.head).bind (·.attr? "d") = some (Path.write options.format whole)

/-- Whether the children of a node, but for the `rest`, were merged in runs. -/
structure IsGathered (options : Options) (d d' : Document) (n : NodeId) (runs : List Run)
    (rest : List NodeId) : Prop where
  all : runs.flatMap Run.ids ++ rest = d.children n
  heads : runs.map Run.head ++ rest = d'.children n
  merged : ∀ r ∈ runs, IsMerged options d d' r

theorem beginsWithMove_of_pathOf? (h : pathOf? d id = some path) : Path.BeginsWithMove path := by
  rw [pathOf?, Option.bind_eq_some_iff] at h
  obtain ⟨text, -, hread⟩ := h
  cases hr : Path.read text with
  | error fault => rw [hr] at hread; cases hread
  | ok p =>
    rw [hr] at hread
    cases hread
    exact Path.beginsWithMove_of_read hr

/-- Each path is a part of all of them joined. -/
theorem isPart_foldl_join {first : Path Float} {others : List (Path Float)}
    (hmove : ∀ p ∈ others, Path.BeginsWithMove p) :
    ∀ p ∈ first :: others, Geometry.IsPart p (others.foldl Path.join first) := by
  induction others generalizing first with
  | nil =>
    intro p hp
    rw [List.mem_singleton] at hp
    rw [hp]
    exact List.Subset.refl _
  | cons q others ih =>
    have hq := hmove q List.mem_cons_self
    have hjoined := Geometry.subpaths_join first hq
    have hrest : ∀ p ∈ first.join q :: others,
        Geometry.IsPart p (others.foldl Path.join (first.join q)) :=
      ih fun p hp => hmove p (List.mem_cons_of_mem q hp)
    have hwhole := hrest _ List.mem_cons_self
    intro p hp
    rcases List.mem_cons.1 hp with rfl | hp
    · refine List.Subset.trans ?_ hwhole
      rw [hjoined]
      exact List.subset_append_left ..
    · rcases List.mem_cons.1 hp with rfl | hp
      · refine List.Subset.trans ?_ hwhole
        rw [hjoined]
        exact List.subset_append_right ..
      · exact hrest p (List.mem_cons_of_mem _ hp)

theorem collects_single (h : pathOf? d c = some path) : Collects d ⟨c, []⟩ path :=
  ⟨path, [], congrArg (fun p => [p]) h, rfl, List.pairwise_singleton ..⟩

/-- A path that is apart from the whole of a run joins it. -/
theorem Collects.snoc {r : Run} (h : Collects d r whole) (hc : pathOf? d c = some path)
    (hapart : ∀ p, Geometry.IsPart p whole → Path.BeginsWithMove p →
      AreDisjoint d r.head p path) :
    Collects d ⟨r.head, r.tail ++ [c]⟩ (whole.join path) := by
  obtain ⟨first, others, hpaths, rfl, hpairwise⟩ := h
  have hread : ∀ p ∈ first :: others, ∃ id, pathOf? d id = some p := by
    intro p hp
    have hmem : some p ∈ r.ids.map (pathOf? d) := by
      rw [hpaths]
      exact List.mem_map_of_mem hp
    obtain ⟨id, -, hid⟩ := List.mem_map.1 hmem
    exact ⟨id, hid⟩
  have hmove : ∀ p ∈ first :: others, Path.BeginsWithMove p := by
    intro p hp
    obtain ⟨id, hid⟩ := hread p hp
    exact beginsWithMove_of_pathOf? hid
  refine ⟨first, others ++ [path], ?_, ?_, ?_⟩
  · have hids : Run.ids ⟨r.head, r.tail ++ [c]⟩ = r.ids ++ [c] := rfl
    rw [hids, List.map_append, hpaths, ← List.cons_append, List.map_append, List.map_singleton, hc,
      List.map_singleton]
  · rw [List.foldl_append]
    rfl
  · rw [← List.cons_append, List.pairwise_append]
    refine ⟨hpairwise, List.pairwise_singleton .., fun p hp q hq => ?_⟩
    rw [List.mem_singleton.1 hq]
    exact hapart p (isPart_foldl_join (fun p hp => hmove p (List.mem_cons_of_mem _ hp)) p hp)
      (hmove p hp)

/-! ## Merging the children of a node -/

/-- What merging the children of a node leaves as it is. -/
structure IsBounded (n : NodeId) (d d' : Document) : Prop where
  children : ∀ m, m ≠ n → d'.children m = d.children m
  content : ∀ j, d.parent j ≠ some n → d'.content j = d.content j
  parent : ∀ j, d'.parent j = d.parent j ∨ d'.parent j = none ∧ d.parent j = some n
  strokes : ∀ j, d'.parent j = d.parent j → HasSameStroke d d' j

variable {n : NodeId}

theorem IsBounded.refl (n : NodeId) (d : Document) : IsBounded n d d :=
  ⟨fun _ _ => rfl, fun _ _ => rfl, fun _ => .inl rfl, fun _ _ => ⟨rfl, rfl, rfl⟩⟩

theorem IsBounded.parent_of_some {p : NodeId} (h : IsBounded n d d') {j : NodeId}
    (hj : d'.parent j = some p) : d.parent j = some p := by
  rcases h.parent j with heq | ⟨hnone, -⟩
  · exact heq.symm.trans hj
  · rw [hnone] at hj
    cases hj

theorem IsBounded.trans {d'' : Document} (h : IsBounded n d d') (h' : IsBounded n d' d'') :
    IsBounded n d d'' where
  children m hm := (h'.children m hm).trans (h.children m hm)
  content j hj :=
    (h'.content j fun hj' => hj (h.parent_of_some hj')).trans (h.content j hj)
  parent j := by
    rcases h'.parent j with heq | ⟨hnone, hn⟩
    · rw [heq]
      exact h.parent j
    · exact .inr ⟨hnone, h.parent_of_some hn⟩
  strokes j hj := by
    have hmiddle : d'.parent j = d.parent j := by
      rcases h.parent j with heq | ⟨hnone, hn⟩
      · exact heq
      · rcases h'.parent j with heq' | ⟨hnone', hn'⟩
        · exact heq'.symm.trans hj
        · rw [hnone] at hn'
          cases hn'
    exact (h.strokes j hmiddle).trans (h'.strokes j (hj.trans hmiddle.symm))

theorem isBounded_absorb {options : Options} {t : Target} (hd : d.IsForest)
    (ht : d.parent t.id = some n) (hc : d.parent c = some n) (hleaf : d.children c = [])
    (hpath : d.isNamed c "path" = true) :
    IsBounded n d (absorb options d t c path).1 where
  children m hm := by
    rw [children_absorb options t hd]
    refine List.filter_eq_self.2 fun j hj => ?_
    rw [bne_iff_ne]
    rintro rfl
    rw [hd.mem_children_iff, hc] at hj
    exact hm (Option.some.inj hj).symm
  content j hj := content_absorb options t d path fun heq => hj (heq ▸ ht)
  parent j := by
    rw [parent_absorb]
    split
    · next hj => exact .inr ⟨rfl, hj ▸ hc⟩
    · exact .inl rfl
  strokes j hj := by
    refine hasSameStroke_absorb hd hleaf hpath ?_
    rintro rfl
    rw [parent_absorb, if_pos rfl, hc] at hj
    cases hj

/-- What is so of the document and the run when the children `rest` are still to come. -/
structure Gathers (options : Options) (start : Document) (n : NodeId) (rest : List NodeId)
    (s : Document × Option Target) (runs : List Run) : Prop
    extends IsGathered options start s.1 n runs rest where
  sound : s.1.IsSound fun _ => True
  bounded : IsBounded n start s.1
  ahead : ∀ j ∈ rest, s.1.content j = start.content j
  run : ∀ t ∈ s.2, ∃ r, runs.getLast? = some r ∧ r.head = t.id ∧ Collects start r t.path

variable {options : Options} {start : Document} {rest : List NodeId}
  {s : Document × Option Target} {runs : List Run}

theorem pathOf?_eq (h : d'.content id = d.content id) : pathOf? d' id = pathOf? d id := by
  rw [pathOf?, pathOf?, element?, element?, h]

/-- A child that no run goes on with. -/
theorem Gathers.next (h : Gathers options start n (c :: rest) s runs) {run : Option Target}
    (hrun : ∀ t ∈ run, t.id = c ∧ pathOf? s.1 c = some t.path) :
    Gathers options start n rest (s.1, run) (runs ++ [⟨c, []⟩]) where
  all := by
    rw [List.flatMap_append, List.append_assoc]
    exact h.all
  heads := by
    rw [List.map_append, List.append_assoc]
    exact h.heads
  merged r hr := by
    rcases List.mem_append.1 hr with hr | hr
    · exact h.merged r hr
    · rw [List.mem_singleton.1 hr]
      exact fun hne => absurd rfl hne
  sound := h.sound
  bounded := h.bounded
  ahead j hj := h.ahead j (List.mem_cons_of_mem c hj)
  run t ht := by
    obtain ⟨hid, hpath⟩ := hrun t ht
    refine ⟨⟨c, []⟩, List.getLast?_concat .., hid.symm, collects_single ?_⟩
    rw [← pathOf?_eq (h.ahead c List.mem_cons_self), hpath]

theorem Gathers.parent_eq (h : Gathers options start n rest s runs) {j : NodeId}
    (hj : j ∈ runs.map Run.head ++ rest) : s.1.parent j = some n := by
  rw [← h.sound.isForest.mem_children_iff, ← h.heads]
  exact hj

/-- The run that goes on is the last one. -/
theorem Gathers.last (h : Gathers options start n rest s runs) {t : Target} (ht : t ∈ s.2) :
    ∃ before r, runs = before ++ [r] ∧ r.head = t.id ∧ Collects start r t.path ∧
      s.1.children n = before.map Run.head ++ t.id :: rest := by
  obtain ⟨r, hlast, hhead, hcollects⟩ := h.run t ht
  obtain ⟨before, rfl⟩ := List.getLast?_eq_some_iff.1 hlast
  refine ⟨before, r, rfl, hhead, hcollects, ?_⟩
  rw [← h.heads, List.map_append, List.append_assoc, ← hhead]
  rfl

/-- What is apart from the path of a run joins it. -/
theorem Gathers.collects (h : Gathers options start n (c :: rest) s runs) {t : Target} {r : Run}
    (ht : s.1.parent t.id = some n) (hhead : r.head = t.id) (hcollects : Collects start r t.path)
    (hpath : pathOf? s.1 c = some path) (hapart : areApart s.1 t.id t.path path = true) :
    Collects start ⟨r.head, r.tail ++ [c]⟩ (t.path.join path) := by
  have hstroke := h.bounded.strokes t.id (ht.trans (h.bounded.parent_of_some ht).symm)
  have hstart : pathOf? start c = some path := by
    rw [← pathOf?_eq (h.ahead c List.mem_cons_self), hpath]
  refine hcollects.snoc hstart fun a hpart ha => ?_
  rw [hhead]
  exact (areDisjoint_of_areApart hapart hpart ha
    (beginsWithMove_of_pathOf? hpath)).of_hasSameStroke hstroke

/-- A child that joins the last run. -/
theorem Gathers.absorb (h : Gathers options start n (c :: rest) s runs) {t : Target}
    (ht : t ∈ s.2) {e e' : Element} (he : s.1.element? t.id = some e) (hc : Draws s.1 c e' path)
    (hapart : areApart s.1 t.id t.path path = true) :
    ∃ runs', Gathers options start n rest (absorb options s.1 t c path) runs' := by
  obtain ⟨before, r, rfl, hhead, hcollects, hchildren⟩ := h.last ht
  have hforest := h.sound.isForest
  have htn : s.1.parent t.id = some n := h.parent_eq (by simp [hhead])
  have hcn : s.1.parent c = some n := h.parent_eq (by simp)
  have hnodup := hforest.nodup_children n
  rw [hchildren, List.nodup_append] at hnodup
  obtain ⟨-, hback, hdisjoint⟩ := hnodup
  have hnamed : s.1.isNamed c "path" = true := isNamed_iff.2 ⟨e', hc.element, hc.named⟩
  have hdata : ((Merging.absorb options s.1 t c path).1.element? t.id).bind (·.attr? "d") =
      some (Path.write options.format (t.path.join path)) := by
    rw [element?_absorb, if_pos rfl, he]
    exact (Element.attr?_put read_d).trans (if_pos read_d)
  have hother {j : NodeId} (hj : j ≠ t.id) :
      (Merging.absorb options s.1 t c path).1.content j = s.1.content j :=
    content_absorb options t s.1 path hj
  have hjoined := h.collects htn hhead hcollects hc.reads hapart
  refine ⟨before ++ [⟨r.head, r.tail ++ [c]⟩], ⟨?_, ?_, ?_⟩, ?_, ?_, ?_, ?_⟩
  · rw [← h.all]
    simp [Run.ids]
  · rw [children_absorb_eq h.sound hchildren, if_pos rfl, ← hhead]
    simp
  · intro r' hr'
    rcases List.mem_append.1 hr' with hr' | hr'
    · have hne : r'.head ≠ t.id := hdisjoint _ (List.mem_map_of_mem hr') _ List.mem_cons_self
      intro htail
      rw [element?, hother hne]
      exact h.merged r' (List.mem_append_left _ hr') htail
    · rw [List.mem_singleton.1 hr']
      exact fun _ => ⟨_, hjoined, hhead ▸ hdata⟩
  · exact (edits_absorb options t path hnamed).isSound h.sound
  · exact h.bounded.trans (isBounded_absorb hforest htn hcn hc.empty hnamed)
  · intro j hj
    have hne : j ≠ t.id := by
      rintro rfl
      exact (List.nodup_cons.1 hback).1 (List.mem_cons_of_mem c hj)
    exact (hother hne).trans (h.ahead j (List.mem_cons_of_mem c hj))
  · rintro t' ⟨⟩
    exact ⟨_, List.getLast?_concat .., hhead, hjoined⟩

/-- One child: the run goes on with it, or another begins. -/
theorem gathers_advance (hforce : options.force = false)
    (h : Gathers options start n (c :: rest) s runs) :
    ∃ runs', Gathers options start n rest (advance options s.1 s.2 c) runs' := by
  rcases advance_cases options s.1 s.2 c with ⟨run, heq, hrun⟩ | ⟨t, path, hrun, hjoins, heq⟩
  · rw [heq]
    exact ⟨_, h.next fun t ht => (hrun t ht).2⟩
  · obtain ⟨before, next, hbefore, hnext, -⟩ := hjoins.alike
    have hapart := hjoins.apart
    rw [hforce, Bool.false_or] at hapart
    rw [heq]
    exact h.absorb hrun hbefore (draws_of_isMergeable hjoins.isMergeable hnext hjoins.reads) hapart

theorem gathers_foldl (hforce : options.force = false)
    (h : Gathers options start n rest s runs) :
    ∃ runs', Gathers options start n []
      (rest.foldl (fun (d, run) c => advance options d run c) s) runs' := by
  induction rest generalizing s runs with
  | nil => exact ⟨runs, h⟩
  | cons c rest ih =>
    obtain ⟨runs', h'⟩ := gathers_advance hforce h
    exact ih h'

theorem gathers_mergeChildren (hforce : options.force = false) (hd : d.IsSound fun _ => True)
    (n : NodeId) : ∃ run runs, Gathers options d n [] (mergeChildren options d n, run) runs := by
  have hstart : Gathers options d n (d.children n) (d, none) [] :=
    ⟨⟨rfl, rfl, fun r hr => by cases hr⟩, hd, .refl n d, fun _ _ => rfl, fun t ht => by cases ht⟩
  exact ⟨_, gathers_foldl hforce hstart⟩

/-! ## The walk -/

theorem Collects.of_same {r : Run} (h : Collects d' r whole)
    (hpaths : ∀ j ∈ r.ids, d'.content j = d.content j) (hstroke : HasSameStroke d d' r.head) :
    Collects d r whole := by
  obtain ⟨first, others, hreads, hwhole, hpairwise⟩ := h
  refine ⟨first, others, ?_, hwhole, hpairwise.imp fun h => h.of_hasSameStroke hstroke⟩
  rw [← hreads]
  exact List.map_congr_left fun j hj => (pathOf?_eq (hpaths j hj)).symm

/-- What is so of a document in which the children of some nodes were merged. -/
structure Progress (options : Options) (start : Document) (merged : NodeId → Prop)
    (d : Document) : Prop where
  sound : d.IsSound fun _ => True
  parent : ∀ c p, d.parent c = some p → start.parent c = some p
  children : ∀ n, ¬ merged n → d.children n = start.children n
  content : ∀ c, (∀ n, start.parent c = some n → ¬ merged n) → d.content c = start.content c
  strokes : ∀ id, d.parent id = start.parent id → HasSameStroke start d id
  runs : ∀ n, ∃ runs, IsGathered options start d n runs []

theorem progress_start (options : Options) (hd : d.IsSound fun _ => True) :
    Progress options d (fun _ => False) d where
  sound := hd
  parent _ _ hp := hp
  children _ _ := rfl
  content _ _ := rfl
  strokes _ _ := ⟨rfl, rfl, rfl⟩
  runs n := by
    refine ⟨(d.children n).map fun c => ⟨c, []⟩, ?_, ?_, ?_⟩
    · rw [List.append_nil, List.flatMap_map]
      exact List.flatMap_singleton' _
    · rw [List.append_nil, List.map_map]
      exact List.map_id _
    · intro r hr
      obtain ⟨c, -, rfl⟩ := List.mem_map.1 hr
      exact fun hne => absurd rfl hne

variable {merged : NodeId → Prop}

/-- At the node itself the runs are those of the document it was come upon in. -/
theorem Progress.isGathered_self (h : Progress options start merged d) (hn : ¬ merged n)
    {run : Option Target} (hgathers : Gathers options d n [] (d', run) runs) :
    IsGathered options start d' n runs [] where
  all := hgathers.all.trans (h.children n hn)
  heads := hgathers.heads
  merged r hr htail := by
    obtain ⟨whole, hcollects, hdata⟩ := hgathers.merged r hr htail
    have hids : ∀ j ∈ r.ids, d.parent j = some n := by
      intro j hj
      rw [← h.sound.isForest.mem_children_iff, ← hgathers.all, List.append_nil]
      exact List.mem_flatMap.2 ⟨r, hr, hj⟩
    have hstart : ∀ j ∈ r.ids, start.parent j = some n := fun j hj => h.parent j n (hids j hj)
    refine ⟨whole, hcollects.of_same (fun j hj => h.content j fun m hm => ?_) (h.strokes _ ?_),
      hdata⟩
    · rw [hstart j hj] at hm
      cases hm
      exact hn
    · rw [hids _ List.mem_cons_self, hstart _ List.mem_cons_self]

/-- The runs of other nodes stay. -/
theorem Progress.isGathered_other (h : Progress options start merged d)
    (hbounded : IsBounded n d d') {m : NodeId} (hm : m ≠ n)
    (hruns : IsGathered options start d m runs []) : IsGathered options start d' m runs [] where
  all := hruns.all
  heads := hruns.heads.trans (hbounded.children m hm).symm
  merged r hr htail := by
    have hhead : d.parent r.head = some m := by
      rw [← h.sound.isForest.mem_children_iff, ← hruns.heads, List.append_nil]
      exact List.mem_map_of_mem hr
    have hcontent : d'.content r.head = d.content r.head := by
      refine hbounded.content _ fun hp => hm ?_
      rw [hhead] at hp
      exact Option.some.inj hp
    rw [element?, hcontent]
    exact hruns.merged r hr htail

theorem Progress.mergeChildren (hforce : options.force = false)
    (h : Progress options start merged d) (hn : ¬ merged n) :
    Progress options start (fun v => merged v ∨ v = n) (mergeChildren options d n) := by
  obtain ⟨run, runs, hgathers⟩ := gathers_mergeChildren hforce h.sound n
  have hbounded := hgathers.bounded
  refine ⟨hgathers.sound, fun c p hp => h.parent c p (hbounded.parent_of_some hp), ?_, ?_, ?_, ?_⟩
  · intro m hm
    rw [hbounded.children m fun heq => hm (.inr heq)]
    exact h.children m fun hmerged => hm (.inl hmerged)
  · intro c hc
    rw [hbounded.content c fun hp => hc n (h.parent c n hp) (.inr rfl)]
    exact h.content c fun m hm hmerged => hc m hm (.inl hmerged)
  · intro id hid
    have hmiddle : d.parent id = start.parent id := by
      cases hp : d.parent id with
      | some p => exact (h.parent id p hp).symm
      | none =>
        rw [← hid]
        rcases hbounded.parent id with heq | ⟨hnone, -⟩
        · rw [heq, hp]
        · exact hnone.symm
    exact (h.strokes id hmiddle).trans (hbounded.strokes id (hid.trans hmiddle.symm))
  · intro m
    by_cases hm : m = n
    · subst hm
      exact ⟨runs, h.isGathered_self hn hgathers⟩
    · obtain ⟨others, hothers⟩ := h.runs m
      exact ⟨others, h.isGathered_other hbounded hm hothers⟩

theorem Progress.mono {merged' : NodeId → Prop} (h : Progress options start merged d)
    (hmono : ∀ v, merged v → merged' v) : Progress options start merged' d where
  sound := h.sound
  parent := h.parent
  children n hn := h.children n fun hmerged => hn (hmono n hmerged)
  content c hc := h.content c fun n hn hmerged => hc n hn (hmono n hmerged)
  strokes := h.strokes
  runs := h.runs

theorem keepsOnce_mergePaths (hforce : options.force = false) (start : Document) :
    Visit.KeepsOnce
      (fun d id =>
        if d.isElement id then (Merging.mergeChildren options d id, Verdict.keep)
        else (d, Verdict.keep))
      start (Progress options start) where
  isForest _ _ h := h.sound.isForest
  parent _ _ c p h hp := h.parent c p hp
  kept V d id p h hid _ := by
    split
    · exact h.mergeChildren hforce hid
    · exact h.mono fun v hv => .inl hv
  keep d id := by split <;> rfl

/-- Without force, paths that are merged into one are disjoint in pairs: the children of
every node fall into runs, of each of which the first child stays and is written with the
paths of the run. -/
theorem areDisjoint_mergePaths (hforce : options.force = false) (hd : d.IsSound fun _ => True)
    (n : NodeId) :
    ∃ runs : List Run, runs.flatMap Run.ids = d.children n ∧
      runs.map Run.head = ((Pass.mergePaths options).run d).children n ∧
      ∀ r ∈ runs, IsMerged options d ((Pass.mergePaths options).run d) r := by
  obtain ⟨merged, hprogress⟩ :=
    (keepsOnce_mergePaths hforce d).topDown hd.isForest (progress_start options hd)
  obtain ⟨runs, hall, hheads, hmerged⟩ := hprogress.runs n
  rw [List.append_nil] at hall hheads
  exact ⟨runs, hall, hheads, hmerged⟩

/-- The second red line joins the first, and strokes of width one keep them apart. -/
theorem areDisjoint_lines :
    Options.default.force = false ∧ Lines.document.IsSound (fun _ => True) ∧
      Lines.document.children 1 = [2, 3, 4, 5] ∧
      ((Pass.mergePaths Options.default).run Lines.document).children 1 = [2, 4, 5] ∧
      Lines.document.styleMentions "stroke" = false ∧
      effective? Lines.document 2 "stroke" = some "red".toList ∧
      ∃ runs : List Run, runs.flatMap Run.ids = Lines.document.children 1 ∧
        runs.map Run.head = ((Pass.mergePaths Options.default).run Lines.document).children 1 ∧
        ∀ r ∈ runs, IsMerged Options.default Lines.document
          ((Pass.mergePaths Options.default).run Lines.document) r :=
  ⟨rfl, Lines.isSound_document, by decide, by decide +kernel, by decide,
    by decide, areDisjoint_mergePaths rfl Lines.isSound_document 1⟩

end Merging
end SvgCompact
