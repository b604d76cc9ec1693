import SvgCompact.Element.Kinds
import SvgCompact.Proofs.Element.Forms
import SvgCompact.Proofs.Element.Style

/-!
Looking up attributes after they were put on an element, filtered, written back or removed.

A name without a label is that of one attribute only.  What `put` writes is found under
its own name, all other attributes are found as before.
-/

namespace SvgCompact
namespace Element

variable {e : Element} {a : Attribute} {s name : String} {n : QName} {v : String}

/-! ## Putting -/

/-- An attribute takes the place of the one of its name, or it is added at the end. -/
theorem attributes_put_cases (e : Element) (a : Attribute) :
    (∃ front held back, e.attributes = front ++ held :: back ∧ held.name = a.name ∧
        (∀ b ∈ front, b.name ≠ a.name) ∧ (e.put a).attributes = front ++ a :: back) ∨
      ((∀ b ∈ e.attributes, b.name ≠ a.name) ∧ (e.put a).attributes = e.attributes ++ [a]) := by
  cases hi : e.attributes.findIdx? (·.name == a.name) with
  | none =>
    have hnew : ∀ b ∈ e.attributes, b.name ≠ a.name := fun b hb => by
      simpa using List.findIdx?_eq_none_iff.1 hi b hb
    exact .inr ⟨hnew, attributes_put hnew⟩
  | some i =>
    obtain ⟨hlt, hname, hfront⟩ := List.findIdx?_eq_some_iff_getElem.1 hi
    have hheld : e.attributes[i].name = a.name := eq_of_beq hname
    have hsplit : e.attributes =
        e.attributes.take i ++ e.attributes[i] :: e.attributes.drop (i + 1) := by
      rw [List.getElem_cons_drop, List.take_append_drop]
    have hput : (⟨e.attributes[i].name, a.value⟩ : Attribute) = a := by
      rw [hheld]
    refine .inl ⟨_, _, _, hsplit, hheld, fun b hb => ?_, ?_⟩
    · obtain ⟨j, hj, rfl⟩ := List.mem_iff_getElem.1 hb
      rw [List.length_take] at hj
      rw [List.getElem_take]
      simpa using hfront j (by omega)
    · rw [put, attributes_refresh, hi]
      dsimp only
      rw [List.modify_eq_take_cons_drop hlt, hput]

theorem attr?_put (hs : QName.read s = QName.plain s) :
    (e.put a).attr? s = if a.name = QName.plain s then some a.value else e.attr? s := by
  split
  · next ha =>
    have hnamed : a.name.isNamed s = true := (isNamed_iff_eq_plain hs).2 ha
    have hfront : ∀ l : List Attribute, (∀ b ∈ l, b.name ≠ a.name) →
        l.find? (·.name.isNamed s) = none := by
      intro l hl
      refine List.find?_eq_none.2 fun b hb hbs => hl b hb ?_
      rw [(isNamed_iff_eq_plain hs).1 hbs, ha]
    have hfound : ∀ front back : List Attribute, (∀ b ∈ front, b.name ≠ a.name) →
        (front ++ a :: back).find? (·.name.isNamed s) = some a := by
      intro front back hl
      rw [List.find?_append, hfront front hl, Option.none_or, List.find?_cons, hnamed]
    rw [attr?, attribute?]
    rcases attributes_put_cases e a with ⟨front, held, back, -, -, hnone, hnew⟩ | ⟨hnone, hnew⟩
    · rw [hnew, hfound front back hnone]
      rfl
    · rw [hnew, hfound _ [] hnone]
      rfl
  · next ha =>
    have hnamed : a.name.isNamed s = false :=
      Bool.eq_false_iff.2 fun heq => ha ((isNamed_iff_eq_plain hs).1 heq)
    rw [attr?, attribute?_put hnamed, attr?]

/-- A new value takes the place of the old one. -/
theorem attributes_put_of_attr? (hs : QName.read s = QName.plain s) (hv : e.attr? s = some v)
    (value : String) :
    ∃ front back, e.attributes = front ++ ⟨QName.plain s, v⟩ :: back ∧
      (e.put ⟨QName.plain s, value⟩).attributes = front ++ ⟨QName.plain s, value⟩ :: back := by
  rcases attributes_put_cases e ⟨QName.plain s, value⟩ with
    ⟨front, ⟨name, held⟩, back, hold, rfl, hfront, hput⟩ | ⟨hnone, -⟩
  · have hvalue : held = v := by
      have hnone : front.find? (·.name.isNamed s) = none :=
        List.find?_eq_none.2 fun b hb hbs => hfront b hb ((isNamed_iff_eq_plain hs).1 hbs)
      rw [attr?, attribute?, hold, List.find?_append, hnone, Option.none_or, List.find?_cons,
        (isNamed_iff_eq_plain hs).2 rfl] at hv
      exact Option.some.inj hv
    exact ⟨front, back, hvalue ▸ hold, hput⟩
  · obtain ⟨b, hb, -⟩ := Option.map_eq_some_iff.1 hv
    have hbs := List.find?_some hb
    exact absurd ((isNamed_iff_eq_plain hs).1 hbs) (hnone b (List.mem_of_find?_eq_some hb))

theorem style_put (ha : a.name ≠ QName.plain "style") : (e.put a).style = e.style := by
  rw [put, refresh]
  split
  · rfl
  · rw [if_neg (beq_iff_eq.not.2 ha)]

theorem attr?_eq_some_iff (hs : QName.read s = QName.plain s)
    (hnodup : (e.attributes.map (·.name)).Nodup) :
    e.attr? s = some v ↔ ⟨QName.plain s, v⟩ ∈ e.attributes := by
  rw [attr?, Option.map_eq_some_iff]
  constructor
  · rintro ⟨a, ha, rfl⟩
    obtain ⟨hmem, hname⟩ := (attribute?_eq_some_iff hs hnodup).1 ha
    rwa [← hname]
  · intro hmem
    exact ⟨_, (attribute?_eq_some_iff hs hnodup).2 ⟨hmem, rfl⟩, rfl⟩

/-! ## Filtering -/

@[simp] theorem attributes_filterAttrs (p : Attribute → Bool) (e : Element) :
    (e.filterAttrs p).attributes = e.attributes.filter p := rfl

theorem isFresh_filterAttrs (p : Attribute → Bool) (e : Element) : (e.filterAttrs p).IsFresh :=
  ⟨rfl, rfl⟩

theorem find?_filter_named (hs : QName.read s = QName.plain s) (q : QName → Bool)
    (l : List Attribute) :
    (l.filter fun a => q a.name).find? (·.name.isNamed s) =
      if q (QName.plain s) then l.find? (·.name.isNamed s) else none := by
  induction l with
  | nil => simp
  | cons a rest ih =>
    rw [List.filter_cons, List.find?_cons]
    cases hnamed : a.name.isNamed s with
    | true =>
      rw [(isNamed_iff_eq_plain hs).1 hnamed]
      split
      · rw [List.find?_cons, hnamed]
      · next hq => rw [ih, if_neg hq]
    | false =>
      split
      · rw [List.find?_cons, hnamed, ih]
      · exact ih

/-- Attributes that are kept by their names. -/
theorem attr?_filterAttrs (hs : QName.read s = QName.plain s) (q : QName → Bool) :
    (e.filterAttrs fun a => q a.name).attr? s =
      if q (QName.plain s) then e.attr? s else none := by
  rw [attr?, attribute?, attributes_filterAttrs, find?_filter_named hs]
  split <;> rfl

/-- The style of an element whose attribute `style` is kept. -/
theorem style_filterAttrs (h : e.IsFresh) {q : QName → Bool} (hq : q (QName.plain "style") = true) :
    (e.filterAttrs fun a => q a.name).style = e.style := by
  rw [(isFresh_filterAttrs _ e).style, attr?_filterAttrs read_style, if_pos hq, ← h.style]

/-! ## Writing back and removing -/

theorem find?_eraseP {α : Type} {p q : α → Bool} {l : List α}
    (h : ∀ x ∈ l, q x = true → p x = false) : (l.eraseP q).find? p = l.find? p := by
  induction l with
  | nil => rfl
  | cons x rest ih =>
    have hrest := ih fun y hy => h y (List.mem_cons_of_mem x hy)
    by_cases hx : q x = true
    · rw [List.eraseP_cons_of_pos hx, List.find?_cons_of_neg]
      rw [h x (List.mem_cons_self ..) hx]
      exact Bool.false_ne_true
    · rw [List.eraseP_cons_of_neg hx, List.find?_cons, List.find?_cons, hrest]

/-- A name without a label is named by nothing but itself. -/
theorem isNamed_eq_false {n : QName} (hname : QName.read name = QName.plain name)
    (hs : s ≠ name) (hn : n.isNamed name = true) : n.isNamed s = false := by
  obtain rfl := (isNamed_iff_eq_plain hname).1 hn
  have hne : name ≠ s := hs.symm
  simpa [QName.isNamed, QName.plain] using hne

theorem attribute?_writeBack (hname : QName.read name = QName.plain name) (hs : s ≠ name)
    (value : String) : (e.writeBack name value).attribute? s = e.attribute? s := by
  have hother : ∀ a : Attribute, a.name.isNamed name = true → a.name.isNamed s = false :=
    fun a => isNamed_eq_false hname hs
  rw [writeBack]
  split
  · next i hi =>
    obtain ⟨hlt, hnamed, -⟩ := List.findIdx?_eq_some_iff_getElem.1 hi
    split
    · have herase : e.attributes.eraseIdx i = e.attributes.eraseP (·.name.isNamed name) := by
        rw [List.eraseP_eq_eraseIdx, hi]
      rw [attribute?, attribute?, herase]
      exact find?_eraseP fun a _ => hother a
    · refine find?_modify fun a ha => ?_
      obtain ⟨-, rfl⟩ := List.getElem?_eq_some_iff.1 ha
      exact ⟨hother _ hnamed, hother _ hnamed⟩
  · split
    · rfl
    · have hnew : (QName.read name).isNamed s = false :=
        hother ⟨QName.read name, value⟩ ((isNamed_iff_eq_plain hname).2 hname)
      rw [attribute?, attribute?, List.find?_append, List.find?_cons_of_neg (by simp [hnew]),
        List.find?_nil, Option.or_none]

theorem attr?_writeBack (hname : QName.read name = QName.plain name) (hs : s ≠ name)
    (value : String) : (e.writeBack name value).attr? s = e.attr? s := by
  rw [attr?, attribute?_writeBack hname hs, attr?]

@[simp] theorem classes_writeBack (value : String) :
    (e.writeBack name value).classes = e.classes := by
  rw [writeBack]
  split <;> split <;> rfl

theorem attribute?_removeAttr (hname : QName.read name = QName.plain name) (hs : s ≠ name) :
    (e.removeAttr name).attribute? s = e.attribute? s := by
  rw [removeAttr]
  split
  · rw [attribute?, attributes_refresh, attribute?]
    exact find?_eraseP fun a _ => isNamed_eq_false hname hs
  · rfl

/-- Of attributes with distinct names only one has a name without label. -/
theorem find?_eraseP_self (hname : QName.read name = QName.plain name) {l : List Attribute}
    (hnodup : (l.map (·.name)).Nodup) :
    (l.eraseP (·.name.isNamed name)).find? (·.name.isNamed name) = none := by
  induction l with
  | nil => rfl
  | cons a rest ih =>
    rw [List.map_cons, List.nodup_cons] at hnodup
    by_cases ha : a.name.isNamed name = true
    · rw [List.eraseP_cons_of_pos (p := fun a : Attribute => a.name.isNamed name) ha,
        List.find?_eq_none]
      intro b hb hnamed
      have hab : a.name = b.name :=
        ((isNamed_iff_eq_plain hname).1 ha).trans ((isNamed_iff_eq_plain hname).1 hnamed).symm
      exact hnodup.1 (hab ▸ List.mem_map_of_mem hb)
    · rw [List.eraseP_cons_of_neg (p := fun a : Attribute => a.name.isNamed name) ha,
        List.find?_cons_of_neg (p := fun a : Attribute => a.name.isNamed name) ha, ih hnodup.2]

theorem attr?_removeAttr_self (hname : QName.read name = QName.plain name)
    (hnodup : (e.attributes.map (·.name)).Nodup) : (e.removeAttr name).attr? name = none := by
  rw [removeAttr]
  split
  · rw [attr?, attribute?, attributes_refresh, find?_eraseP_self hname hnodup, Option.map_none]
  · next hnone => rw [attr?, hnone, Option.map_none]

theorem classes_removeAttr (hname : QName.read name = QName.plain name) (hclass : name ≠ "class") :
    (e.removeAttr name).classes = e.classes := by
  rw [removeAttr]
  split
  · next a ha =>
    have hplain : a.name = QName.plain name :=
      (isNamed_iff_eq_plain hname).1 (by simpa using List.find?_some ha)
    rw [refresh, if_neg (by simp [hplain, QName.plain, hclass])]
    split <;> rfl
  · rfl

/-! ## Any change of the attributes -/

/-- Names are distinct after a revision if they were before. -/
theorem IsRevision.nodup {e' : Element} (h : IsRevision (fun _ => True) e e')
    (hnodup : (e.attributes.map (·.name)).Nodup) : (e'.attributes.map (·.name)).Nodup :=
  (h.all ⟨trivial, fun _ _ => trivial, hnodup⟩).nodup

theorem nodup_sortAttrs (h : (e.attributes.map (·.name)).Nodup)
    (le : Attribute → Attribute → Bool) :
    ((e.sortAttrs le).attributes.map (·.name)).Nodup :=
  ((List.mergeSort_perm e.attributes le).map _).nodup_iff.2 h

/-- A name that is not `s` does not name what `s` names. -/
theorem isNamed_eq_false_of_ne {n : QName} (hs : QName.read s = QName.plain s) (hne : name ≠ s)
    (hn : n.isNamed name = true) : n.isNamed s = false := by
  refine Bool.eq_false_iff.2 fun hns => hne ?_
  rw [(isNamed_iff_eq_plain hs).1 hns] at hn
  exact (eq_of_beq hn).symm

theorem attr?_removeAttr_of_ne (hs : QName.read s = QName.plain s) (hne : name ≠ s) :
    (e.removeAttr name).attr? s = e.attr? s := by
  rw [removeAttr]
  split
  · rw [attr?, attr?, attribute?, attribute?, attributes_refresh]
    exact congrArg _ (find?_eraseP fun a _ => isNamed_eq_false_of_ne hs hne)
  · rfl

theorem attr?_filterAttrs_eq_filter (hs : QName.read s = QName.plain s)
    (h : (e.attributes.map (·.name)).Nodup) (p : Attribute → Bool) :
    (e.filterAttrs p).attr? s = (e.attr? s).filter fun v => p ⟨QName.plain s, v⟩ := by
  have h' : ((e.filterAttrs p).attributes.map (·.name)).Nodup :=
    (isRevision_filterAttrs e p).nodup h
  refine Option.ext fun v => ?_
  rw [attr?_eq_some_iff hs h', attributes_filterAttrs, List.mem_filter,
    Option.filter_eq_some_iff, attr?_eq_some_iff hs h]

theorem isFresh_mapAttrs (f : QName → String → Option String) (e : Element) :
    (e.mapAttrs f).IsFresh :=
  ⟨rfl, rfl⟩

theorem attr?_mapAttrs (hs : QName.read s = QName.plain s)
    (h : (e.attributes.map (·.name)).Nodup) (f : QName → String → Option String) :
    (e.mapAttrs f).attr? s = (e.attr? s).map fun v => (f (QName.plain s) v).getD v := by
  have h' : ((e.mapAttrs f).attributes.map (·.name)).Nodup := (isRevision_mapAttrs e f).nodup h
  refine Option.ext fun v => ?_
  rw [attr?_eq_some_iff hs h', mapAttrs, attributes_refreshStyle, attributes_refreshClasses,
    List.mem_map, Option.map_eq_some_iff]
  constructor
  · rintro ⟨⟨n, w⟩, ha, heq⟩
    cases hf : f n w with
    | none =>
      simp only [hf] at heq
      cases heq
      exact ⟨_, (attr?_eq_some_iff hs h).2 ha, by rw [hf, Option.getD_none]⟩
    | some x =>
      simp only [hf] at heq
      cases heq
      exact ⟨w, (attr?_eq_some_iff hs h).2 ha, by rw [hf, Option.getD_some]⟩
  · rintro ⟨w, hw, rfl⟩
    refine ⟨_, (attr?_eq_some_iff hs h).1 hw, ?_⟩
    cases hf : f (QName.plain s) w with
    | none => simp only [Option.getD_none]
    | some x => simp only [Option.getD_some]

theorem attr?_sortAttrs (hs : QName.read s = QName.plain s)
    (h : (e.attributes.map (·.name)).Nodup) (le : Attribute → Attribute → Bool) :
    (e.sortAttrs le).attr? s = e.attr? s := by
  refine Option.ext fun v => ?_
  rw [attr?_eq_some_iff hs (nodup_sortAttrs h le), attr?_eq_some_iff hs h]
  exact List.mem_mergeSort

/-- The text of a form, as its attribute carries it. -/
def shown (text : String) : Option String :=
  if text.isEmpty then none else some text

theorem attr?_writeBack_self (hname : QName.read name = QName.plain name)
    (h : (e.attributes.map (·.name)).Nodup) (value : String) :
    (e.writeBack name value).attr? name = shown value := by
  have hsame : (fun a : Attribute => a.name.isNamed name) = (·.name == QName.plain name) :=
    funext fun a => Bool.eq_iff_iff.2 ((isNamed_iff_eq_plain hname).trans beq_iff_eq.symm)
  rw [shown]
  split
  · next hempty =>
    have hremoved : (e.writeBack name value).attributes
        = e.attributes.eraseP (·.name.isNamed name) := by
      rw [writeBack, List.eraseP_eq_eraseIdx]
      cases e.attributes.findIdx? (·.name.isNamed name) with
      | none => simp only [hempty, if_true]
      | some i => simp only [hempty, if_true]
    rw [attr?, attribute?, hremoved, find?_eraseP_self hname h, Option.map_none]
  · next hempty =>
    have hput : (e.writeBack name value).attributes
        = (e.put ⟨QName.plain name, value⟩).attributes := by
      rw [put, attributes_refresh, writeBack, hsame, hname]
      cases e.attributes.findIdx? (·.name == QName.plain name) with
      | none => simp only [hempty, Bool.false_eq_true, if_false]
      | some i => simp only [hempty, Bool.false_eq_true, if_false]
    have hattr := attr?_put (e := e) (a := ⟨QName.plain name, value⟩) hname
    rw [attr?, attribute?, hput]
    rw [if_pos rfl] at hattr
    exact hattr

/-! ## Second forms after a change -/

theorem attr?_refresh (e : Element) (n : QName) (s : String) :
    (e.refresh n).attr? s = e.attr? s := by
  rw [attr?, attr?, attribute?, attribute?, attributes_refresh]

theorem classes_refresh (e : Element) (n : QName) : (e.refresh n).classes =
    if n = QName.plain "class"
    then (((e.refresh n).attr? "class").map ClassList.read).getD ClassList.empty
    else e.classes := by
  rw [attr?_refresh, refresh]
  by_cases hclass : n = QName.plain "class"
  · rw [if_pos (beq_iff_eq.2 hclass), if_pos hclass]
    rfl
  · rw [if_neg (beq_iff_eq.not.2 hclass), if_neg hclass]
    split <;> rfl

theorem style_refresh (e : Element) (n : QName) : (e.refresh n).style =
    if n = QName.plain "style"
    then (((e.refresh n).attr? "style").map Style.read).getD Style.empty
    else e.style := by
  rw [attr?_refresh, refresh]
  by_cases hstyle : n = QName.plain "style"
  · have hclass : n ≠ QName.plain "class" := by
      rw [hstyle]
      decide
    rw [if_neg (beq_iff_eq.not.2 hclass), if_pos (beq_iff_eq.2 hstyle), if_pos hstyle]
    rfl
  · rw [if_neg hstyle]
    split
    · rfl
    · rw [if_neg (beq_iff_eq.not.2 hstyle)]

/-! ## Properties -/

theorem property?_eq_or (e : Element) (p : String) :
    e.property? p = (e.style.get? p).or (e.attr? p) := by
  rw [property?, Option.orElse_eq_or]

theorem property?_filterAttrs (h : e.IsFresh) {q : QName → Bool}
    (hq : q (QName.plain "style") = true) (hs : QName.read s = QName.plain s) :
    (e.filterAttrs fun a => q a.name).property? s =
      (e.style.get? s).or (if q (QName.plain s) then e.attr? s else none) := by
  rw [property?_eq_or, style_filterAttrs h hq, attr?_filterAttrs hs]

theorem attr?_of_attributes_nil (h : e.attributes = []) (s : String) : e.attr? s = none := by
  rw [attr?, attribute?, h, List.find?_nil, Option.map_none]

theorem property?_of_attributes_nil (hfresh : e.IsFresh) (h : e.attributes = []) (p : String) :
    e.property? p = none := by
  rw [property?_eq_or, hfresh.style, attr?_of_attributes_nil h, attr?_of_attributes_nil h]
  rfl

end Element
end SvgCompact
