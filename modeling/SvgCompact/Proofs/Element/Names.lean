import SvgCompact.Proofs.Element.Style
import SvgCompact.Proofs.Text.Search

/-!
Names that can be written into a tag and read again.

`QName.IsPlain` says what such a name is made of, and `Element.All` that all names
in a tag have a property and no attribute comes twice.  Every operation on elements is
a revision: it keeps the name of the element, and its other names have the properties
that they had, provided that the few names this library writes have them.
-/

namespace SvgCompact

/-- The characters that end a name nowhere and begin nothing else. -/
def isNameChar (c : Char) : Bool :=
  !(Text.isMarkupBlank c || ['"', '\'', '<', '>', '/', '=', '!', '?'].contains c)

namespace QName

/-- Whether a name is what its text is read as. -/
def IsRead (n : QName) : Prop := QName.read n.full = n

/-- Whether a name is written with name characters. -/
structure IsWord (n : QName) : Prop where
  ne_nil : n.full.toList ≠ []
  chars : ∀ c ∈ n.full.toList, isNameChar c = true

structure IsPlain (n : QName) : Prop extends IsWord n where
  isRead : n.IsRead

theorem full_read (s : String) : (QName.read s).full = s := by
  rw [QName.read]
  split
  · next space stem h =>
    obtain ⟨c, hc, hs, -⟩ := Text.splitAt?_eq_some_iff.1 h
    obtain rfl : c = ':' := by simpa using hc
    apply String.toList_injective
    simp [full, hs]
  · rfl

theorem isRead_read (s : String) : (QName.read s).IsRead := by
  rw [IsRead, full_read]

theorem isPlain_read {s : String} (hs : s.toList ≠ [])
    (hchars : s.toList.all isNameChar = true) : (QName.read s).IsPlain where
  ne_nil := by rwa [full_read]
  chars := by rwa [full_read, ← List.all_eq_true]
  isRead := isRead_read s

theorem IsRead.full_injective {m n : QName} (hm : m.IsRead) (hn : n.IsRead)
    (h : m.full = n.full) : m = n := by
  rw [← hm, ← hn, h]

/-- Whether the names that passes write on their own have a property. -/
class Admits (P : QName → Prop) : Prop where
  admits : ∀ s ∈ ["class", "style", "d", "transform"], P (QName.read s)

instance : Admits fun _ => True := ⟨fun _ _ => trivial⟩

instance : Admits IsRead := ⟨fun s _ => isRead_read s⟩

instance : Admits IsPlain where
  admits s hs := by
    have hword : ∀ s ∈ ["class", "style", "d", "transform"],
        s.toList ≠ [] ∧ s.toList.all isNameChar = true := by
      decide
    exact isPlain_read (hword s hs).1 (hword s hs).2

end QName

namespace Element

/-- Whether all names in a tag have a property, and no attribute comes twice. -/
structure All (P : QName → Prop) (e : Element) : Prop where
  name : P e.name
  names : ∀ a ∈ e.attributes, P a.name
  nodup : (e.attributes.map (·.name)).Nodup

abbrev IsPlain (e : Element) : Prop := e.All QName.IsPlain

namespace All

variable {P : QName → Prop} {e e' : Element}

theorem of_sublist (h : e.All P) (hname : e'.name = e.name)
    (hsub : (e'.attributes.map (·.name)).Sublist (e.attributes.map (·.name))) : e'.All P := by
  refine ⟨hname ▸ h.name, fun a ha => ?_, hsub.nodup h.nodup⟩
  have hmem := hsub.subset (List.mem_map_of_mem ha)
  obtain ⟨b, hb, hba⟩ := List.mem_map.1 hmem
  exact hba ▸ h.names b hb

theorem of_append (h : e.All P) {a : Attribute} (hname : e'.name = e.name)
    (hattributes : e'.attributes = e.attributes ++ [a]) (ha : P a.name)
    (hnew : ∀ b ∈ e.attributes, b.name ≠ a.name) : e'.All P := by
  refine ⟨hname ▸ h.name, fun b hb => ?_, ?_⟩
  · rw [hattributes, List.mem_append, List.mem_singleton] at hb
    rcases hb with hb | rfl
    · exact h.names b hb
    · exact ha
  · rw [hattributes, List.map_append, List.nodup_append]
    refine ⟨h.nodup, by simp, fun n hn m hm => ?_⟩
    obtain ⟨b, hb, rfl⟩ := List.mem_map.1 hn
    obtain rfl : m = a.name := by simpa using hm
    exact hnew b hb

end All

/-- Whether an element can stand for another: it has the same name, and its names have
a property that all names of the other have. -/
structure IsRevision (P : QName → Prop) (e e' : Element) : Prop where
  name : e'.name = e.name
  all : e.All P → e'.All P

namespace IsRevision

variable {P : QName → Prop} {e e' e'' : Element}

theorem refl (e : Element) : IsRevision P e e := ⟨rfl, id⟩

theorem trans (h : IsRevision P e e') (h' : IsRevision P e' e'') : IsRevision P e e'' :=
  ⟨h'.name.trans h.name, fun hp => h'.all (h.all hp)⟩

theorem foldl {α : Type} {f : Element → α → Element} {l : List α}
    (hf : ∀ e, ∀ a ∈ l, IsRevision P e (f e a)) (e : Element) : IsRevision P e (l.foldl f e) := by
  induction l generalizing e with
  | nil => exact refl e
  | cons a rest ih =>
    exact (hf e a (by simp)).trans (ih (fun e b hb => hf e b (by simp [hb])) (f e a))

theorem of_sublist (hname : e'.name = e.name)
    (hsub : (e'.attributes.map (·.name)).Sublist (e.attributes.map (·.name))) :
    IsRevision P e e' :=
  ⟨hname, fun hp => hp.of_sublist hname hsub⟩

theorem of_append {a : Attribute} (hname : e'.name = e.name)
    (hattributes : e'.attributes = e.attributes ++ [a]) (ha : P a.name)
    (hnew : ∀ b ∈ e.attributes, b.name ≠ a.name) : IsRevision P e e' :=
  ⟨hname, fun hp => hp.of_append hname hattributes ha hnew⟩

end IsRevision

/-! ## The operations -/

section Operations

variable {P : QName → Prop} (e : Element)

@[simp] theorem name_refreshClasses : e.refreshClasses.name = e.name := rfl

@[simp] theorem attributes_refreshClasses : e.refreshClasses.attributes = e.attributes := rfl

@[simp] theorem name_refreshStyle : e.refreshStyle.name = e.name := rfl

@[simp] theorem attributes_refreshStyle : e.refreshStyle.attributes = e.attributes := rfl

@[simp] theorem name_refresh (n : QName) : (e.refresh n).name = e.name := by
  rw [refresh]
  split
  · rfl
  · split <;> rfl

@[simp] theorem attributes_refresh (n : QName) : (e.refresh n).attributes = e.attributes := by
  rw [refresh]
  split
  · rfl
  · split <;> rfl

theorem map_name_modify (l : List Attribute) (i : Nat) (value : String) :
    (l.modify i fun a => { a with value }).map (·.name) = l.map (·.name) := by
  apply List.ext_getElem?
  intro j
  rw [List.getElem?_map, List.getElem?_modify, List.getElem?_map]
  cases l[j]? with
  | none => rfl
  | some a =>
    by_cases hij : i = j
    · simp [hij]
    · simp [hij]

theorem All.put {e : Element} (h : e.All P) {a : Attribute} (ha : P a.name) :
    (e.put a).All P := by
  rw [Element.put]
  split
  · next i hi =>
    refine h.of_sublist (by simp) ?_
    rw [attributes_refresh]
    exact (map_name_modify ..).symm ▸ List.Sublist.refl _
  · next hi =>
    refine h.of_append (a := a) (by simp) (by simp) ha fun b hb => ?_
    have hnot := List.findIdx?_eq_none_iff.1 hi b hb
    simpa using hnot

theorem name_put (a : Attribute) : (e.put a).name = e.name := by
  rw [put]
  simp

theorem isRevision_put {a : Attribute} (ha : P a.name) : IsRevision P e (e.put a) :=
  ⟨name_put e a, fun hp => hp.put ha⟩

theorem isRevision_setAttr {name : String} (hname : P (QName.read name)) (value : String) :
    IsRevision P e (e.setAttr name value) :=
  isRevision_put e (a := ⟨QName.read name, value⟩) hname

theorem isRevision_removeAttr (name : String) : IsRevision P e (e.removeAttr name) := by
  rw [removeAttr]
  split
  · refine .of_sublist (by simp) ?_
    rw [attributes_refresh]
    exact List.eraseP_sublist.map _
  · exact .refl e

theorem isRevision_filterAttrs (p : Attribute → Bool) : IsRevision P e (e.filterAttrs p) := by
  refine .of_sublist rfl ?_
  rw [filterAttrs, attributes_refreshStyle, attributes_refreshClasses]
  exact List.filter_sublist.map _

theorem isRevision_mapAttrs (f : QName → String → Option String) :
    IsRevision P e (e.mapAttrs f) := by
  have hnames : (e.mapAttrs f).attributes.map (·.name) = e.attributes.map (·.name) := by
    rw [mapAttrs, attributes_refreshStyle, attributes_refreshClasses, List.map_map]
    refine List.map_congr_left fun a _ => ?_
    simp only [Function.comp_apply]
    split <;> rfl
  exact .of_sublist rfl (hnames ▸ List.Sublist.refl _)

/-- The name `writeBack` adds is not there: no attribute without label has it. -/
theorem isRevision_writeBack {name : String} (hread : QName.read name = QName.plain name)
    (hname : P (QName.read name)) (value : String) :
    IsRevision P e (e.writeBack name value) := by
  rw [writeBack]
  split
  · next i hi =>
    split
    · exact .of_sublist rfl ((List.eraseIdx_sublist ..).map _)
    · exact .of_sublist rfl ((map_name_modify ..).symm ▸ List.Sublist.refl _)
  · next hi =>
    split
    · exact .refl e
    · refine .of_append (a := ⟨QName.read name, value⟩) rfl rfl hname fun b hb hbn => ?_
      have hnot := List.findIdx?_eq_none_iff.1 hi b hb
      rw [hbn, hread] at hnot
      simp [QName.isNamed, QName.plain] at hnot

variable [QName.Admits P]

theorem isRevision_setPathData (value : String) : IsRevision P e (e.setAttr "d" value) :=
  isRevision_setAttr e (QName.Admits.admits _ (by simp)) value

theorem isRevision_setTransform (value : String) :
    IsRevision P e (e.setAttr "transform" value) :=
  isRevision_setAttr e (QName.Admits.admits _ (by simp)) value

theorem isRevision_replaceStyle (style : Style) : IsRevision P e (e.replaceStyle style) := by
  have hstyle : P (QName.read "style") := QName.Admits.admits _ (by simp)
  have h := isRevision_writeBack { e with style } (by decide) hstyle style.write
  exact ⟨h.name, fun hp => h.all ⟨hp.name, hp.names, hp.nodup⟩⟩

theorem isRevision_setStyle (x : Declaration) : IsRevision P e (e.setStyle x) :=
  isRevision_replaceStyle e _

theorem isRevision_removeClass (token : String) : IsRevision P e (e.removeClass token) := by
  rw [removeClass]
  split
  · have hclass : P (QName.read "class") := QName.Admits.admits _ (by simp)
    have h := isRevision_writeBack { e with classes := e.classes.erase token } (by decide)
      hclass (e.classes.erase token).write
    exact ⟨h.name, fun hp => h.all ⟨hp.name, hp.names, hp.nodup⟩⟩
  · exact .refl e

end Operations

theorem all_ofAttributes {P : QName → Prop} {name : QName} (hname : P name)
    {attributes : List Attribute} (hattributes : ∀ a ∈ attributes, P a.name) :
    (ofAttributes name attributes).All P :=
  List.foldlRecOn (motive := fun e : Element => e.All P) attributes put
    ⟨hname, by simp [bare], by simp [bare]⟩ fun _ he a ha => he.put (hattributes a ha)

theorem isPlain_of_isWord {e : Element} (hread : e.All QName.IsRead) (hname : e.name.IsWord)
    (hnames : ∀ a ∈ e.attributes, a.name.IsWord) : e.IsPlain where
  name := ⟨hname, hread.name⟩
  names a ha := ⟨hnames a ha, hread.names a ha⟩
  nodup := hread.nodup

end Element
end SvgCompact
