import Mathlib.Algebra.GroupWithZero.Nat
import Mathlib.Algebra.Order.BigOperators.Group.List
import Mathlib.Algebra.Order.Group.Nat
import Mathlib.Data.List.Perm.Subperm
import SvgCompact.Markup.Printer
import SvgCompact.Proofs.Element.Lookup
import SvgCompact.Text.Measure

/-!
How long elements are as markup.

The attributes of an element print one by one, so what an operation does to the length is
what it does to the attributes that it touches.
-/

namespace SvgCompact

/-! ## Lengths in bytes

A length is a sum over characters, so it is blind to order and grows with what is there. -/

/-! ### Sums over lists without repetition -/

section Sums

variable {α : Type} {f g : α → Nat} {l l' : List α}

theorem sum_map_le_of_subset (hl' : l'.Nodup) (hsub : l' ⊆ l) (hle : ∀ a ∈ l', f a ≤ g a) :
    (l'.map f).sum ≤ (l.map g).sum := by
  obtain ⟨m, hperm, hm⟩ := List.subperm_of_subset hl' hsub
  calc (l'.map f).sum
    _ ≤ (l'.map g).sum := List.sum_le_sum hle
    _ = (m.map g).sum := (hperm.map g).sum_eq.symm
    _ ≤ (l.map g).sum := (hm.map g).sum_le_sum fun _ _ => Nat.zero_le _

/-- Of two members one may gain what the other loses. -/
theorem sum_map_le_of_exchange [DecidableEq α] (hl : l.Nodup) {x y : α} (hx : x ∈ l) (hy : y ∈ l)
    (hne : x ≠ y) (hxy : f x + f y ≤ g x + g y) (hle : ∀ a ∈ l, a ≠ x → a ≠ y → f a ≤ g a) :
    (l.map f).sum ≤ (l.map g).sum := by
  have hy' : y ∈ l.erase x := (List.mem_erase_of_ne hne.symm).2 hy
  have hperm : l.Perm (x :: y :: (l.erase x).erase y) :=
    (List.perm_cons_erase hx).trans ((List.perm_cons_erase hy').cons x)
  have hrest : (((l.erase x).erase y).map f).sum ≤ (((l.erase x).erase y).map g).sum := by
    refine List.sum_le_sum fun a ha => ?_
    obtain ⟨hay, ha⟩ := (hl.erase x).mem_erase_iff.1 ha
    obtain ⟨hax, ha⟩ := hl.mem_erase_iff.1 ha
    exact hle a ha hax hay
  rw [(hperm.map f).sum_eq, (hperm.map g).sum_eq]
  simp only [List.map_cons, List.sum_cons]
  omega

/-- A part of a list that weighs as much as the whole list is the whole list. -/
theorem eq_of_sublist_of_sum_le {size : α → Nat} {part : List α} (hpart : part.Sublist l)
    (hsize : ∀ a ∈ l, 1 ≤ size a) (hle : (l.map size).sum ≤ (part.map size).sum) : part = l := by
  induction hpart with
  | slnil => rfl
  | cons a hrest _ =>
    -- an element that was left out is missing from the sum
    have hone := hsize a (List.mem_cons_self ..)
    have hrest := (hrest.map size).sum_le_sum fun _ _ => Nat.zero_le _
    rw [List.map_cons, List.sum_cons] at hle
    omega
  | cons_cons a _ ih =>
    rw [List.map_cons, List.map_cons, List.sum_cons, List.sum_cons] at hle
    rw [ih (fun b hb => hsize b (List.mem_cons_of_mem a hb)) (Nat.le_of_add_le_add_left hle)]

theorem perm_of_subset_of_sum_le {size : α → Nat} {part : List α} (hnodup : part.Nodup)
    (hsubset : part ⊆ l) (hsize : ∀ a ∈ l, 1 ≤ size a)
    (hle : (l.map size).sum ≤ (part.map size).sum) : part.Perm l := by
  obtain ⟨middle, hperm, hsub⟩ := hnodup.subperm hsubset
  rw [← (hperm.map size).sum_eq] at hle
  rw [← eq_of_sublist_of_sum_le hsub hsize hle]
  exact hperm.symm

end Sums

namespace Text

theorem byteSize_eq_sum (s : List Char) : byteSize s = (s.map Char.utf8Size).sum := by
  induction s with
  | nil => rfl
  | cons c cs ih => rw [byteSize, ih, List.map_cons, List.sum_cons]

@[simp] theorem byteSize_append (s t : List Char) :
    byteSize (s ++ t) = byteSize s + byteSize t := by
  simp [byteSize_eq_sum]

theorem byteSize_flatMap {α : Type} (f : α → List Char) (l : List α) :
    byteSize (l.flatMap f) = (l.map fun a => byteSize (f a)).sum := by
  induction l with
  | nil => rfl
  | cons a rest ih => rw [List.flatMap_cons, byteSize_append, ih, List.map_cons, List.sum_cons]

theorem length_le_byteSize (s : List Char) : s.length ≤ byteSize s := by
  induction s with
  | nil => exact Nat.le_refl 0
  | cons c cs ih =>
    have hpos := Char.utf8Size_pos c
    rw [List.length_cons, byteSize]
    omega

end Text

open Text (byteSize)

/-! ## Values in quotes -/

namespace Markup

variable {s t : List Char}

/-- Length of a text as the value of an attribute. -/
def escapedSize (s : List Char) : Nat := byteSize (s.flatMap escapeValue)

@[simp] theorem escapedSize_append (s t : List Char) :
    escapedSize (s ++ t) = escapedSize s + escapedSize t := by
  rw [escapedSize, List.flatMap_append, Text.byteSize_append]
  rfl

theorem escapedSize_cons (c : Char) (s : List Char) :
    escapedSize (c :: s) = escapedSize [c] + escapedSize s :=
  escapedSize_append [c] s

theorem escapedSize_le_of_sublist (h : s.Sublist t) : escapedSize s ≤ escapedSize t := by
  rw [escapedSize, escapedSize, Text.byteSize_flatMap, Text.byteSize_flatMap]
  exact (h.map _).sum_le_sum fun _ _ => Nat.zero_le _

theorem utf8Size_le_escapedSize (c : Char) : c.utf8Size ≤ escapedSize [c] := by
  rw [escapedSize, List.flatMap_singleton]
  unfold escapeValue
  split
  · decide
  · decide
  · decide
  · decide
  · rw [byteSize, byteSize]
    exact Nat.le_refl _

theorem byteSize_le_escapedSize (s : List Char) : byteSize s ≤ escapedSize s := by
  induction s with
  | nil => exact Nat.le_refl 0
  | cons c cs ih =>
    rw [byteSize, escapedSize_cons]
    exact Nat.add_le_add (utf8Size_le_escapedSize c) ih

theorem length_le_escapedSize (s : List Char) : s.length ≤ escapedSize s :=
  (Text.length_le_byteSize s).trans (byteSize_le_escapedSize s)

theorem escapedSize_eq_sum (s : List Char) :
    escapedSize s = (s.map fun c => escapedSize [c]).sum := by
  induction s with
  | nil => rfl
  | cons c cs ih => rw [escapedSize_cons, ih, List.map_cons, List.sum_cons]

theorem eq_of_sublist_of_escapedSize_le (hsub : s.Sublist t)
    (hle : escapedSize t ≤ escapedSize s) : s = t := by
  rw [escapedSize_eq_sum t, escapedSize_eq_sum s] at hle
  exact eq_of_sublist_of_sum_le hsub (fun c _ => length_le_escapedSize [c]) hle

theorem eq_of_append_eq_append {s' t' : List Char} (happend : s ++ s' = t ++ t')
    (hsize : escapedSize s = escapedSize t) : s = t ∧ s' = t' := by
  have heq : s = t := by
    rcases List.append_eq_append_iff.1 happend with ⟨more, rfl, -⟩ | ⟨more, rfl, -⟩
    · exact eq_of_sublist_of_escapedSize_le (List.sublist_append_left s more) hsize.ge
    · exact (eq_of_sublist_of_escapedSize_le (List.sublist_append_left t more) hsize.le).symm
  subst heq
  exact ⟨rfl, List.append_cancel_left happend⟩

/-- Whether a character stands for itself in a value. -/
def IsUnescaped (c : Char) : Prop := escapeValue c = [c]

theorem isUnescaped_of_all (h : s.all (fun c => escapeValue c == [c]) = true) :
    ∀ c ∈ s, IsUnescaped c :=
  fun c hc => eq_of_beq (List.all_eq_true.1 h c hc)

theorem escapedSize_of_isUnescaped (h : ∀ c ∈ s, IsUnescaped c) : escapedSize s = byteSize s := by
  rw [escapedSize, List.flatMap_congr h, List.flatMap_singleton']

/-- Length of an attribute with the blank before it. -/
def attributeSize (a : Attribute) : Nat := byteSize (printAttribute a)

theorem attributeSize_eq (a : Attribute) : attributeSize a =
    byteSize a.name.full.toList + escapedSize a.value.toList + 4 := by
  have hmarks : byteSize [' '] + byteSize ['='] + byteSize ['"'] + byteSize ['"'] = 4 := by decide
  rw [attributeSize, show printAttribute a = [' '] ++ a.name.full.toList ++ ['='] ++ ['"'] ++
    a.value.toList.flatMap escapeValue ++ ['"'] by simp [printAttribute]]
  simp only [Text.byteSize_append]
  rw [← escapedSize]
  omega

end Markup

/-! ## Attributes -/

namespace Element

open Markup (attributeSize attributeSize_eq escapedSize)

variable {e e' e'' : Element} {a : Attribute} {s held : String}

/-- Length of the attributes of an element as they are printed. -/
def attributesSize (e : Element) : Nat := (e.attributes.map attributeSize).sum

theorem attributesSize_put_le (e : Element) (a : Attribute) :
    (e.put a).attributesSize ≤ e.attributesSize + attributeSize a := by
  rw [attributesSize, attributesSize]
  rcases attributes_put_cases e a with ⟨front, held, back, hheld, -, -, hput⟩ | ⟨-, hput⟩
  · rw [hput, hheld]
    simp only [List.map_append, List.map_cons, List.sum_append, List.sum_cons]
    omega
  · rw [hput]
    simp

/-- A new value is longer or shorter by the difference to the old one. -/
theorem attributesSize_put_of_attr? (hs : QName.read s = QName.plain s)
    (hheld : e.attr? s = some held) (value : String) :
    (e.put ⟨QName.plain s, value⟩).attributesSize + escapedSize held.toList =
      e.attributesSize + escapedSize value.toList := by
  obtain ⟨front, back, hold, hput⟩ := attributes_put_of_attr? hs hheld value
  rw [attributesSize, attributesSize, hput, hold]
  simp only [List.map_append, List.map_cons, List.sum_append, List.sum_cons, attributeSize_eq]
  omega

/-! ## Elements that get no longer -/

/-- Whether an element is as long as another one of its name at most. -/
structure IsNoLonger (e e' : Element) : Prop where
  name : e'.name = e.name
  size : e'.attributesSize ≤ e.attributesSize

namespace IsNoLonger

theorem refl (e : Element) : e.IsNoLonger e := ⟨rfl, Nat.le_refl _⟩

theorem trans (h : e.IsNoLonger e') (h' : e'.IsNoLonger e'') : e.IsNoLonger e'' :=
  ⟨h'.name.trans h.name, h'.size.trans h.size⟩

theorem foldl {α : Type} {f : Element → α → Element} {l : List α}
    (hf : ∀ (e : Element) a, e.IsNoLonger (f e a)) (e : Element) : e.IsNoLonger (l.foldl f e) :=
  List.foldlRecOn (motive := e.IsNoLonger) l f (refl e) fun _ h a _ => h.trans (hf _ a)

theorem of_sublist (hname : e'.name = e.name) (hsub : e'.attributes.Sublist e.attributes) :
    e.IsNoLonger e' :=
  ⟨hname, (hsub.map _).sum_le_sum fun _ _ => Nat.zero_le _⟩

end IsNoLonger

theorem isNoLonger_filterAttrs (p : Attribute → Bool) (e : Element) :
    e.IsNoLonger (e.filterAttrs p) :=
  .of_sublist rfl List.filter_sublist

theorem isNoLonger_removeAttr (e : Element) (name : String) : e.IsNoLonger (e.removeAttr name) := by
  rw [removeAttr]
  split
  · refine .of_sublist (name_refresh ..) ?_
    rw [attributes_refresh]
    exact List.eraseP_sublist
  · exact .refl e

theorem isNoLonger_mapAttrs {f : QName → String → Option String}
    (hf : ∀ name value value', f name value = some value' →
      escapedSize value'.toList ≤ escapedSize value.toList) (e : Element) :
    e.IsNoLonger (e.mapAttrs f) := by
  refine ⟨rfl, ?_⟩
  rw [attributesSize, mapAttrs, attributes_refreshStyle, attributes_refreshClasses, List.map_map]
  refine List.sum_le_sum fun a _ => ?_
  rw [Function.comp_apply]
  split
  · next value' hvalue =>
    rw [attributeSize_eq, attributeSize_eq]
    exact Nat.add_le_add_right (Nat.add_le_add_left (hf _ _ _ hvalue) _) _
  · exact Nat.le_refl _

/-- A second form that is written back is no longer than the text that it stood for. -/
theorem isNoLonger_writeBack {value : String} (hheld : e.attr? s = some held)
    (hvalue : escapedSize value.toList ≤ escapedSize held.toList) :
    e.IsNoLonger (e.writeBack s value) := by
  rw [writeBack]
  cases hi : e.attributes.findIdx? (·.name.isNamed s) with
  | none =>
    obtain ⟨b, hb, -⟩ := Option.map_eq_some_iff.1 hheld
    have hnot := List.findIdx?_eq_none_iff.1 hi b (List.mem_of_find?_eq_some hb)
    exact absurd (List.find?_some hb) (Bool.eq_false_iff.1 hnot)
  | some i =>
    obtain ⟨hlt, hnamed, hfront⟩ := List.findIdx?_eq_some_iff_getElem.1 hi
    have hold : e.attributes[i].value = held := by
      have hfound : e.attribute? s = some e.attributes[i] :=
        List.find?_eq_some_iff_getElem.2
          ⟨hnamed, i, hlt, rfl, fun j hj => by simpa using hfront j hj⟩
      rw [attr?, hfound] at hheld
      exact Option.some.inj hheld
    dsimp only
    split
    · exact .of_sublist rfl (List.eraseIdx_sublist ..)
    · refine ⟨rfl, ?_⟩
      have hsplit : e.attributes =
          e.attributes.take i ++ e.attributes[i] :: e.attributes.drop (i + 1) := by
        rw [List.getElem_cons_drop, List.take_append_drop]
      rw [attributesSize, attributesSize, List.modify_eq_take_cons_drop hlt]
      conv_rhs => rw [hsplit]
      simp only [List.map_append, List.map_cons, List.sum_append, List.sum_cons, attributeSize_eq,
        hold]
      omega

theorem isNoLonger_replaceStyle {style : Style} (hheld : e.attr? "style" = some held)
    (hstyle : escapedSize style.write.toList ≤ escapedSize held.toList) :
    e.IsNoLonger (e.replaceStyle style) := by
  have h := isNoLonger_writeBack (e := { e with style }) hheld hstyle
  exact ⟨h.name, h.size⟩

end Element

end SvgCompact
