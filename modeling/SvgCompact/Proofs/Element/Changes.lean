import SvgCompact.Proofs.Element.Forms
import SvgCompact.Proofs.Element.Lookup

/-!
Elements that are changed again and again.

`Forms` is what there is of the class list and the style: the texts of the two attributes
and what they are kept as.  Every change of an element is one of its forms, whatever else
the element holds, as long as no attribute comes twice.  So the forms are a machine of
their own, and what holds of them is shown without a look at the other attributes.
-/

namespace SvgCompact
namespace Element

/-! ## Changes -/

/-- A way to change an element. -/
inductive Change
  | put (a : Attribute)
  | setAttr (name value : String)
  | removeAttr (name : String)
  | filterAttrs (p : Attribute → Bool)
  | mapAttrs (f : QName → String → Option String)
  | sortAttrs (le : Attribute → Attribute → Bool)
  | addClass (token : String)
  | removeClass (token : String)
  | setStyle (d : Declaration)
  | removeStyle (property : String)
  | replaceStyle (style : Style)

def change (e : Element) : Change → Element
  | .put a => e.put a
  | .setAttr name value => e.setAttr name value
  | .removeAttr name => e.removeAttr name
  | .filterAttrs p => e.filterAttrs p
  | .mapAttrs f => e.mapAttrs f
  | .sortAttrs le => e.sortAttrs le
  | .addClass token => e.addClass token
  | .removeClass token => e.removeClass token
  | .setStyle d => e.setStyle d
  | .removeStyle property => e.removeStyle property
  | .replaceStyle style => e.replaceStyle style

/-- Whether a change is made to an attribute with a label. -/
def Change.isLabelled : Change → Bool
  | .put a => a.name.space.isSome
  | .setAttr name _ => (QName.read name).space.isSome
  | .removeAttr name => (QName.read name).space.isSome
  | _ => false

/-- What an element is made of. -/
inductive Origin
  | named (name : String)
  | made (name : QName) (attributes : List Attribute)

namespace Origin

def element : Origin → Element
  | .named name => bare (QName.read name)
  | .made name attributes => ofAttributes name attributes

/-- The changes that give an element its first attributes. -/
def puts : Origin → List Change
  | .named _ => []
  | .made _ attributes => attributes.map Change.put

/-- The origin without its attributes that carry a label. -/
def unlabelled : Origin → Origin
  | .named name => .named name
  | .made name attributes => .made name (attributes.filter fun a => a.name.space.isNone)

end Origin

/-- An element after changes in a row. -/
def changed (origin : Origin) (changes : List Change) : Element :=
  changes.foldl change origin.element

/-! ## Distinct names -/

variable {e : Element} {s name value : String}

theorem isRevision_addClass (e : Element) (token : String) :
    IsRevision (fun _ => True) e (e.addClass token) := by
  rw [addClass]
  split
  · have h := isRevision_writeBack (P := fun _ => True)
      { e with classes := e.classes.add token } read_class trivial (e.classes.add token).write
    exact ⟨h.name, fun hp => h.all ⟨hp.name, hp.names, hp.nodup⟩⟩
  · exact .refl e

theorem isRevision_removeStyle (e : Element) (property : String) :
    IsRevision (fun _ => True) e (e.removeStyle property) := by
  rw [removeStyle]
  split
  · exact isRevision_replaceStyle e _
  · exact .refl e

theorem nodup_change (h : (e.attributes.map (·.name)).Nodup) (c : Change) :
    ((e.change c).attributes.map (·.name)).Nodup := by
  have hrevised : ∀ {e'}, IsRevision (fun _ => True) e e' →
      (e'.attributes.map (·.name)).Nodup := fun hrevision => hrevision.nodup h
  cases c with
  | put a => exact hrevised (isRevision_put e (a := a) trivial)
  | setAttr name value => exact hrevised (@isRevision_setAttr _ e name trivial value)
  | removeAttr name => exact hrevised (isRevision_removeAttr e name)
  | filterAttrs p => exact hrevised (isRevision_filterAttrs e p)
  | mapAttrs f => exact hrevised (isRevision_mapAttrs e f)
  | sortAttrs le => exact nodup_sortAttrs h le
  | addClass token => exact hrevised (isRevision_addClass e token)
  | removeClass token => exact hrevised (isRevision_removeClass e token)
  | setStyle d => exact hrevised (isRevision_setStyle e d)
  | removeStyle property => exact hrevised (isRevision_removeStyle e property)
  | replaceStyle style => exact hrevised (isRevision_replaceStyle e style)

theorem nodup_element (origin : Origin) : (origin.element.attributes.map (·.name)).Nodup := by
  cases origin with
  | named name => exact List.nodup_nil
  | made name attributes =>
    exact (all_ofAttributes (P := fun _ => True) trivial fun _ _ => trivial).nodup

theorem nodup_changed (origin : Origin) (changes : List Change) :
    ((changed origin changes).attributes.map (·.name)).Nodup :=
  List.foldlRecOn (motive := fun e : Element => (e.attributes.map (·.name)).Nodup) changes change
    (nodup_element origin) fun _ h c _ => nodup_change h c

/-! ## The forms -/

/-- The texts of the attributes `class` and `style` and what they are kept as. -/
structure Forms where
  class? : Option String
  style? : Option String
  classes : ClassList
  style : Style

def forms (e : Element) : Forms :=
  ⟨e.attr? "class", e.attr? "style", e.classes, e.style⟩

namespace Forms

def bare : Forms := ⟨none, none, ClassList.empty, Style.empty⟩

/-- The forms after the attribute `class` got a text or was taken away. -/
def readClass (v : Forms) (text : Option String) : Forms :=
  { v with class? := text, classes := (text.map ClassList.read).getD ClassList.empty }

def readStyle (v : Forms) (text : Option String) : Forms :=
  { v with style? := text, style := (text.map Style.read).getD Style.empty }

def writeClasses (v : Forms) (classes : ClassList) : Forms :=
  { v with class? := shown classes.write, classes }

def writeStyle (v : Forms) (style : Style) : Forms :=
  { v with style? := shown style.write, style }

def put (v : Forms) (n : QName) (text : String) : Forms :=
  if n = QName.plain "class" then v.readClass (some text)
  else if n = QName.plain "style" then v.readStyle (some text)
  else v

def change (v : Forms) : Change → Forms
  | .put a => v.put a.name a.value
  | .setAttr name text => v.put (QName.read name) text
  | .removeAttr name =>
    if name = "class" then if v.class?.isSome then v.readClass none else v
    else if name = "style" then if v.style?.isSome then v.readStyle none else v
    else v
  | .filterAttrs p =>
    (v.readClass (v.class?.filter fun t => p ⟨QName.plain "class", t⟩)).readStyle
      (v.style?.filter fun t => p ⟨QName.plain "style", t⟩)
  | .mapAttrs f =>
    (v.readClass (v.class?.map fun t => (f (QName.plain "class") t).getD t)).readStyle
      (v.style?.map fun t => (f (QName.plain "style") t).getD t)
  | .sortAttrs _ => v
  | .addClass token => if v.classes.accepts token then v.writeClasses (v.classes.add token) else v
  | .removeClass token =>
    if v.classes.contains token then v.writeClasses (v.classes.erase token) else v
  | .setStyle d => v.writeStyle (v.style.set d)
  | .removeStyle property =>
    if (v.style.find? property).isSome then v.writeStyle (v.style.erase property) else v
  | .replaceStyle style => v.writeStyle style

end Forms

/-! ### Changes of an element as changes of its forms -/

theorem forms_put (e : Element) (a : Attribute) :
    (e.put a).forms = e.forms.put a.name a.value := by
  have hclasses : (e.put a).classes = if a.name = QName.plain "class"
      then (((e.put a).attr? "class").map ClassList.read).getD ClassList.empty
      else e.classes := classes_refresh _ _
  have hstyle : (e.put a).style = if a.name = QName.plain "style"
      then (((e.put a).attr? "style").map Style.read).getD Style.empty
      else e.style := style_refresh _ _
  rw [forms, hclasses, hstyle, attr?_put read_class, attr?_put read_style, Forms.put]
  by_cases hclass : a.name = QName.plain "class"
  · have hne : a.name ≠ QName.plain "style" := by
      rw [hclass]
      decide
    rw [if_pos hclass, if_pos hclass, if_pos hclass, if_neg hne, if_neg hne]
    rfl
  · rw [if_neg hclass, if_neg hclass, if_neg hclass]
    split <;> rfl

theorem forms_writeClasses (h : (e.attributes.map (·.name)).Nodup) (classes : ClassList) :
    ({ e with classes }.writeClasses).forms = e.forms.writeClasses classes := by
  let e' : Element := { e with classes }
  have hnodup : (e'.attributes.map (·.name)).Nodup := h
  show forms (e'.writeBack "class" classes.write) = _
  rw [forms, attr?_writeBack_self read_class hnodup, attr?_writeBack read_class (by decide),
    classes_writeBack, style_writeBack]
  rfl

theorem forms_replaceStyle (h : (e.attributes.map (·.name)).Nodup) (style : Style) :
    (e.replaceStyle style).forms = e.forms.writeStyle style := by
  let e' : Element := { e with style }
  have hnodup : (e'.attributes.map (·.name)).Nodup := h
  show forms (e'.writeBack "style" style.write) = _
  rw [forms, attr?_writeBack_self read_style hnodup, attr?_writeBack read_style (by decide),
    classes_writeBack, style_writeBack]
  rfl

theorem forms_removeAttr_of_some (h : (e.attributes.map (·.name)).Nodup) {a : Attribute}
    (hfound : e.attribute? name = some a) :
    (e.removeAttr name).forms =
      if name = "class" then e.forms.readClass none
      else if name = "style" then e.forms.readStyle none
      else e.forms := by
  have hnamed : a.name.isNamed name = true := by simpa using List.find?_some hfound
  -- The removed attribute is the one of a form only if the name is that of the form.
  have hplain {s : String} (hs : QName.read s = QName.plain s) :
      a.name = QName.plain s ↔ name = s := by
    constructor
    · intro heq
      rw [heq] at hnamed
      exact (eq_of_beq hnamed).symm
    · rintro rfl
      exact (isNamed_iff_eq_plain hs).1 hnamed
  have hremoved : e.removeAttr name = Element.refresh
      { e with attributes := e.attributes.eraseP (·.name.isNamed name) } a.name := by
    rw [removeAttr, hfound]
  have hclasses := classes_refresh
    { e with attributes := e.attributes.eraseP (·.name.isNamed name) } a.name
  have hstyles := style_refresh
    { e with attributes := e.attributes.eraseP (·.name.isNamed name) } a.name
  rw [← hremoved] at hclasses hstyles
  simp only [hplain read_class] at hclasses
  simp only [hplain read_style] at hstyles
  rw [forms, hclasses, hstyles]
  by_cases hclass : name = "class"
  · subst hclass
    rw [attr?_removeAttr_self read_class h, attr?_removeAttr_of_ne read_style (by decide)]
    rfl
  · rw [if_neg hclass, if_neg hclass, attr?_removeAttr_of_ne read_class hclass]
    by_cases hstyle : name = "style"
    · subst hstyle
      rw [attr?_removeAttr_self read_style h]
      rfl
    · rw [if_neg hstyle, if_neg hstyle, attr?_removeAttr_of_ne read_style hstyle]
      rfl

/-- Only a form that has its attribute loses it. -/
theorem change_removeAttr (e : Element) (name : String) :
    e.forms.change (.removeAttr name) =
      if (e.attr? name).isSome then
        if name = "class" then e.forms.readClass none
        else if name = "style" then e.forms.readStyle none
        else e.forms
      else e.forms := by
  rw [Forms.change]
  by_cases hclass : name = "class"
  · subst hclass
    rfl
  · rw [if_neg hclass, if_neg hclass]
    by_cases hstyle : name = "style"
    · subst hstyle
      rfl
    · rw [if_neg hstyle, if_neg hstyle, ite_self]

theorem forms_removeAttr (h : (e.attributes.map (·.name)).Nodup) (name : String) :
    (e.removeAttr name).forms = e.forms.change (.removeAttr name) := by
  rw [change_removeAttr, attr?]
  cases hfound : e.attribute? name with
  | none =>
    rw [removeAttr, hfound]
    rfl
  | some a => exact forms_removeAttr_of_some h hfound

/-- Each change of an element is one of its forms. -/
theorem forms_change (h : (e.attributes.map (·.name)).Nodup) (c : Change) :
    (e.change c).forms = e.forms.change c := by
  cases c with
  | put a => exact forms_put e a
  | setAttr name value => exact forms_put e _
  | removeAttr name => exact forms_removeAttr h name
  | filterAttrs p =>
    have hfresh := isFresh_filterAttrs p e
    rw [change, forms, hfresh.classes, hfresh.style, attr?_filterAttrs_eq_filter read_class h,
      attr?_filterAttrs_eq_filter read_style h]
    rfl
  | mapAttrs f =>
    have hfresh := isFresh_mapAttrs f e
    rw [change, forms, hfresh.classes, hfresh.style, attr?_mapAttrs read_class h,
      attr?_mapAttrs read_style h]
    rfl
  | sortAttrs le =>
    rw [change, forms, attr?_sortAttrs read_class h, attr?_sortAttrs read_style h]
    rfl
  | addClass token =>
    rw [change, addClass, Forms.change]
    split
    · next haccepts => exact (forms_writeClasses h _).trans (if_pos haccepts).symm
    · next haccepts => exact (if_neg haccepts).symm
  | removeClass token =>
    rw [change, removeClass, Forms.change]
    split
    · next hhas => exact (forms_writeClasses h _).trans (if_pos hhas).symm
    · next hhas => exact (if_neg hhas).symm
  | setStyle d => exact forms_replaceStyle h _
  | removeStyle property =>
    rw [change, removeStyle, Forms.change]
    split
    · next hfound => exact (forms_replaceStyle h _).trans (if_pos hfound).symm
    · next hfound => exact (if_neg hfound).symm
  | replaceStyle style => exact forms_replaceStyle h style

theorem element_eq_foldl (origin : Origin) :
    ∃ name, origin.element = origin.puts.foldl change (bare name) := by
  cases origin with
  | named name => exact ⟨_, rfl⟩
  | made name attributes =>
    refine ⟨name, ?_⟩
    rw [Origin.puts, List.foldl_map]
    rfl

/-- The forms of an element go through its changes on their own. -/
theorem forms_changed (origin : Origin) (changes : List Change) :
    (changed origin changes).forms = (origin.puts ++ changes).foldl Forms.change Forms.bare := by
  have hfold : ∀ (changes : List Change) (e : Element), (e.attributes.map (·.name)).Nodup →
      (changes.foldl change e).forms = changes.foldl Forms.change e.forms := by
    intro changes
    induction changes with
    | nil => exact fun e _ => rfl
    | cons c rest ih =>
      intro e h
      rw [List.foldl_cons, List.foldl_cons, ih _ (nodup_change h c), forms_change h]
  obtain ⟨name, helement⟩ := element_eq_foldl origin
  rw [changed, helement, ← List.foldl_append]
  exact hfold _ (bare name) List.nodup_nil

/-! ## What holds of the forms -/

namespace Forms

variable {v : Forms}

/-- Whether a form is empty without its attribute, and the style is what its text is read
as or is written as its text. -/
structure IsInStep (v : Forms) : Prop where
  tokens : v.classes.HasTokens
  classes : v.class? = none → v.classes = ClassList.empty
  style : v.style? = none → v.style = Style.empty
  text : ∀ t, v.style? = some t → v.style = Style.read t ∨ t = v.style.write

/-- Whether the class list is what its text is read as. -/
structure IsRead (v : Forms) : Prop where
  split : v.classes.IsSplit
  classes : ∀ t, v.class? = some t → v.classes = ClassList.read t

theorem shown_eq_some_iff {text t : String} : shown text = some t ↔ text ≠ "" ∧ text = t := by
  rw [shown]
  split
  · next h => simp [String.isEmpty_iff.1 h]
  · next h => simp [String.isEmpty_iff.not.1 h]

theorem shown_eq_none_iff {text : String} : shown text = none ↔ text = "" := by
  rw [shown]
  split
  · next h => simp [String.isEmpty_iff.1 h]
  · next h => simp [String.isEmpty_iff.not.1 h]

/-- Declarations leave a text. -/
theorem eq_empty_of_write {style : Style} (h : style.write = "") : style = Style.empty := by
  obtain ⟨ds⟩ := style
  cases ds with
  | nil => rfl
  | cons d rest =>
    have hnil : Css.writeDeclarations (d :: rest) = [] := by
      rw [← String.toList_ofList (l := Css.writeDeclarations (d :: rest))]
      exact String.toList_eq_nil_iff.2 h
    have hfirst : d.write = [] := by
      rw [Css.writeDeclarations, List.map_cons] at hnil
      cases rest with
      | nil => rwa [List.map_nil, List.intercalate_singleton] at hnil
      | cons x rest =>
        rw [List.map_cons, List.intercalate_cons_cons, List.append_assoc] at hnil
        exact (List.append_eq_nil_iff.1 hnil).1
    have hcolon := (List.append_eq_nil_iff.1 (List.append_eq_nil_iff.1 hfirst).1).2
    exact absurd hcolon (List.cons_ne_nil _ _)

/-! ### One change -/

theorem isSplit_getD (text : Option String) :
    ((text.map ClassList.read).getD ClassList.empty).IsSplit := by
  cases text with
  | none => exact ClassList.isSplit_empty
  | some t => exact ClassList.isSplit_read t

namespace IsInStep

theorem readClass (h : v.IsInStep) (text : Option String) : (v.readClass text).IsInStep where
  tokens := (isSplit_getD text).hasTokens
  classes hnone := by
    obtain rfl : text = none := hnone
    rfl
  style := h.style
  text := h.text

theorem readStyle (h : v.IsInStep) (text : Option String) : (v.readStyle text).IsInStep where
  tokens := h.tokens
  classes := h.classes
  style hnone := by
    obtain rfl : text = none := hnone
    rfl
  text t ht := by
    obtain rfl : text = some t := ht
    exact .inl rfl

theorem writeClasses (h : v.IsInStep) {classes : ClassList} (hclasses : classes.HasTokens) :
    (v.writeClasses classes).IsInStep where
  tokens := hclasses
  classes hnone := hclasses.eq_empty (shown_eq_none_iff.1 hnone)
  style := h.style
  text := h.text

theorem writeStyle (h : v.IsInStep) (style : Style) : (v.writeStyle style).IsInStep where
  tokens := h.tokens
  classes := h.classes
  style hnone := eq_empty_of_write (shown_eq_none_iff.1 hnone)
  text _ ht := .inr (shown_eq_some_iff.1 ht).2.symm

theorem put (h : v.IsInStep) (n : QName) (text : String) : (v.put n text).IsInStep := by
  rw [Forms.put]
  split
  · exact h.readClass _
  · split
    · exact h.readStyle _
    · exact h

theorem change (h : v.IsInStep) (c : Change) : (v.change c).IsInStep := by
  cases c with
  | put a => exact h.put _ _
  | setAttr name text => exact h.put _ _
  | removeAttr name =>
    rw [Forms.change]
    split
    · split
      · exact h.readClass _
      · exact h
    · split
      · split
        · exact h.readStyle _
        · exact h
      · exact h
  | filterAttrs p => exact (h.readClass _).readStyle _
  | mapAttrs f => exact (h.readClass _).readStyle _
  | sortAttrs le => exact h
  | addClass token =>
    rw [Forms.change]
    split
    · exact h.writeClasses (h.tokens.add token)
    · exact h
  | removeClass token =>
    rw [Forms.change]
    split
    · exact h.writeClasses (h.tokens.erase token)
    · exact h
  | setStyle d => exact h.writeStyle _
  | removeStyle property =>
    rw [Forms.change]
    split
    · exact h.writeStyle _
    · exact h
  | replaceStyle style => exact h.writeStyle _

end IsInStep

namespace IsRead

theorem readClass (v : Forms) (text : Option String) : (v.readClass text).IsRead where
  split := isSplit_getD text
  classes t ht := by
    obtain rfl : text = some t := ht
    rfl

theorem writeClasses (v : Forms) {classes : ClassList} (hclasses : classes.IsSplit) :
    (v.writeClasses classes).IsRead where
  split := hclasses
  classes t ht := by
    obtain ⟨-, rfl⟩ := shown_eq_some_iff.1 ht
    exact hclasses.read_written.symm

/-- The style has no say in the class list. -/
theorem of_classes {v' : Forms} (h : v.IsRead) (hclass : v'.class? = v.class?)
    (hclasses : v'.classes = v.classes) : v'.IsRead where
  split := hclasses ▸ h.split
  classes t ht := by rw [hclasses, h.classes t (hclass ▸ ht)]

theorem put (h : v.IsRead) (n : QName) (text : String) : (v.put n text).IsRead := by
  rw [Forms.put]
  split
  · exact readClass v _
  · split
    · exact h.of_classes rfl rfl
    · exact h

theorem change (h : v.IsRead) {c : Change}
    (hc : ∀ token, c = .addClass token → ∀ x ∈ token.toList, Text.isSpace x = false) :
    (v.change c).IsRead := by
  cases c with
  | put a => exact h.put _ _
  | setAttr name text => exact h.put _ _
  | removeAttr name =>
    rw [Forms.change]
    split
    · split
      · exact readClass v _
      · exact h
    · split
      · split
        · exact h.of_classes rfl rfl
        · exact h
      · exact h
  | filterAttrs p => exact (readClass v _).of_classes rfl rfl
  | mapAttrs f => exact (readClass v _).of_classes rfl rfl
  | sortAttrs le => exact h
  | addClass token =>
    rw [Forms.change]
    split
    · exact writeClasses v (h.split.add (hc token rfl))
    · exact h
  | removeClass token =>
    rw [Forms.change]
    split
    · exact writeClasses v (h.split.erase token)
    · exact h
  | setStyle d => exact h.of_classes rfl rfl
  | removeStyle property =>
    rw [Forms.change]
    split
    · exact h.of_classes rfl rfl
    · exact h
  | replaceStyle style => exact h.of_classes rfl rfl

end IsRead

/-! ### Labels -/

theorem put_of_isSome {n : QName} (hn : n.space.isSome = true) (v : Forms) (text : String) :
    v.put n text = v := by
  have hne : ∀ s, n ≠ QName.plain s := by
    rintro s rfl
    cases hn
  rw [Forms.put, if_neg (hne _), if_neg (hne _)]

/-- Attributes with labels have no say in the forms. -/
theorem change_of_isLabelled {c : Change} (hc : c.isLabelled = true) (v : Forms) :
    v.change c = v := by
  cases c with
  | put a => exact put_of_isSome hc v _
  | setAttr name text => exact put_of_isSome hc v _
  | removeAttr name =>
    have hne : ∀ {s}, QName.read s = QName.plain s → name ≠ s := by
      rintro s hs rfl
      rw [Change.isLabelled, hs] at hc
      cases hc
    rw [Forms.change, if_neg (hne read_class), if_neg (hne read_style)]
  | _ => cases hc

theorem foldl_change_unlabelled (changes : List Change) (v : Forms) :
    (changes.filter (!·.isLabelled)).foldl change v = changes.foldl change v := by
  induction changes generalizing v with
  | nil => rfl
  | cons c rest ih =>
    cases hc : c.isLabelled with
    | true => rw [List.filter_cons_of_neg (by simp [hc]), List.foldl_cons,
        change_of_isLabelled hc, ih]
    | false => rw [List.filter_cons_of_pos (by simp [hc]), List.foldl_cons, List.foldl_cons, ih]

end Forms

theorem puts_unlabelled (origin : Origin) :
    origin.unlabelled.puts = origin.puts.filter (!·.isLabelled) := by
  cases origin with
  | named name => rfl
  | made name attributes =>
    rw [Origin.unlabelled, Origin.puts, Origin.puts, List.filter_map]
    refine congrArg _ (List.filter_congr fun a _ => ?_)
    rw [Function.comp_apply, Change.isLabelled, Option.not_isSome]

/-! ## All changes -/

theorem isInStep_changed (origin : Origin) (changes : List Change) :
    (changed origin changes).forms.IsInStep := by
  rw [forms_changed]
  have hbare : Forms.bare.IsInStep :=
    ⟨List.forall_mem_nil _, fun _ => rfl, fun _ => rfl,
      fun _ ht => absurd ht (by simp [Forms.bare])⟩
  exact List.foldlRecOn (motive := Forms.IsInStep) _ Forms.change hbare fun _ h c _ => h.change c

theorem isRead_changed (origin : Origin) {changes : List Change}
    (hwords : ∀ token, .addClass token ∈ changes → ∀ c ∈ token.toList, Text.isSpace c = false) :
    (changed origin changes).forms.IsRead := by
  have hbare : Forms.bare.IsRead :=
    ⟨ClassList.isSplit_empty, fun _ ht => absurd ht (by simp [Forms.bare])⟩
  have hnone : ∀ token, .addClass token ∉ origin.puts := by
    intro token
    cases origin with
    | named name => exact List.not_mem_nil
    | made name attributes => simp [Origin.puts]
  rw [forms_changed]
  refine List.foldlRecOn (motive := Forms.IsRead) _ Forms.change hbare fun _ h c hc => h.change ?_
  rintro token rfl
  rcases List.mem_append.1 hc with hmem | hmem
  · exact absurd hmem (hnone token)
  · exact hwords token hmem

/-- However an element is made and changed, no attribute comes twice, and a form without
its attribute is empty.  The class list is what its text is read as, if only words were
added to it; the style is what its text is read as, or it is written as its text.  Neither
depends on attributes with labels. -/
theorem forms_in_step (origin : Origin) (changes : List Change) :
    let e := changed origin changes
    (e.attributes.map (·.name)).Nodup
      ∧ ((∀ a ∈ e.attributes, a.name ≠ QName.plain "class") → e.classes = ClassList.empty)
      ∧ ((∀ a ∈ e.attributes, a.name ≠ QName.plain "style") → e.style = Style.empty)
      ∧ ((∀ token, .addClass token ∈ changes → ∀ c ∈ token.toList, Text.isSpace c = false) →
        ∀ t, ⟨QName.plain "class", t⟩ ∈ e.attributes → e.classes = ClassList.read t)
      ∧ (∀ t, ⟨QName.plain "style", t⟩ ∈ e.attributes →
        e.style = Style.read t ∨ t = e.style.write)
      ∧ (changed origin.unlabelled (changes.filter (!·.isLabelled))).forms = e.forms := by
  intro e
  have hnodup := nodup_changed origin changes
  have hinstep := isInStep_changed origin changes
  have hnone : ∀ {s}, QName.read s = QName.plain s →
      (∀ a ∈ e.attributes, a.name ≠ QName.plain s) → e.attr? s = none := by
    intro s hs h
    refine Option.eq_none_iff_forall_ne_some.2 fun v hv => ?_
    exact h _ ((attr?_eq_some_iff hs hnodup).1 hv) rfl
  refine ⟨hnodup, fun h => hinstep.classes (hnone read_class h),
    fun h => hinstep.style (hnone read_style h), fun hwords t ht => ?_, fun t ht => ?_, ?_⟩
  · exact (isRead_changed origin hwords).classes t ((attr?_eq_some_iff read_class hnodup).2 ht)
  · exact hinstep.text t ((attr?_eq_some_iff read_style hnodup).2 ht)
  · rw [forms_changed, forms_changed, puts_unlabelled, ← List.filter_append,
      Forms.foldl_change_unlabelled]

/-- A class is added twice, and an attribute `x:class` is there from the start. -/
theorem classes_of_labelled :
    let origin := Origin.made (QName.plain "rect")
      [⟨QName.plain "class", "a"⟩, ⟨⟨some "x", "class"⟩, "c"⟩]
    let changes := [Change.addClass "b", .setStyle ⟨"fill", "red", .normal⟩, .addClass "b"]
    let e := changed origin changes
    (∀ token, .addClass token ∈ changes → ∀ c ∈ token.toList, Text.isSpace c = false)
      ∧ e.classes = ClassList.read "a b"
      ∧ (changed (.made (QName.plain "rect") [⟨QName.plain "class", "a"⟩]) changes).forms
        = e.forms := by
  intro origin changes e
  have hwords : ∀ token, .addClass token ∈ changes →
      ∀ c ∈ token.toList, Text.isSpace c = false := by
    intro token htoken
    have hb : token.toList = ['b'] := by
      have htoken' : token = "b" := by simpa [changes] using htoken
      rw [htoken']
      rfl
    rw [hb]
    exact List.forall_mem_singleton.2 rfl
  have hclass : (⟨QName.plain "class", "a b"⟩ : Attribute) ∈ e.attributes := by decide
  obtain ⟨-, -, -, hclasses, -, hlabels⟩ := forms_in_step origin changes
  exact ⟨hwords, hclasses hwords _ hclass, hlabels⟩

end Element
end SvgCompact
