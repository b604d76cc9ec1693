import Mathlib.Data.List.Nodup
import SvgCompact.Element.ClassList
import SvgCompact.Proofs.Element.Names
import SvgCompact.Proofs.Text.Trimming

/-!
The class list and the style as functions of the attributes.

In an element that was made of attributes, the two second forms are those of the
attributes `class` and `style`.  So a name and a list of attributes without repetition
are all there is to it, and the order of the attributes has no say in the two forms.
-/

namespace SvgCompact

/-! ## Class lists

A list whose tokens are distinct words is read again from what it is written as, and
reading yields no other lists.  Adding a token that is no word breaks this, but an empty
token is never added, so only the empty list is written as the empty text. -/

namespace ClassList

variable {classes : ClassList} {token : String}

theorem accepts_eq_true_iff :
    classes.accepts token = true ↔ token ≠ "" ∧ token ∉ classes.tokens := by
  simp [accepts, contains]

theorem tokens_add (h : classes.accepts token = true) :
    (classes.add token).tokens = classes.tokens ++ [token] := by
  rw [add, if_pos h]

/-! ### Tokens that are not empty -/

/-- Whether no token is empty. -/
def HasTokens (classes : ClassList) : Prop :=
  ∀ t ∈ classes.tokens, t ≠ ""

theorem HasTokens.add (h : classes.HasTokens) (token : String) :
    (classes.add token).HasTokens := by
  by_cases hnew : classes.accepts token = true
  · intro t ht
    rw [tokens_add hnew, List.mem_append, List.mem_singleton] at ht
    rcases ht with ht | rfl
    · exact h t ht
    · exact (accepts_eq_true_iff.1 hnew).1
  · rwa [ClassList.add, if_neg hnew]

theorem HasTokens.erase (h : classes.HasTokens) (token : String) :
    (classes.erase token).HasTokens :=
  fun t ht => h t (List.mem_filter.1 ht).1

/-- Only the empty list is written as the empty text. -/
theorem HasTokens.eq_empty (h : classes.HasTokens) (hwrite : classes.write = "") :
    classes = empty := by
  obtain ⟨tokens⟩ := classes
  cases tokens with
  | nil => rfl
  | cons t rest =>
    have htoken : t = "" := by
      have hnil : (write ⟨t :: rest⟩).toList = [] := by rw [hwrite, String.toList_empty]
      rw [write, String.toList_intercalate, List.map_cons] at hnil
      apply String.toList_injective
      rw [String.toList_empty]
      cases rest with
      | nil => simpa using hnil
      | cons u rest => simp [List.intercalate_cons_cons] at hnil
    exact absurd htoken (h t (List.mem_cons_self ..))

/-! ### Lists of words -/

/-- Whether the tokens are distinct words. -/
structure IsSplit (classes : ClassList) : Prop where
  nodup : classes.tokens.Nodup
  words : ∀ t ∈ classes.tokens, Text.IsOneWord t.toList

theorem isSplit_empty : empty.IsSplit := ⟨List.nodup_nil, List.forall_mem_nil _⟩

theorem IsSplit.hasTokens (h : classes.IsSplit) : classes.HasTokens := by
  rintro t ht rfl
  exact (h.words _ ht).ne_nil String.toList_empty

theorem IsSplit.add (h : classes.IsSplit)
    (hspaceless : ∀ c ∈ token.toList, Text.isSpace c = false) :
    (classes.add token).IsSplit := by
  by_cases hnew : classes.accepts token = true
  · obtain ⟨hne, hmem⟩ := accepts_eq_true_iff.1 hnew
    constructor
    · rw [tokens_add hnew]
      exact h.nodup.append (List.nodup_singleton token) (by simpa using hmem)
    · intro t ht
      rw [tokens_add hnew, List.mem_append, List.mem_singleton] at ht
      rcases ht with ht | rfl
      · exact h.words t ht
      · exact ⟨String.toList_eq_nil_iff.not.2 hne, hspaceless⟩
  · rwa [ClassList.add, if_neg hnew]

theorem IsSplit.erase (h : classes.IsSplit) (token : String) : (classes.erase token).IsSplit :=
  ⟨h.nodup.filter _, fun t ht => h.words t (List.mem_filter.1 ht).1⟩

theorem isSplit_read (s : String) : (read s).IsSplit := by
  refine List.foldlRecOn (motive := IsSplit) _ _ isSplit_empty fun classes h word hword => ?_
  refine h.add ?_
  rw [String.toList_ofList]
  exact (Text.isOneWord_of_mem_words hword).spaceless

theorem foldl_add {acc tokens : List String} (hnodup : (acc ++ tokens).Nodup)
    (hne : ∀ t ∈ tokens, t ≠ "") : tokens.foldl add ⟨acc⟩ = ⟨acc ++ tokens⟩ := by
  induction tokens generalizing acc with
  | nil => rw [List.append_nil, List.foldl_nil]
  | cons t rest ih =>
    obtain ⟨ht, hrest⟩ := List.forall_mem_cons.1 hne
    have hnew : t ∉ acc := fun hmem =>
      (List.nodup_append.1 hnodup).2.2 t hmem t (List.mem_cons_self ..) rfl
    have hadd : (⟨acc⟩ : ClassList).add t = ⟨acc ++ [t]⟩ := by
      rw [ClassList.add, if_pos (accepts_eq_true_iff.2 ⟨ht, hnew⟩)]
    rw [List.append_cons] at hnodup
    rw [List.foldl_cons, hadd, ih hnodup hrest, ← List.append_cons]

/-- A list of distinct words is what its text is read as. -/
theorem IsSplit.read_written (h : classes.IsSplit) : read classes.write = classes := by
  have hwords : Text.words classes.write.toList = classes.tokens.map String.toList := by
    rw [write, String.toList_intercalate]
    refine Text.words_intercalate fun w hw => ?_
    obtain ⟨t, ht, rfl⟩ := List.mem_map.1 hw
    exact h.words t ht
  rw [read, hwords, List.foldl_map]
  simp only [String.ofList_toList]
  exact @foldl_add [] _ h.nodup h.hasTokens

end ClassList

namespace Element

variable {e : Element} {name : QName} {s : String}

/-- Whether the two second forms are those of the attributes. -/
structure IsFresh (e : Element) : Prop where
  classes : e.classes = ((e.attr? "class").map ClassList.read).getD ClassList.empty
  style : e.style = ((e.attr? "style").map Style.read).getD Style.empty

instance (e : Element) : Decidable e.IsFresh :=
  decidable_of_iff (_ ∧ _) ⟨fun h => ⟨h.1, h.2⟩, fun h => ⟨h.classes, h.style⟩⟩

theorem IsFresh.ext {e' : Element} (h : e.IsFresh) (h' : e'.IsFresh) (hname : e.name = e'.name)
    (hattributes : e.attributes = e'.attributes) : e = e' := by
  have hattr : ∀ s, e.attr? s = e'.attr? s := fun s => by
    rw [attr?, attr?, attribute?, attribute?, hattributes]
  have hclasses : e.classes = e'.classes := by rw [h.classes, h'.classes, hattr]
  have hstyle : e.style = e'.style := by rw [h.style, h'.style, hattr]
  cases e
  cases e'
  simp_all only

theorem find?_modify {α : Type} {p : α → Bool} {f : α → α} {l : List α} {i : Nat}
    (hp : ∀ x, l[i]? = some x → p x = false ∧ p (f x) = false) :
    (l.modify i f).find? p = l.find? p := by
  induction l generalizing i with
  | nil => rw [List.modify_nil]
  | cons x rest ih =>
    cases i with
    | zero =>
      obtain ⟨hx, hfx⟩ := hp x rfl
      rw [List.modify_zero_cons, List.find?_cons_of_neg (by simp [hfx]),
        List.find?_cons_of_neg (by simp [hx])]
    | succ i => rw [List.modify_succ_cons, List.find?_cons, List.find?_cons, ih hp]

theorem attribute?_put {a : Attribute} (ha : a.name.isNamed s = false) :
    (e.put a).attribute? s = e.attribute? s := by
  rw [attribute?, put, attributes_refresh]
  split
  · next i hi =>
    obtain ⟨hlt, hname, -⟩ := List.findIdx?_eq_some_iff_getElem.1 hi
    refine find?_modify fun x hx => ?_
    obtain ⟨-, rfl⟩ := List.getElem?_eq_some_iff.1 hx
    have hxs : (e.attributes[i].name).isNamed s = false := by
      rw [eq_of_beq hname, ha]
    exact ⟨hxs, hxs⟩
  · rw [List.find?_append, List.find?_cons_of_neg (by simp [ha]), List.find?_nil, Option.or_none]
    rfl

theorem isNamed_iff_eq_plain {n : QName} (hs : QName.read s = QName.plain s) :
    n.isNamed s = true ↔ n = QName.plain s := by
  obtain ⟨space, stem⟩ := n
  cases space with
  | none => simp [QName.isNamed, QName.plain]
  | some space =>
    show ((⟨some space, stem⟩ : QName) == QName.read s) = true ↔ _
    rw [hs, beq_iff_eq]

theorem read_class : QName.read "class" = QName.plain "class" := by decide

theorem read_style : QName.read "style" = QName.plain "style" := by decide

theorem read_id : QName.read "id" = QName.plain "id" := by decide

theorem IsFresh.put (h : e.IsFresh) (a : Attribute) : (e.put a).IsFresh := by
  have hattr : ∀ {s}, QName.read s = QName.plain s → a.name ≠ QName.plain s →
      (e.put a).attr? s = e.attr? s := by
    intro s hs hne
    have hnamed : a.name.isNamed s = false :=
      Bool.eq_false_iff.2 fun heq => hne ((isNamed_iff_eq_plain hs).1 heq)
    rw [attr?, attribute?_put hnamed, attr?]
  constructor
  · by_cases hclass : a.name = QName.plain "class"
    · rw [Element.put, refresh, if_pos (beq_iff_eq.2 hclass)]
      rfl
    · rw [hattr read_class hclass, ← h.classes, Element.put, refresh,
        if_neg (beq_iff_eq.not.2 hclass)]
      split <;> rfl
  · by_cases hstyle : a.name = QName.plain "style"
    · have hclass : a.name ≠ QName.plain "class" := by
        rw [hstyle]
        decide
      rw [Element.put, refresh, if_neg (beq_iff_eq.not.2 hclass), if_pos (beq_iff_eq.2 hstyle)]
      rfl
    · rw [hattr read_style hstyle, ← h.style, Element.put, refresh]
      split
      · rfl
      · rw [if_neg (beq_iff_eq.not.2 hstyle)]

theorem isFresh_ofAttributes (name : QName) (attributes : List Attribute) :
    (ofAttributes name attributes).IsFresh :=
  List.foldlRecOn (motive := IsFresh) attributes put ⟨rfl, rfl⟩ fun _ he a _ => he.put a

theorem name_ofAttributes (name : QName) (attributes : List Attribute) :
    (ofAttributes name attributes).name = name :=
  List.foldlRecOn (motive := fun e : Element => e.name = name) attributes put rfl
    fun e he a _ => (name_put e a).trans he

theorem attributes_put {a : Attribute} (h : ∀ b ∈ e.attributes, b.name ≠ a.name) :
    (e.put a).attributes = e.attributes ++ [a] := by
  have hnone : e.attributes.findIdx? (·.name == a.name) = none :=
    List.findIdx?_eq_none_iff.2 fun b hb => by simpa using h b hb
  rw [put, attributes_refresh, hnone]

theorem attributes_ofAttributes {attributes : List Attribute}
    (h : (attributes.map (·.name)).Nodup) :
    (ofAttributes name attributes).attributes = attributes := by
  have hfold : ∀ (l : List Attribute) (e : Element), ((e.attributes ++ l).map (·.name)).Nodup →
      (l.foldl put e).attributes = e.attributes ++ l := by
    intro l
    induction l with
    | nil => exact fun e _ => (List.append_nil _).symm
    | cons a rest ih =>
      intro e hnodup
      have hnew : ∀ b ∈ e.attributes, b.name ≠ a.name := by
        intro b hb
        rw [List.map_append, List.nodup_append] at hnodup
        exact hnodup.2.2 _ (List.mem_map_of_mem hb) _ (by simp)
      rw [List.append_cons, ← attributes_put hnew] at hnodup
      rw [List.foldl_cons, ih _ hnodup, attributes_put hnew, ← List.append_cons]
  exact hfold attributes (bare name) h

/-- An element is made of its name and its attributes. -/
theorem IsFresh.ofAttributes_eq (h : e.IsFresh) (hnodup : (e.attributes.map (·.name)).Nodup) :
    ofAttributes e.name e.attributes = e :=
  (isFresh_ofAttributes _ _).ext h (name_ofAttributes _ _) (attributes_ofAttributes hnodup)

/-! ## The order of the attributes -/

theorem attribute?_eq_some_iff (hs : QName.read s = QName.plain s)
    (hnodup : (e.attributes.map (·.name)).Nodup) {a : Attribute} :
    e.attribute? s = some a ↔ a ∈ e.attributes ∧ a.name = QName.plain s := by
  have hsound : ∀ {b}, e.attribute? s = some b → b ∈ e.attributes ∧ b.name = QName.plain s := by
    intro b hb
    have hnamed : b.name.isNamed s = true :=
      List.find?_some (p := fun b : Attribute => b.name.isNamed s) hb
    exact ⟨List.mem_of_find?_eq_some hb, (isNamed_iff_eq_plain hs).1 hnamed⟩
  refine ⟨hsound, ?_⟩
  rintro ⟨ha, hname⟩
  cases hfound : e.attribute? s with
  | none =>
    have hnot := List.find?_eq_none.1 hfound a ha
    exact absurd ((isNamed_iff_eq_plain hs).2 hname) hnot
  | some b =>
    obtain ⟨hb, hbname⟩ := hsound hfound
    rw [List.inj_on_of_nodup_map hnodup hb ha (hbname.trans hname.symm)]

/-- Attributes in another order make an element with the same class list and style. -/
theorem IsFresh.ofAttributes_of_perm (h : e.IsFresh)
    (hnodup : (e.attributes.map (·.name)).Nodup) {l : List Attribute}
    (hl : l.Perm e.attributes) :
    (ofAttributes e.name l).attributes = l ∧ (ofAttributes e.name l).classes = e.classes ∧
      (ofAttributes e.name l).style = e.style := by
  have hnodup' : (l.map (·.name)).Nodup := (hl.map _).nodup_iff.2 hnodup
  have hattributes := @attributes_ofAttributes e.name l hnodup'
  have hattr : ∀ {s}, QName.read s = QName.plain s →
      (ofAttributes e.name l).attr? s = e.attr? s := by
    intro s hs
    rw [attr?, attr?]
    congr 1
    refine Option.ext fun a => ?_
    rw [attribute?_eq_some_iff hs (by rwa [hattributes]), attribute?_eq_some_iff hs hnodup,
      hattributes, hl.mem_iff]
  have hfresh := isFresh_ofAttributes e.name l
  exact ⟨hattributes, by rw [hfresh.classes, hattr read_class, ← h.classes],
    by rw [hfresh.style, hattr read_style, ← h.style]⟩

end Element

end SvgCompact
