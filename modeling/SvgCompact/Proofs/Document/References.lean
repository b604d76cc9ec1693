import SvgCompact.Pass.References
import SvgCompact.Proofs.Document.Lineage
import SvgCompact.Proofs.Element.Lookup
import SvgCompact.Proofs.Text.Search

/-!
Ids and the references to them.

A text refers to an id by `url(#…)`, with or without quotes, and an attribute `href`
also by the id alone.  The scan for references finds all that name an id without blanks,
quotes and closing brackets.
-/

namespace SvgCompact

namespace References

/-- Whether a text refers to an id by `url(…)`. -/
def Names (v : String) (s : List Char) : Prop :=
  ∃ quote ∈ ["", "\"", "'"], ("url(" ++ quote ++ "#" ++ v ++ quote ++ ")").toList <:+: s

variable {v x : String} {s : List Char}

/-- Whether none of the characters of an id ends a reference or is cut off from it. -/
def IsPlain (v : String) : Prop :=
  ∀ c ∈ v.toList, Text.isBlank c = false ∧ c ≠ ')' ∧ c ≠ '"' ∧ c ≠ '\''

theorem mem_inText_cons {c : Char} {cs : List Char} :
    x ∈ inText (c :: cs) ↔
      (∃ rest, Text.after? "url(".toList (c :: cs) = some rest ∧
        target? (rest.takeWhile (· != ')')) = some x) ∨ x ∈ inText cs := by
  rw [inText]
  cases Text.after? "url(".toList (c :: cs) with
  | none => simp
  | some rest => simp

theorem mem_inText_append (front : List Char) (h : x ∈ inText s) : x ∈ inText (front ++ s) := by
  induction front with
  | nil => exact h
  | cons c front ih => exact mem_inText_cons.2 (.inr ih)

theorem target?_eq_some (hv : IsPlain v) {quote : List Char}
    (hquote : ∀ c ∈ quote, c = '"' ∨ c = '\'') :
    target? (quote ++ '#' :: v.toList ++ quote) = some v := by
  have hbare : ∀ c ∈ '#' :: v.toList, Text.isBlank c = false ∧ c ≠ '"' ∧ c ≠ '\'' := by
    intro c hc
    rcases List.mem_cons.1 hc with rfl | hc
    · decide
    · exact ⟨(hv c hc).1, (hv c hc).2.2⟩
  have htrim : Text.trim (quote ++ '#' :: v.toList ++ quote) = quote ++ '#' :: v.toList ++ quote := by
    have hnone : ∀ c ∈ quote ++ '#' :: v.toList ++ quote, Text.isBlank c = false := by
      intro c hc
      have hmark : c ∈ quote → Text.isBlank c = false := fun hc => by
        rcases hquote c hc with rfl | rfl <;> decide
      rcases List.mem_append.1 hc with hc | hc
      · exact (List.mem_append.1 hc).elim hmark fun hc => (hbare c hc).1
      · exact hmark hc
    have h := Text.trimBy_append (List.forall_mem_nil _) hnone (List.forall_mem_nil _)
    rwa [List.nil_append, List.append_nil] at h
  have hmark : ∀ c ∈ quote, (c == '"' || c == '\'') = true := fun c hc => by
    simpa using hquote c hc
  rw [target?, htrim, Text.trimBy_append hmark (fun c hc => by simpa using (hbare c hc).2) hmark]
  show (Text.after? ['#'] (['#'] ++ v.toList)).map String.ofList = some v
  rw [Text.after?_append, Option.map_some, String.ofList_toList]

/-- An id that a text refers to is found, if it is plain. -/
theorem mem_inText_of_names (hv : IsPlain v) (h : Names v s) : v ∈ inText s := by
  obtain ⟨quote, hquote, front, back, rfl⟩ := h
  have hmark : ∀ c ∈ quote.toList, c = '"' ∨ c = '\'' := by
    have hall : ∀ q ∈ ["", "\"", "'"], ∀ c ∈ q.toList, c = '"' ∨ c = '\'' := by simp
    exact hall quote hquote
  have hopen : ∀ c ∈ quote.toList ++ '#' :: v.toList ++ quote.toList, (c != ')') = true := by
    intro c hc
    rw [bne_iff_ne]
    have hquoted : c ∈ quote.toList → c ≠ ')' := fun hc => by
      rcases hmark c hc with rfl | rfl <;> decide
    rcases List.mem_append.1 hc with hc | hc
    · rcases List.mem_append.1 hc with hc | hc
      · exact hquoted hc
      · rcases List.mem_cons.1 hc with rfl | hc
        · decide
        · exact (hv c hc).2.1
    · exact hquoted hc
  have heq : front ++ ("url(" ++ quote ++ "#" ++ v ++ quote ++ ")").toList ++ back =
      front ++ ("url(".toList ++ (quote.toList ++ '#' :: v.toList ++ quote.toList ++ ')' :: back)) := by
    simp
  rw [heq]
  refine mem_inText_append front (mem_inText_cons.2 (.inl ⟨_, Text.after?_append _ _, ?_⟩))
  rw [List.takeWhile_append_of_pos hopen, List.takeWhile_cons_of_neg (by decide), List.append_nil]
  exact target?_eq_some hv hmark

/-- Joined words refer to a plain id only if one of them does. -/
theorem names_of_names_write (hv : IsPlain v) {classes : ClassList}
    (htokens : ∀ t ∈ classes.tokens, t.toList <:+: s) (h : Names v classes.write.toList) :
    Names v s := by
  obtain ⟨quote, hquote, hinfix⟩ := h
  have hblank : ' ' ∉ ("url(" ++ quote ++ "#" ++ v ++ quote ++ ")").toList := by
    have hword : ∀ q ∈ ["", "\"", "'"], ' ' ∉ q.toList := by decide
    have hid : ' ' ∉ v.toList := fun hmem => absurd (hv ' ' hmem).1 (by decide)
    simp [hword quote hquote, hid]
  obtain ⟨t, ht, htext⟩ := Text.exists_isInfix_of_intercalate hblank (by simp) hinfix
  exact ⟨quote, hquote, htext.trans (htokens t ht)⟩

end References

/-- Whether an attribute refers to an id. -/
def Attribute.RefersTo (a : Attribute) (v : String) : Prop :=
  References.Names v a.value.toList ∨
    (a.name.stem = "href" ∧ Text.trim a.value.toList = '#' :: v.toList)

theorem Attribute.RefersTo.mem_inAttribute {a : Attribute} {v : String} (h : a.RefersTo v)
    (hv : References.IsPlain v) : v ∈ References.inAttribute a := by
  rw [References.inAttribute]
  rcases h with hnames | ⟨hhref, htrim⟩
  · exact List.mem_append_right _ (References.mem_inText_of_names hv hnames)
  · refine List.mem_append_left _ ?_
    have hafter : Text.after? ['#'] ('#' :: v.toList) = some v.toList :=
      Text.after?_append ['#'] v.toList
    rw [if_pos (beq_iff_eq.2 hhref), htrim, hafter]
    simp

namespace Document

variable {d : Document} {v : String}

/-- Whether an attribute of an element refers to an id. -/
def RefersTo (d : Document) (v : String) : Prop :=
  ∃ j ∈ d.elements, ∃ e, d.element? j = some e ∧ ∃ a ∈ e.attributes, a.RefersTo v

def idOf? (d : Document) (j : NodeId) : Option String :=
  (d.element? j).bind (·.attr? "id")

theorem mem_inDocument_of_refersTo (h : d.RefersTo v) (hv : References.IsPlain v) :
    v ∈ References.inDocument d := by
  obtain ⟨j, hj, e, he, a, ha, hrefers⟩ := h
  exact List.mem_flatMap.2 ⟨e, List.mem_filterMap.2 ⟨j, hj, he⟩,
    List.mem_flatMap.2 ⟨a, ha, hrefers.mem_inAttribute hv⟩⟩

/-- Whether an element has an id. -/
def Carries (d : Document) (v : String) : Prop :=
  ∃ j ∈ d.elements, d.idOf? j = some v

theorem isElement_of_idOf? {j : NodeId} (h : d.idOf? j = some v) : d.isElement j = true := by
  obtain ⟨e, he, -⟩ := Option.bind_eq_some_iff.1 h
  exact Option.isSome_iff_exists.2 ⟨e, he⟩

theorem carries_iff : d.Carries v ↔ ∃ j ∈ d.subtree root, d.idOf? j = some v := by
  refine exists_congr fun j => ⟨fun h => ⟨(List.mem_filter.1 h.1).1, h.2⟩, fun h => ⟨?_, h.2⟩⟩
  exact List.mem_filter.2 ⟨h.1, isElement_of_idOf? h.2⟩

end Document
end SvgCompact
