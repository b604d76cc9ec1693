import SvgCompact.Markup.Piece
import SvgCompact.Markup.Printer
import SvgCompact.Markup.Reference
import SvgCompact.Proofs.Element.Names
import SvgCompact.Proofs.Markup.Writable

/-!
A printed tag is read as the element it was printed from.
-/

namespace SvgCompact

/-! ## Resolving references undoes escaping -/

namespace Markup

/-- Whether a text resolves to another, whatever text follows both. -/
def Resolves (raw s : List Char) : Prop :=
  ∀ rest t size offset, (∀ offset, resolveFrom size offset rest = .ok t) →
    resolveFrom size offset (raw ++ rest) = .ok (s ++ t)

namespace Resolves

theorem nil : Resolves [] [] := fun _ _ _ offset h => h offset

theorem append {raw raw' s s' : List Char} (h : Resolves raw s) (h' : Resolves raw' s') :
    Resolves (raw ++ raw') (s ++ s') := by
  intro rest t size offset hrest
  rw [List.append_assoc, List.append_assoc]
  exact h _ _ size offset fun offset => h' rest t size offset hrest

theorem char {c : Char} (hc : c ≠ '&') : Resolves [c] [c] := by
  intro rest t size offset hrest
  rw [List.singleton_append, resolveFrom, if_neg (by simpa using hc)]
  simp [bind, Except.bind, hrest]

theorem nameLength?_append {name rest : List Char} (hname : ∀ c ∈ name, c ≠ ';' ∧ c ≠ '&') :
    nameLength? (name ++ ';' :: rest) = some name.length := by
  induction name with
  | nil => rfl
  | cons c cs ih =>
    have hc := hname c (by simp)
    rw [List.cons_append, nameLength?, if_neg (by simpa using hc.1), if_neg (by simpa using hc.2),
      ih fun x hx => hname x (by simp [hx])]
    rfl

theorem of_notMem {raw : List Char} (h : '&' ∉ raw) : Resolves raw raw := by
  induction raw with
  | nil => exact nil
  | cons c cs ih =>
    rw [List.mem_cons, not_or] at h
    exact (char (Ne.symm h.1)).append (ih h.2)

theorem reference (name : List Char) (c : Char)
    (hname : name.all (fun c => c != ';' && c != '&') = true)
    (hc : ∀ offset, Markup.reference offset name = .ok c) :
    Resolves ('&' :: name ++ [';']) [c] := by
  intro rest t size offset hrest
  have hlength := @nameLength?_append name rest (by simpa using hname)
  rw [List.append_assoc, List.cons_append, List.singleton_append, resolveFrom,
    if_pos (by rfl), hlength]
  simp [bind, Except.bind, hc, hrest]

theorem flatMap {f : Char → List Char} (hf : ∀ c, Resolves (f c) [c]) (s : List Char) :
    Resolves (s.flatMap f) s := by
  induction s with
  | nil => exact nil
  | cons c cs ih =>
    rw [List.flatMap_cons]
    exact (hf c).append ih

theorem escapeText (c : Char) : Resolves (Markup.escapeText c) [c] := by
  unfold Markup.escapeText
  split
  · exact reference "amp".toList '&' (by decide) fun _ => rfl
  · exact reference "lt".toList '<' (by decide) fun _ => rfl
  · next hamp _ => exact char hamp

theorem escapeValue (c : Char) : Resolves (Markup.escapeValue c) [c] := by
  unfold Markup.escapeValue
  split
  · exact reference "quot".toList '"' (by decide) fun _ => rfl
  · exact reference "amp".toList '&' (by decide) fun _ => rfl
  · exact reference "lt".toList '<' (by decide) fun _ => rfl
  · exact reference "gt".toList '>' (by decide) fun _ => rfl
  · next hamp _ _ => exact char hamp

theorem resolve_eq {raw s : List Char} (h : Resolves raw s) : resolve raw = .ok s := by
  have hall := h [] [] (Text.byteSize raw) 0 fun offset => by rw [resolveFrom]
  rwa [List.append_nil, List.append_nil] at hall

end Resolves

theorem reference_of_ok {offset : Nat} {name : List Char} {c : Char}
    (h : reference offset name = .ok c) (offset' : Nat) : reference offset' name = .ok c := by
  unfold reference at h ⊢
  split
  · exact h
  · next hnumber =>
    split at h
    · exact absurd rfl (hnumber _)
    · split at h
      · exact h
      · cases h

/-- Where a text stands matters for faults only. -/
theorem resolveFrom_of_ok {size offset : Nat} {raw s : List Char}
    (h : resolveFrom size offset raw = .ok s) (size' offset' : Nat) :
    resolveFrom size' offset' raw = .ok s := by
  induction hn : raw.length using Nat.strongRecOn generalizing raw s offset offset' with
  | ind n ih =>
    cases raw with
    | nil =>
      rw [resolveFrom] at h ⊢
      exact h
    | cons c cs =>
      rw [List.length_cons] at hn
      rw [resolveFrom] at h ⊢
      split
      · next hamp =>
        rw [if_pos hamp] at h
        split at h
        · cases h
        · next k hk =>
          simp only [bind, Except.bind] at h ⊢
          cases hc : reference (offset + 1) (cs.take k) with
          | error fault =>
            rw [hc] at h
            cases h
          | ok resolved =>
            rw [hc] at h
            simp only at h
            split at h
            · cases h
            · next rest hrest =>
              cases h
              rw [reference_of_ok hc, ih _ (by rw [List.length_drop]; omega) hrest _ rfl]
      · next hamp =>
        rw [if_neg hamp] at h
        simp only [bind, Except.bind] at h ⊢
        split at h
        · cases h
        · next rest hrest =>
          cases h
          rw [ih _ (by omega) hrest _ rfl]

theorem Resolves.resolve_append {raw s rest t : List Char} (h : Resolves raw s)
    (hrest : resolve rest = .ok t) : resolve (raw ++ rest) = .ok (s ++ t) :=
  h rest t _ 0 fun offset => resolveFrom_of_ok hrest _ offset

/-! ## Where a tag ends -/

/-- Whether a tag goes on behind some part of it. -/
def IsInTag (s : List Char) : Prop :=
  ∀ rest, takeTag none (s ++ rest) = (takeTag none rest).map fun x => (s ++ x.1, x.2)

namespace IsInTag

theorem nil : IsInTag [] := fun rest => by simp

theorem append {s t : List Char} (hs : IsInTag s) (ht : IsInTag t) : IsInTag (s ++ t) := by
  intro rest
  rw [List.append_assoc, hs, ht, Option.map_map]
  simp [Function.comp_def]

theorem char {c : Char} (hc : c ≠ '>' ∧ c ≠ '"' ∧ c ≠ '\'') : IsInTag [c] := by
  intro rest
  simp [takeTag, hc]

theorem of_forall {s : List Char} (hs : ∀ c ∈ s, c ≠ '>' ∧ c ≠ '"' ∧ c ≠ '\'') : IsInTag s := by
  induction s with
  | nil => exact nil
  | cons c cs ih =>
    exact (char (hs c (by simp))).append (t := cs) (ih fun x hx => hs x (by simp [hx]))

theorem takeTag_quoted {v : List Char} (hv : '"' ∉ v) (rest : List Char) :
    takeTag (some '"') (v ++ '"' :: rest) =
      (takeTag none rest).map fun x => (v ++ '"' :: x.1, x.2) := by
  induction v with
  | nil => simp [takeTag]
  | cons c cs ih =>
    rw [List.mem_cons, not_or] at hv
    rw [List.cons_append, takeTag]
    simp [Ne.symm hv.1, ih hv.2, Function.comp_def]

theorem quoted {v : List Char} (hv : '"' ∉ v) : IsInTag ('"' :: v ++ ['"']) := by
  intro rest
  rw [List.append_assoc, List.cons_append, List.singleton_append, takeTag]
  simp [takeTag_quoted hv, Function.comp_def]

theorem takeTag_eq {s : List Char} (hs : IsInTag s) (rest : List Char) :
    takeTag none (s ++ '>' :: rest) = some (s, rest) := by
  rw [hs, takeTag]
  simp

end IsInTag

theorem notMem_escapeValue (s : List Char) : '"' ∉ s.flatMap escapeValue := by
  intro h
  obtain ⟨c, -, hc⟩ := List.mem_flatMap.1 h
  unfold escapeValue at hc
  split at hc
  · revert hc; decide
  · revert hc; decide
  · revert hc; decide
  · revert hc; decide
  · next hquote _ _ _ =>
    exact hquote (List.mem_singleton.1 hc).symm

/-! ## Names -/

theorem isMarkupBlank_of_isNameChar {c : Char} (h : isNameChar c = true) :
    Text.isMarkupBlank c = false := by
  rw [isNameChar, Bool.not_eq_true', Bool.or_eq_false_iff] at h
  exact h.1

theorem ne_of_isNameChar {c : Char} (h : isNameChar c = true) {x : Char}
    (hx : x ∈ ['"', '\'', '<', '>', '/', '=', '!', '?']) : c ≠ x := by
  intro heq
  subst heq
  rw [isNameChar, Bool.not_eq_true', Bool.or_eq_false_iff, List.contains_eq_mem] at h
  exact of_decide_eq_false h.2 hx

section Words

variable {n : QName} (h : n.IsWord)
include h

theorem isInTag_full : IsInTag n.full.toList :=
  .of_forall fun c hc => ⟨ne_of_isNameChar (h.chars c hc) (by decide),
    ne_of_isNameChar (h.chars c hc) (by decide), ne_of_isNameChar (h.chars c hc) (by decide)⟩

theorem exists_full_eq_cons : ∃ c cs, n.full.toList = c :: cs ∧ isNameChar c = true := by
  have hchars := h.chars
  cases hfull : n.full.toList with
  | nil => exact absurd hfull h.ne_nil
  | cons c cs =>
    rw [hfull] at hchars
    exact ⟨c, cs, rfl, hchars c (by simp)⟩

theorem skipBlanks_full (rest : List Char) :
    skipBlanks (n.full.toList ++ rest) = n.full.toList ++ rest := by
  obtain ⟨c, cs, hfull, hc⟩ := exists_full_eq_cons h
  rw [hfull, List.cons_append, skipBlanks, List.dropWhile_cons_of_neg]
  simp [isMarkupBlank_of_isNameChar hc]

end Words

theorem isInTag_printAttribute {a : Attribute} (h : a.name.IsWord) :
    IsInTag (printAttribute a) := by
  have hvalue := IsInTag.quoted (notMem_escapeValue a.value.toList)
  have heq : printAttribute a = [' '] ++ a.name.full.toList ++ ['=']
      ++ ('"' :: a.value.toList.flatMap escapeValue ++ ['"']) := by
    simp [printAttribute]
  rw [heq]
  exact (((IsInTag.char (by decide)).append (isInTag_full h)).append (.char (by decide))).append
    hvalue

/-! ## Attributes -/

theorem keyLength_append {name rest : List Char} (hne : name ≠ [])
    (hname : ∀ c ∈ name, isNameChar c = true) : keyLength (name ++ '=' :: rest) = name.length := by
  cases name with
  | nil => exact absurd rfl hne
  | cons c cs =>
    have htake :
        (cs ++ '=' :: rest).takeWhile (fun c => !(c == '=' || Text.isMarkupBlank c)) = cs := by
      rw [List.takeWhile_append_of_pos]
      · simp
      · intro x hx
        have hx' := hname x (by simp [hx])
        simp [isMarkupBlank_of_isNameChar hx', ne_of_isNameChar hx' (by decide : '=' ∈ _)]
    rw [List.cons_append, keyLength, htake, List.length_cons]

theorem valueStep_printed {size position : Nat} {key v rest : List Char} (hv : '"' ∉ v) :
    valueStep size key position ('"' :: v ++ '"' :: rest) = .found ⟨key, position, v⟩ rest := by
  have hskip : skipBlanks ('"' :: v ++ '"' :: rest) = '"' :: (v ++ '"' :: rest) := rfl
  have hsplit : Text.splitAt? (· == '"') (v ++ '"' :: rest) = some (v, rest) :=
    Text.splitAt?_eq_some_iff.2 ⟨'"', rfl, rfl, fun x hx => by
      simpa using ne_of_mem_of_not_mem hx hv⟩
  rw [valueStep]
  rw [hskip]
  simp [hsplit]

theorem attributeStep_printAttribute {size : Nat} {known : List RawAttribute} {a : Attribute}
    (ha : a.name.IsWord) (hknown : ∀ k ∈ known, k.key ≠ a.name.full.toList) (rest : List Char) :
    ∃ position, attributeStep size known (printAttribute a ++ rest) =
      .found ⟨a.name.full.toList, position, a.value.toList.flatMap escapeValue⟩ rest := by
  have hlength := @keyLength_append _ ('"' :: a.value.toList.flatMap escapeValue
    ++ '"' :: rest) ha.ne_nil ha.chars
  have hskip : skipBlanks (printAttribute a ++ rest) = a.name.full.toList
      ++ '=' :: ('"' :: a.value.toList.flatMap escapeValue ++ '"' :: rest) := by
    rw [← skipBlanks_full ha]
    simp [printAttribute, skipBlanks, Text.isMarkupBlank]
  have hfind : known.find? (·.key == a.name.full.toList) = none := by
    rw [List.find?_eq_none]
    intro k hk
    simpa using hknown k hk
  obtain ⟨c, cs, hfull, -⟩ := exists_full_eq_cons ha
  rw [hfull] at hlength hskip hfind ⊢
  rw [attributeStep]
  rw [hskip]
  rw [List.cons_append] at hlength ⊢
  simp only [hlength]
  have hvalue := fun position => @valueStep_printed size position
    (c :: cs) _ rest (notMem_escapeValue a.value.toList)
  generalize '"' :: a.value.toList.flatMap escapeValue ++ '"' :: rest = tail at hvalue ⊢
  have htake : (c :: (cs ++ '=' :: tail)).take (c :: cs).length = c :: cs := by simp
  have hdrop : (c :: (cs ++ '=' :: tail)).drop (c :: cs).length = '=' :: tail := by simp
  have hequals : skipBlanks ('=' :: tail) = '=' :: tail := rfl
  rw [htake, hdrop, hequals]
  simp only [beq_self_eq_true, if_true, hfind]
  exact ⟨_, hvalue _⟩

theorem resolveAttributes_printed {size : Nat} {attributes : List Attribute}
    (hplain : ∀ a ∈ attributes, a.name.IsPlain) (hnodup : (attributes.map (·.name)).Nodup)
    {known : List RawAttribute}
    (hknown : ∀ k ∈ known, ∀ a ∈ attributes, k.key ≠ a.name.full.toList) :
    Builder.resolveAttributes
      (attributesFrom size true known (attributes.flatMap printAttribute)) = .ok attributes := by
  induction attributes generalizing known with
  | nil =>
    rw [attributesFrom]
    rfl
  | cons a rest ih =>
    rw [List.map_cons, List.nodup_cons] at hnodup
    have ha := hplain a (by simp)
    obtain ⟨position, hstep⟩ := @attributeStep_printAttribute size known a ha.toIsWord
      (fun k hk => hknown k hk a (by simp)) (rest.flatMap printAttribute)
    have hrest := ih (fun b hb => hplain b (by simp [hb])) hnodup.2
      (fun k (hk : k ∈ known ++ [⟨a.name.full.toList, position,
        a.value.toList.flatMap escapeValue⟩]) b hb => by
        rcases List.mem_append.1 hk with hk | hk
        · exact hknown k hk b (by simp [hb])
        · obtain rfl := List.mem_singleton.1 hk
          intro heq
          have hname := QName.IsRead.full_injective ha.isRead
            (hplain b (by simp [hb])).isRead (String.toList_injective heq)
          exact hnodup.1 (hname ▸ List.mem_map_of_mem hb))
    rw [List.flatMap_cons, attributesFrom]
    split
    · next hdone => simp [hstep] at hdone
    · next hfault => simp [hstep] at hfault
    · next found after hfound =>
      rw [hstep] at hfound
      cases hfound
      have hresolve := (Resolves.flatMap Resolves.escapeValue a.value.toList).resolve_eq
      simp only [if_true, Builder.resolveAttributes, hresolve, hrest, Except.mapError, bind,
        Except.bind, String.ofList_toList]
      rw [ha.isRead]

/-! ## Tags -/

/-- The attributes in the order in which they are printed. -/
def printedAttributes (options : PrintOptions) (e : Element) : List Attribute :=
  if options.sortAttrs then e.attributes.mergeSort attributePrecedes else e.attributes

theorem perm_printedAttributes (options : PrintOptions) (e : Element) :
    (printedAttributes options e).Perm e.attributes := by
  rw [printedAttributes]
  split
  · exact List.mergeSort_perm ..
  · exact .refl _

theorem printHead_eq (options : PrintOptions) (e : Element) : printHead options e =
    e.name.full.toList ++ (printedAttributes options e).flatMap printAttribute := rfl

section Heads

variable {e : Element} (he : e.IsPlain) (options : PrintOptions)
include he

theorem isPlain_of_mem_printedAttributes :
    ∀ a ∈ printedAttributes options e, a.name.IsPlain :=
  fun a ha => he.names a ((perm_printedAttributes options e).mem_iff.1 ha)

theorem isInTag_printHead : IsInTag (printHead options e) := by
  have hattributes := isPlain_of_mem_printedAttributes he options
  rw [printHead_eq]
  refine (isInTag_full he.name.toIsWord).append ?_
  generalize printedAttributes options e = attributes at hattributes
  induction attributes with
  | nil => exact .nil
  | cons a rest ih =>
    rw [List.flatMap_cons]
    exact (isInTag_printAttribute (hattributes a (by simp)).toIsWord).append
      (ih fun b hb => hattributes b (by simp [hb]))

theorem tagName_printHead : tagName (printHead options e) = e.name.full.toList := by
  have hhead : ((printedAttributes options e).flatMap printAttribute).takeWhile
      (!Text.isMarkupBlank ·) = [] := by
    cases printedAttributes options e with
    | nil => rfl
    | cons a rest => rfl
  rw [tagName, printHead_eq, List.takeWhile_append_of_pos, hhead, List.append_nil]
  intro c hc
  simp [isMarkupBlank_of_isNameChar (he.name.chars c hc)]

theorem elementOf_printHead : Builder.elementOf (printHead options e) =
    .ok (Element.ofAttributes e.name (printedAttributes options e)) := by
  have hnodup : ((printedAttributes options e).map (·.name)).Nodup :=
    ((perm_printedAttributes options e).map _).nodup_iff.2 he.nodup
  refine elementOf_eq_ok_iff.2 ⟨printedAttributes options e, ?_, ?_⟩
  · rw [attributesOf, tagName_printHead he, printHead_eq, List.drop_left]
    exact resolveAttributes_printed (isPlain_of_mem_printedAttributes he options) hnodup (by simp)
  · rw [tagName_printHead he, String.ofList_toList, he.name.isRead]

end Heads

end Markup

end SvgCompact
