import SvgCompact.Css.Declaration
import SvgCompact.Proofs.Text.Trimming

/-!
A declaration that was read is read back from what it is written as.

The name holds no colon and no blank, and a value that was trimmed stays when the
mark of importance is taken off again.
-/

namespace SvgCompact

namespace Text

variable {p : Char → Bool} {s before after : List Char}

theorem splitAtLast?_eq_none_iff : splitAtLast? p s = none ↔ ∀ c ∈ s, p c = false := by
  induction s with
  | nil => simp [splitAtLast?]
  | cons x xs ih =>
    rw [splitAtLast?, List.forall_mem_cons, ← ih]
    cases splitAtLast? p xs <;> simp

theorem splitAtLast?_append {c : Char} (hc : p c = true) (hafter : ∀ x ∈ after, p x = false)
    (before : List Char) : splitAtLast? p (before ++ c :: after) = some (before, after) := by
  induction before with
  | nil =>
    rw [List.nil_append, splitAtLast?, splitAtLast?_eq_none_iff.2 hafter]
    simp [hc]
  | cons x xs ih => rw [List.cons_append, splitAtLast?, ih]

theorem splitAtLast?_eq_some (h : splitAtLast? p s = some (before, after)) :
    ∃ c, p c = true ∧ s = before ++ c :: after ∧ ∀ x ∈ after, p x = false := by
  induction s generalizing before with
  | nil => cases h
  | cons x xs ih =>
    rw [splitAtLast?] at h
    split at h
    · next front _ heq =>
      cases h
      obtain ⟨c, hc, rfl, hafter⟩ := ih heq
      exact ⟨c, hc, rfl, hafter⟩
    · next hnone =>
      split at h
      · next hx =>
        cases h
        exact ⟨x, hx, rfl, splitAtLast?_eq_none_iff.1 hnone⟩
      · cases h

theorem toLower_cases (c : Char) :
    c.toLower = c ∨ 65 ≤ c.toNat ∧ c.toNat ≤ 90 ∧ c.toLower.toNat = c.toNat + 32 := by
  by_cases h : c.val ≥ 'A'.val ∧ c.val ≤ 'Z'.val
  · right
    have hlower : c.toLower = ⟨c.val + ('a'.val - 'A'.val), _⟩ := dif_pos h
    obtain ⟨hlow, hhigh⟩ := h
    rw [hlower]
    have hlow : 65 ≤ c.val.toNat := hlow
    have hhigh : c.val.toNat ≤ 90 := hhigh
    refine ⟨hlow, hhigh, ?_⟩
    change (c.val + 32).toNat = c.val.toNat + 32
    rw [UInt32.toNat_add]
    change (c.val.toNat + 32) % 2 ^ 32 = _
    omega
  · exact .inl (dif_neg h)

theorem lower_lower (s : List Char) : lower (lower s) = lower s := by
  rw [lower, lower, List.map_map]
  refine List.map_congr_left fun c _ => ?_
  rcases toLower_cases c with heq | ⟨hlow, -, heq⟩
  · rw [Function.comp_apply, heq, heq]
  · rcases toLower_cases c.toLower with heq' | ⟨-, hhigh, -⟩
    · exact heq'
    · omega

theorem not_isBlank_toLower {c : Char} (h : isBlank c = false) : isBlank c.toLower = false := by
  rcases toLower_cases c with heq | ⟨hlow, hhigh, heq⟩
  · rw [heq, h]
  · simp only [isBlank, heq, Bool.or_eq_false_iff, Bool.and_eq_false_iff, decide_eq_false_iff_not,
      beq_eq_false_iff_ne]
    omega

/-- Lower case makes no character that is no letter. -/
theorem eq_of_toLower_eq {c d : Char} (hd : d.toNat < 97) (h : c.toLower = d) : c = d := by
  rcases toLower_cases c with heq | ⟨hlow, -, heq⟩
  · rw [← heq, h]
  · rw [h] at heq
    omega

end Text

namespace Css

open Text

theorem trim_eq_self {s : List Char} (h : ∀ c ∈ s, isBlank c = false) : trim s = s :=
  trimBy_eq_self (fun c hc => h c (List.mem_of_mem_head? hc))
    fun c hc => h c (List.mem_of_getLast? hc)

/-! ## Priorities -/

theorem splitPriority_important (value : List Char) :
    splitPriority (value ++ "!important".toList) = (trimEnd value, .important) := by
  have hsplit : splitAtLast? (· == '!') (value ++ '!' :: "important".toList) =
      some (value, "important".toList) :=
    splitAtLast?_append rfl (by simp) value
  have htrim : trim "important".toList = "important".toList := by decide
  rw [splitPriority, show "!important".toList = '!' :: "important".toList from rfl, hsplit]
  simp only [htrim, sameLetters, beq_self_eq_true, if_true]

/-- The text of a value with its priority. -/
def writeValue (value : List Char) (priority : Priority) : List Char :=
  value ++ if priority.isImportant then "!important".toList else []

theorem writeValue_important (value : List Char) :
    writeValue value .important = value ++ "!important".toList :=
  rfl

theorem writeValue_normal (value : List Char) : writeValue value .normal = value :=
  List.append_nil value

theorem write_eq (d : Declaration) :
    d.write = d.property.toList ++ ':' :: writeValue d.value.toList d.priority := by
  rw [Declaration.write, List.append_assoc]
  rfl

/-- A value that was cut out of a trimmed text is cut out of what it is written as. -/
theorem splitPriority_writeValue {s value : List Char} {priority : Priority}
    (hsplit : splitPriority (trim s) = (value, priority)) (hne : value ≠ []) :
    splitPriority (trim (writeValue value priority)) = (value, priority) := by
  have hkept (h : splitPriority (trim s) = (trim s, .normal)) :
      splitPriority (trim (writeValue value priority)) = (value, priority) := by
    obtain ⟨rfl, rfl⟩ := Prod.mk.inj (hsplit.symm.trans h)
    have htrim : trim (trim s) = trim s := trimBy_trimBy isBlank s
    rw [writeValue_normal, htrim, h]
  cases hlast : splitAtLast? (· == '!') (trim s) with
  | none => exact hkept (by rw [splitPriority, hlast])
  | some parts =>
    obtain ⟨before, after⟩ := parts
    by_cases himportant : sameLetters (trim after) "important".toList = true
    · have heq : splitPriority (trim s) = (trimEnd before, .important) := by
        simp only [splitPriority, hlast, himportant, if_true]
      obtain ⟨rfl, rfl⟩ := Prod.mk.inj (hsplit.symm.trans heq)
      obtain ⟨c, -, hs, -⟩ := splitAtLast?_eq_some hlast
      -- the value begins as the trimmed text does
      obtain ⟨x, xs, hvalue⟩ := List.exists_cons_of_ne_nil hne
      have hprefix : trimEnd before <+: trim s :=
        (prefix_trimEndBy isBlank before).trans ⟨c :: after, hs.symm⟩
      have hx : isBlank x = false := by
        refine not_of_head?_trimBy (s := s) ?_
        obtain ⟨rest, hrest⟩ := hprefix
        rw [trim] at hrest
        rw [← hrest, hvalue]
        rfl
      have htrim : trim (writeValue (trimEnd before) .important) =
          trimEnd before ++ "!important".toList := by
        refine trimBy_eq_self (fun c hc => ?_) (fun c hc => ?_)
        · rw [writeValue_important, hvalue, List.cons_append, List.head?_cons] at hc
          cases hc
          exact hx
        · have hlast : "!important".toList.getLast? = some 't' := by decide
          rw [writeValue_important, List.getLast?_append, hlast] at hc
          cases hc
          decide
      rw [htrim, splitPriority_important]
      exact congrArg (·, Priority.important) (trimEndBy_eq_self fun _ => not_of_getLast?_trimEndBy)
    · exact hkept (by simp only [splitPriority, hlast, himportant, if_false, Bool.false_eq_true])

/-! ## Names -/

/-- Names of properties in the form that reading gives them. -/
def propertyOf (name : List Char) : List Char :=
  if "--".toList.isPrefixOf name then name else lower name

theorem isPrefixOf_lower (name : List Char) :
    "--".toList.isPrefixOf (lower name) = "--".toList.isPrefixOf name := by
  have hhyphen (c : Char) : ('-' == c.toLower) = ('-' == c) := by
    rw [Bool.eq_iff_iff, beq_iff_eq, beq_iff_eq]
    constructor
    · exact fun h => (eq_of_toLower_eq (by decide) h.symm).symm
    · rintro rfl
      rfl
  rcases name with - | ⟨a, - | ⟨b, rest⟩⟩ <;> simp [lower, List.isPrefixOf, hhyphen]

theorem propertyOf_propertyOf (name : List Char) :
    propertyOf (propertyOf name) = propertyOf name := by
  by_cases h : "--".toList.isPrefixOf name = true
  · rw [propertyOf, propertyOf, if_pos h, if_pos h]
  · have hlower : ¬ "--".toList.isPrefixOf (lower name) = true := by rwa [isPrefixOf_lower]
    rw [propertyOf, propertyOf, if_neg h, if_neg hlower, lower_lower]

theorem forall_propertyOf {name : List Char} {P : Char → Prop}
    (h : ∀ c ∈ name, P c ∧ P c.toLower) : ∀ c ∈ propertyOf name, P c := by
  intro c hc
  rw [propertyOf] at hc
  split at hc
  · exact (h c hc).1
  · obtain ⟨d, hd, rfl⟩ := List.mem_map.1 hc
    exact (h d hd).2

theorem propertyOf_ne_nil {name : List Char} (h : name ≠ []) : propertyOf name ≠ [] := by
  rw [propertyOf]
  split
  · exact h
  · simpa [lower] using h

/-- What reading makes of the two sides of the colon. -/
def declaration? (name value : List Char) : Option Declaration :=
  if name.isEmpty || name.any isBlank || (splitPriority value).1.isEmpty then none
  else some ⟨String.ofList (propertyOf name), String.ofList (splitPriority value).1,
    (splitPriority value).2⟩

theorem readDeclaration?_of_split {s before after : List Char}
    (h : splitAt? (· == ':') s = some (before, after)) :
    readDeclaration? s = declaration? (trim before) (trim after) := by
  rw [readDeclaration?, h]
  rfl

theorem readDeclaration?_write {s : List Char} {d : Declaration}
    (h : readDeclaration? s = some d) : readDeclaration? d.write = some d := by
  cases hsplit : splitAt? (· == ':') s with
  | none =>
    rw [readDeclaration?, hsplit] at h
    cases h
  | some parts =>
    obtain ⟨before, after⟩ := parts
    obtain ⟨value, priority, hpriority⟩ :
        ∃ value priority, splitPriority (trim after) = (value, priority) := ⟨_, _, rfl⟩
    rw [readDeclaration?_of_split hsplit, declaration?, hpriority] at h
    split at h
    · cases h
    next hwritten =>
    cases h
    simp only [Bool.or_eq_true, List.isEmpty_iff, not_or, List.any_eq_true, not_exists,
      not_and, Bool.not_eq_true] at hwritten
    obtain ⟨⟨hname, hblank⟩, hvalue⟩ := hwritten
    obtain ⟨-, -, -, hcolon⟩ := splitAt?_eq_some_iff.1 hsplit
    have hproperty : ∀ c ∈ propertyOf (trim before), isBlank c = false ∧ (c == ':') = false := by
      refine forall_propertyOf fun c hc => ?_
      have hc' : c ∈ before := (isInfix_trimBy isBlank before).subset hc
      refine ⟨⟨hblank c hc, hcolon c hc'⟩, not_isBlank_toLower (hblank c hc), ?_⟩
      refine beq_eq_false_iff_ne.2 fun heq => ?_
      exact beq_eq_false_iff_ne.1 (hcolon c hc') (eq_of_toLower_eq (by decide) heq)
    have hwrite : splitAt? (· == ':') (Declaration.write
        ⟨String.ofList (propertyOf (trim before)), String.ofList value, priority⟩) =
        some (propertyOf (trim before), writeValue value priority) := by
      refine splitAt?_eq_some_iff.2 ⟨':', rfl, ?_, fun c hc => (hproperty c hc).2⟩
      rw [write_eq, String.toList_ofList, String.toList_ofList]
    rw [readDeclaration?_of_split hwrite, declaration?, splitPriority_writeValue hpriority hvalue,
      trim_eq_self fun c hc => (hproperty c hc).1, propertyOf_propertyOf, if_neg]
    simp only [Bool.or_eq_true, List.isEmpty_iff, not_or, List.any_eq_true, not_exists,
      not_and, Bool.not_eq_true]
    exact ⟨⟨propertyOf_ne_nil hname, fun c hc => (hproperty c hc).1⟩, hvalue⟩

end Css
end SvgCompact
