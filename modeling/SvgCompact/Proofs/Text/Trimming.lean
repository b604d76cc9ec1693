import SvgCompact.Proofs.Text.Search

/-!
Texts that are trimmed or squeezed already stay as they are, and what is joined with
separators is cut at them again.
-/

namespace SvgCompact
namespace Text

variable {p : Char → Bool} {s w : List Char}

theorem splitOnP_intercalate {α : Type} {p : α → Bool} {mark : α} (hmark : p mark = true)
    {parts : List (List α)} (hparts : ∀ part ∈ parts, ∀ x ∈ part, p x = false)
    (hne : parts ≠ []) : ([mark].intercalate parts).splitOnP p = parts := by
  induction parts with
  | nil => exact absurd rfl hne
  | cons part rest ih =>
    have hpart := hparts part (List.mem_cons_self ..)
    cases rest with
    | nil => rw [List.intercalate_singleton, List.splitOnP_eq_singleton hpart]
    | cons next rest =>
      rw [List.intercalate_cons_cons, List.append_assoc, List.singleton_append,
        List.splitOnP_append_cons_of_forall_mem hpart _ hmark,
        ih (fun x hx => hparts x (List.mem_cons_of_mem _ hx)) (by simp)]

/-- The first part of a list ends at its first mark, if there is one. -/
theorem splitOnP_cases {α : Type} (p : α → Bool) (l : List α) :
    ((∀ a ∈ l, p a = false) ∧ l.splitOnP p = [l]) ∨
      ∃ front mark rest, l = front ++ mark :: rest ∧ (∀ a ∈ front, p a = false) ∧
        p mark = true ∧ l.splitOnP p = front :: rest.splitOnP p := by
  have happend := List.takeWhile_append_dropWhile (p := (!p ·)) (l := l)
  have hfront : ∀ a ∈ l.takeWhile (!p ·), p a = false :=
    fun a ha => by simpa using List.all_eq_true.1 List.all_takeWhile a ha
  cases hdrop : l.dropWhile (!p ·) with
  | nil =>
    rw [hdrop, List.append_nil] at happend
    rw [happend] at hfront
    exact .inl ⟨hfront, List.splitOnP_eq_singleton hfront⟩
  | cons mark rest =>
    rw [hdrop] at happend
    have hmark : p mark = true := by
      have hhead := List.head?_dropWhile_not (!p ·) l
      simpa [hdrop] using hhead
    refine .inr ⟨_, mark, rest, happend.symm, hfront, hmark, ?_⟩
    conv_lhs => rw [← happend]
    exact List.splitOnP_append_cons_of_forall_mem hfront mark hmark rest

/-- Where a part of a list stands between the marks. -/
theorem exists_of_splitOnP_eq {α : Type} {p : α → Bool} {l part : List α}
    {ahead behind : List (List α)} (h : l.splitOnP p = ahead ++ part :: behind) :
    ∃ front back, l = front ++ (part ++ back) ∧ (∀ a ∈ back.head?, p a = true) ∧
      (behind ≠ [] → back ≠ []) := by
  induction ahead generalizing l with
  | nil =>
    rcases splitOnP_cases p l with ⟨-, heq⟩ | ⟨front, mark, rest, rfl, -, hmark, heq⟩
    · obtain ⟨rfl, rfl⟩ := List.cons.inj (heq.symm.trans h)
      exact ⟨[], [], by simp, by simp, fun hne => absurd rfl hne⟩
    · obtain ⟨rfl, -⟩ := List.cons.inj (heq.symm.trans h)
      exact ⟨[], mark :: rest, rfl, by simpa using hmark, fun _ => List.cons_ne_nil mark rest⟩
  | cons first ahead ih =>
    rcases splitOnP_cases p l with ⟨-, heq⟩ | ⟨front, mark, rest, rfl, -, -, heq⟩
    · have hnil := (List.cons.inj (heq.symm.trans h)).2
      simp at hnil
    · obtain ⟨front', back, rfl, hback, hne⟩ := ih (List.cons.inj (heq.symm.trans h)).2
      exact ⟨front ++ mark :: front', back, by simp, hback, hne⟩

/-! ## Trimming -/

theorem trimBy_append_of_pos {p : Char → Bool} {front s back : List Char}
    (hfront : ∀ c ∈ front, p c = true) (hback : ∀ c ∈ back, p c = true) :
    trimBy p (front ++ s ++ back) = trimBy p s := by
  have hend (x : List Char) : trimEndBy p (x ++ back) = trimEndBy p x := by
    rw [trimEndBy, List.reverse_append, List.dropWhile_append_of_pos, trimEndBy]
    simpa using hback
  rw [trimBy, trimBy, List.append_assoc, List.dropWhile_append_of_pos hfront,
    List.dropWhile_append]
  split
  · next hnil =>
    rw [List.isEmpty_iff] at hnil
    have hnone : back.dropWhile p = [] := by
      rw [← List.append_nil back, List.dropWhile_append_of_pos hback]
      rfl
    rw [hnil, hnone]
  · exact hend _

theorem prefix_trimEndBy (p : Char → Bool) (s : List Char) : trimEndBy p s <+: s := by
  rw [trimEndBy, ← List.reverse_suffix, List.reverse_reverse]
  exact List.dropWhile_suffix p

theorem trimEndBy_eq_self (h : ∀ c ∈ s.getLast?, p c = false) : trimEndBy p s = s := by
  cases hs : s.reverse with
  | nil =>
    rw [List.reverse_eq_nil_iff] at hs
    rw [hs]
    rfl
  | cons c cs =>
    have hc := h c (by rw [← List.head?_reverse, hs]; rfl)
    rw [trimEndBy, hs, List.dropWhile_cons_of_neg (by simp [hc]), ← hs, List.reverse_reverse]

theorem not_of_getLast?_trimEndBy {c : Char} (h : (trimEndBy p s).getLast? = some c) :
    p c = false := by
  have hnot := List.head?_dropWhile_not p s.reverse
  rw [trimEndBy, List.getLast?_reverse] at h
  rw [h] at hnot
  exact hnot

theorem trimBy_eq_self (hhead : ∀ c ∈ s.head?, p c = false)
    (hlast : ∀ c ∈ s.getLast?, p c = false) : trimBy p s = s := by
  cases s with
  | nil => rfl
  | cons c cs =>
    rw [trimBy, List.dropWhile_cons_of_neg (by simp [hhead c rfl])]
    exact trimEndBy_eq_self hlast

theorem trimEnd_eq_trim {s : List Char} (h : ∀ c ∈ s.head?, isBlank c = false) :
    trimEnd s = trim s := by
  cases s with
  | nil => rfl
  | cons c s =>
    rw [trim, trimBy, List.dropWhile_cons_of_neg (by simp [h c rfl])]
    rfl

theorem trimBy_trimBy (p : Char → Bool) (s : List Char) :
    trimBy p (trimBy p s) = trimBy p s :=
  trimBy_eq_self (fun _ => not_of_head?_trimBy) fun _ => not_of_getLast?_trimEndBy

/-! ## Words -/

/-- A part between separators holds none. -/
theorem eq_false_of_mem_splitOnP (h : w ∈ s.splitOnP p) : ∀ c ∈ w, p c = false := by
  induction s generalizing w with
  | nil =>
    rw [List.splitOnP_nil, List.mem_singleton] at h
    subst h
    exact List.forall_mem_nil _
  | cons x rest ih =>
    rw [List.splitOnP_cons_eq_if_modifyHead] at h
    split at h
    · rcases List.mem_cons.1 h with rfl | h
      · exact List.forall_mem_nil _
      · exact ih h
    · next hx =>
      cases hparts : rest.splitOnP p with
      | nil => exact absurd hparts (List.splitOnP_ne_nil p rest)
      | cons first parts =>
        rw [hparts] at h ih
        rcases List.mem_cons.1 h with rfl | h
        · exact List.forall_mem_cons.2 ⟨by simpa using hx, ih (List.mem_cons_self ..)⟩
        · exact ih (List.mem_cons_of_mem _ h)

/-- Whether a text is a single word. -/
structure IsOneWord (w : List Char) : Prop where
  ne_nil : w ≠ []
  spaceless : ∀ c ∈ w, isSpace c = false

theorem isOneWord_of_mem_words (h : w ∈ words s) : IsOneWord w := by
  obtain ⟨hpart, hne⟩ := List.mem_filter.1 h
  exact ⟨by simpa using hne, eq_false_of_mem_splitOnP hpart⟩

theorem IsOneWord.words_eq (h : IsOneWord w) : words w = [w] := by
  rw [words, List.splitOnP_eq_singleton h.spaceless]
  simp [h.ne_nil]

theorem IsOneWord.words_append (h : IsOneWord w) (s : List Char) :
    words (w ++ ' ' :: s) = w :: words s := by
  rw [words, List.splitOnP_append_cons_of_forall_mem h.spaceless ' ' rfl, List.filter_cons,
    if_pos (by simp [h.ne_nil]), words]

/-- Words that are joined by blanks are found again. -/
theorem words_intercalate {ws : List (List Char)} (h : ∀ w ∈ ws, IsOneWord w) :
    words ([' '].intercalate ws) = ws := by
  induction ws with
  | nil => rfl
  | cons w rest ih =>
    obtain ⟨hw, hrest⟩ := List.forall_mem_cons.1 h
    cases rest with
    | nil => rw [List.intercalate_singleton, hw.words_eq]
    | cons v rest =>
      rw [List.intercalate_cons_cons, List.append_assoc, List.singleton_append, hw.words_append,
        ih hrest]

/-! ## Squeezing -/

theorem squeeze_squeeze (s : List Char) : squeeze (squeeze s) = squeeze s := by
  rw [squeeze, squeeze, words_intercalate fun _ => isOneWord_of_mem_words]

theorem squeeze_cons_space (s : List Char) : squeeze (' ' :: s) = squeeze s := by
  rw [squeeze, squeeze, words, List.splitOnP_cons_eq_if_modifyHead, if_pos (by decide),
    List.filter_cons_of_neg (by simp), words]

theorem not_isSpace_of_head?_squeeze {c : Char} (h : (squeeze s).head? = some c) :
    isSpace c = false := by
  rw [squeeze] at h
  cases hs : words s with
  | nil =>
    rw [hs] at h
    cases h
  | cons word rest =>
    have hword : IsOneWord word := isOneWord_of_mem_words (s := s) (by rw [hs]; simp)
    obtain ⟨d, ds, rfl⟩ := List.exists_cons_of_ne_nil hword.ne_nil
    rw [hs] at h
    cases rest with
    | nil =>
      rw [List.intercalate_singleton] at h
      cases h
      exact hword.spaceless c (by simp)
    | cons next rest =>
      rw [List.intercalate_cons_cons] at h
      cases h
      exact hword.spaceless c (by simp)

end Text
end SvgCompact
