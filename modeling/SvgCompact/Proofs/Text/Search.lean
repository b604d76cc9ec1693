import Mathlib.Data.List.Chain
import SvgCompact.Text.Blank
import SvgCompact.Text.Search

/-!
What the searches find: the first place, and nothing of the kind before it.  What is cut
out of a text, by trimming or by taking words, is a part of it.
-/

namespace SvgCompact
namespace Text

/-! ## The first character in a class -/

theorem splitAt?_eq_some_iff {p : Char → Bool} {s before after : List Char} :
    splitAt? p s = some (before, after) ↔
      ∃ c, p c = true ∧ s = before ++ c :: after ∧ ∀ x ∈ before, p x = false := by
  induction s generalizing before with
  | nil => simp [splitAt?]
  | cons c cs ih =>
    rw [splitAt?]
    by_cases hc : p c = true
    · rw [if_pos hc]
      constructor
      · rintro h
        cases h
        exact ⟨c, hc, rfl, by simp⟩
      · intro hex
        obtain ⟨x, hx, hs, hbefore⟩ := hex
        cases before with
        | nil => cases hs; rfl
        | cons b bs =>
          cases hs
          simp [hc] at hbefore
    · rw [if_neg hc]
      simp only [Option.map_eq_some_iff, Prod.exists, Prod.mk.injEq]
      constructor
      · intro hex
        obtain ⟨b, a, hba, rfl, rfl⟩ := hex
        obtain ⟨x, hx, rfl, hb⟩ := ih.1 hba
        exact ⟨x, hx, rfl, by simpa [hc] using hb⟩
      · intro hex
        obtain ⟨x, hx, hs, hbefore⟩ := hex
        cases before with
        | nil =>
          cases hs
          exact absurd hx hc
        | cons b bs =>
          cases hs
          exact ⟨bs, after, ih.2 ⟨x, hx, rfl, fun y hy => hbefore y (by simp [hy])⟩, rfl, rfl⟩

/-! ## The first mark -/

variable {mark s before rest body : List Char}

theorem splitBefore?_eq_some (h : splitBefore? mark s = some (before, rest)) :
    s = before ++ rest ∧ mark <+: rest ∧ ∀ k < before.length, ¬ mark <+: s.drop k := by
  induction s generalizing before with
  | nil =>
    rw [splitBefore?] at h
    split at h
    · next hm =>
      cases h
      simp [List.isEmpty_iff.1 hm]
    · cases h
  | cons c cs ih =>
    rw [splitBefore?] at h
    split at h
    · next hm =>
      cases h
      exact ⟨rfl, List.isPrefixOf_iff_prefix.1 hm, by simp⟩
    · next hm =>
      obtain ⟨⟨b, r⟩, hb, heq⟩ := Option.map_eq_some_iff.1 h
      cases heq
      obtain ⟨rfl, hr, hk⟩ := ih hb
      refine ⟨rfl, hr, fun k hlt => ?_⟩
      cases k with
      | zero => exact fun hp => hm (List.isPrefixOf_iff_prefix.2 hp)
      | succ k => exact hk k (by simpa using hlt)

theorem splitBefore?_append (hm : mark <+: rest)
    (hk : ∀ k < before.length, ¬ mark <+: (before ++ rest).drop k) :
    splitBefore? mark (before ++ rest) = some (before, rest) := by
  induction before with
  | nil =>
    cases rest with
    | nil => simp [splitBefore?, List.prefix_nil.1 hm]
    | cons c cs => simp [splitBefore?, hm]
  | cons b bs ih =>
    have h0 : ¬ mark <+: b :: (bs ++ rest) := hk 0 (by simp)
    rw [List.cons_append, splitBefore?, if_neg fun h => h0 (List.isPrefixOf_iff_prefix.1 h),
      ih fun k hlt => hk (k + 1) (by simpa using hlt)]
    rfl

/-- Whether a text followed by a mark is cut at this mark and not before. -/
def IsBody (mark body : List Char) : Prop :=
  ∀ k < body.length, ¬ mark <+: (body ++ mark).drop k

theorem prefix_drop_append_iff {k : Nat} (hk : k ≤ body.length) :
    mark <+: (body ++ mark ++ rest).drop k ↔ mark <+: (body ++ mark).drop k := by
  have hlen : mark.length ≤ ((body ++ mark).drop k).length := by simp; omega
  rw [List.drop_append_of_le_length (by simp; omega)]
  exact ⟨fun h => List.prefix_of_prefix_length_le h (List.prefix_append _ _) hlen,
    fun h => h.trans (List.prefix_append _ _)⟩

theorem cut?_append (h : IsBody mark body) (rest : List Char) :
    cut? mark (body ++ mark ++ rest) = some (body, rest) := by
  have hs : splitBefore? mark (body ++ (mark ++ rest)) = some (body, mark ++ rest) :=
    splitBefore?_append (List.prefix_append _ _) fun k hk => by
      rw [← List.append_assoc]
      exact fun hp => h k hk ((prefix_drop_append_iff (Nat.le_of_lt hk)).1 hp)
  rw [cut?, List.append_assoc, hs]
  simp

theorem isBody_of_cut? (h : cut? mark s = some (body, rest)) :
    s = body ++ mark ++ rest ∧ IsBody mark body := by
  rw [cut?, Option.map_eq_some_iff] at h
  obtain ⟨⟨b, r⟩, hb, heq⟩ := h
  cases heq
  obtain ⟨rfl, ⟨tail, rfl⟩, hk⟩ := splitBefore?_eq_some hb
  rw [List.drop_left]
  refine ⟨(List.append_assoc ..).symm, fun k hlt hp => ?_⟩
  refine hk k hlt ?_
  rw [← List.append_assoc]
  exact (prefix_drop_append_iff (Nat.le_of_lt hlt)).2 hp

theorem after?_append (start s : List Char) : after? start (start ++ s) = some s := by
  rw [after?, if_pos (List.isPrefixOf_iff_prefix.2 (List.prefix_append start s)), List.drop_left]

theorem length_of_after? {start s rest : List Char} (h : after? start s = some rest) :
    rest.length = s.length - start.length := by
  rw [after?] at h
  split at h
  · obtain rfl := Option.some.inj h
    exact List.length_drop
  · cases h

/-! ## Marks of two characters -/

/-- Whether `y` never comes right after `x`. -/
def Avoids (x y : Char) (s : List Char) : Prop :=
  s.IsChain fun a b => ¬ (a = x ∧ b = y)

section Avoiding

variable {x y c : Char} {s t : List Char}

theorem Avoids.of_isInfix (h : Avoids x y s) (ht : t <:+: s) : Avoids x y t :=
  List.IsChain.infix h ht

theorem Avoids.append (hs : Avoids x y s) (ht : Avoids x y t) (hhead : t.head? ≠ some y) :
    Avoids x y (s ++ t) := by
  refine List.IsChain.append hs ht fun a _ b hb hab => hhead ?_
  rw [← hab.2]
  exact hb

theorem Avoids.cons (hc : c ≠ x) (hs : Avoids x y s) : Avoids x y (c :: s) := by
  cases s with
  | nil => exact .singleton c
  | cons a rest => exact .cons_cons (fun hab => hc hab.1) hs

theorem avoids_of_notMem (h : x ∉ s) : Avoids x y s := by
  induction s with
  | nil => exact .nil
  | cons a rest ih =>
    rw [List.mem_cons, not_or] at h
    exact (ih h.2).cons (Ne.symm h.1)

end Avoiding

/-- A mark of two different characters does not overlap with itself. -/
theorem isBody_pair_iff {x y : Char} (hxy : x ≠ y) : IsBody [x, y] body ↔ Avoids x y body := by
  unfold IsBody Avoids
  induction body with
  | nil => simp
  | cons c cs ih =>
    have hstep : (∀ k < (c :: cs).length, ¬ [x, y] <+: (c :: cs ++ [x, y]).drop k) ↔
        ¬ [x, y] <+: c :: (cs ++ [x, y]) ∧ ∀ k < cs.length, ¬ [x, y] <+: (cs ++ [x, y]).drop k := by
      constructor
      · exact fun h => ⟨h 0 (by simp), fun k hk => h (k + 1) (by simpa using hk)⟩
      · rintro ⟨h0, hs⟩ k hk
        cases k with
        | zero => exact h0
        | succ k => exact hs k (by simpa using hk)
    rw [hstep, ih]
    cases cs with
    | nil => simp [hxy.symm]
    | cons b bs => simp [List.isChain_cons_cons, eq_comm]

/-! ## Trimming -/

theorem isBlank_of_isMarkupBlank {c : Char} (h : isMarkupBlank c = true) : isBlank c = true := by
  simp only [isMarkupBlank, Bool.or_eq_true, beq_iff_eq] at h
  rcases h with ((rfl | rfl) | rfl) | rfl <;> decide

theorem isBlank_of_isSpace {c : Char} (h : isSpace c = true) : isBlank c = true := by
  rw [isSpace, Bool.or_eq_true] at h
  rcases h with h | h
  · exact isBlank_of_isMarkupBlank h
  · rw [eq_of_beq h]
    decide

theorem trimBy_eq (p : Char → Bool) (s : List Char) :
    ∃ front back, s = front ++ trimBy p s ++ back ∧ (∀ x ∈ front, p x = true) ∧
      ∀ x ∈ back, p x = true := by
  refine ⟨s.takeWhile p, ((s.dropWhile p).reverse.takeWhile p).reverse, ?_, ?_, ?_⟩
  · rw [trimBy, trimEndBy, List.append_assoc, ← List.reverse_append,
      List.takeWhile_append_dropWhile, List.reverse_reverse, List.takeWhile_append_dropWhile]
  · exact fun x hx => List.all_eq_true.1 List.all_takeWhile x hx
  · exact fun x hx => List.all_eq_true.1 List.all_takeWhile x (List.mem_reverse.1 hx)

theorem isInfix_trimBy (p : Char → Bool) (s : List Char) : trimBy p s <:+: s := by
  obtain ⟨front, back, hs, -, -⟩ := trimBy_eq p s
  exact ⟨front, back, hs.symm⟩

theorem prefix_trimBy (p : Char → Bool) (s : List Char) : trimBy p s <+: s.dropWhile p := by
  rw [trimBy, trimEndBy, ← List.reverse_suffix, List.reverse_reverse]
  exact List.dropWhile_suffix p

/-- A trimmed text begins with a character that stays. -/
theorem not_of_head?_trimBy {p : Char → Bool} {c : Char} (h : (trimBy p s).head? = some c) :
    p c = false := by
  obtain ⟨tail, htail⟩ := prefix_trimBy p s
  have hhead : (s.dropWhile p).head? = some c := by
    rw [← htail, List.head?_append, h]
    rfl
  have hnot := List.head?_dropWhile_not p s
  rw [hhead] at hnot
  exact hnot

theorem trimBy_eq_nil_iff {p : Char → Bool} {s : List Char} :
    trimBy p s = [] ↔ ∀ c ∈ s, p c = true := by
  obtain ⟨front, back, hs, hfront, hback⟩ := trimBy_eq p s
  constructor
  · intro h c hc
    rw [hs, h, List.append_nil, List.mem_append] at hc
    exact hc.elim (hfront c) (hback c)
  · intro h
    cases htrim : trimBy p s with
    | nil => rfl
    | cons c cs =>
      have hnot := not_of_head?_trimBy (p := p) (s := s) (c := c) (by rw [htrim]; rfl)
      have hmem : c ∈ s := (isInfix_trimBy p s).subset (by rw [htrim]; simp)
      rw [h c hmem] at hnot
      cases hnot

theorem trimBy_append {front back middle : List Char} (hfront : ∀ c ∈ front, p c = true)
    (hmiddle : ∀ c ∈ middle, p c = false) (hback : ∀ c ∈ back, p c = true) :
    trimBy p (front ++ middle ++ back) = middle := by
  have hstart : ∀ {a m b : List Char}, (∀ c ∈ a, p c = true) → (∀ c ∈ m, p c = false) →
      m ≠ [] → (a ++ (m ++ b)).dropWhile p = m ++ b := by
    intro a m b ha hm hne
    obtain ⟨c, cs, rfl⟩ := List.exists_cons_of_ne_nil hne
    rw [List.dropWhile_append_of_pos ha, List.cons_append, List.dropWhile_cons_of_neg]
    rw [hm c (List.mem_cons_self ..)]
    exact Bool.false_ne_true
  by_cases hne : middle = []
  · subst hne
    rw [trimBy_eq_nil_iff]
    intro c hc
    rw [List.append_nil, List.mem_append] at hc
    exact hc.elim (hfront c) (hback c)
  · rw [trimBy, trimEndBy, List.append_assoc, hstart hfront hmiddle hne, List.reverse_append]
    have hend := hstart (a := back.reverse) (m := middle.reverse) (b := [])
      (fun c hc => hback c (List.mem_reverse.1 hc))
      (fun c hc => hmiddle c (List.mem_reverse.1 hc)) (by simpa using hne)
    rw [List.append_nil] at hend
    rw [hend, List.reverse_reverse]

/-! ## Words -/

theorem isInfix_of_mem_splitOnP {α : Type} {p : α → Bool} {s part : List α}
    (h : part ∈ s.splitOnP p) : part <:+: s := by
  have hparts : ∀ s : List α, ∃ first rest, s.splitOnP p = first :: rest ∧ first <+: s ∧
      ∀ part ∈ rest, part <:+: s := by
    intro s
    induction s with
    | nil => exact ⟨[], [], List.splitOnP_nil, List.prefix_rfl, nofun⟩
    | cons c cs ih =>
      obtain ⟨first, rest, heq, hfirst, hrest⟩ := ih
      have hmore : ∀ part ∈ rest, part <:+: c :: cs := fun part hpart =>
        (hrest part hpart).trans (List.suffix_cons c cs).isInfix
      rw [List.splitOnP_cons_eq_if_modifyHead, heq]
      split
      · refine ⟨[], first :: rest, rfl, List.nil_prefix, fun part hpart => ?_⟩
        rcases List.mem_cons.1 hpart with rfl | hpart
        · exact hfirst.isInfix.trans (List.suffix_cons c cs).isInfix
        · exact hmore part hpart
      · exact ⟨c :: first, rest, rfl, List.prefix_cons_inj c |>.2 hfirst, hmore⟩
  obtain ⟨first, rest, heq, hfirst, hrest⟩ := hparts s
  rw [heq, List.mem_cons] at h
  rcases h with rfl | h
  · exact hfirst.isInfix
  · exact hrest part h

theorem isInfix_of_mem_words {word : List Char} (h : word ∈ words s) : word <:+: s :=
  isInfix_of_mem_splitOnP (List.mem_filter.1 h).1

/-- A text without a separator does not reach across it. -/
theorem isPrefix_append_cons {a b : List Char} {c : Char} (hc : c ∉ s)
    (h : s <+: a ++ c :: b) : s <+: a := by
  rcases List.prefix_or_prefix_of_prefix h (List.prefix_append a (c :: b)) with hs | ⟨t, rfl⟩
  · exact hs
  · rw [List.prefix_append_right_inj] at h
    cases t with
    | nil => simp
    | cons x t =>
      obtain ⟨rfl, -⟩ := List.cons_prefix_cons.1 h
      exact absurd (List.mem_append_right _ (List.mem_cons_self ..)) hc

theorem isInfix_append_cons {a b : List Char} {c : Char} (hc : c ∉ s)
    (h : s <:+: a ++ c :: b) : s <:+: a ∨ s <:+: b := by
  induction a with
  | nil =>
    rcases List.infix_cons_iff.1 h with hs | hs
    · exact .inl (isPrefix_append_cons (a := []) hc hs).isInfix
    · exact .inr hs
  | cons x a ih =>
    rcases List.infix_cons_iff.1 h with hs | hs
    · exact .inl (isPrefix_append_cons (a := x :: a) hc hs).isInfix
    · exact (ih hs).imp_left fun hs => hs.trans (List.suffix_cons x a).isInfix

theorem exists_isInfix_of_intercalate {l : List String} (hs : ' ' ∉ s) (hne : s ≠ [])
    (h : s <:+: (" ".intercalate l).toList) : ∃ t ∈ l, s <:+: t.toList := by
  induction l with
  | nil => exact absurd (List.infix_nil.1 h) hne
  | cons t rest ih =>
    cases rest with
    | nil => exact ⟨t, List.mem_singleton_self t, by simpa using h⟩
    | cons u rest =>
      rw [String.intercalate_cons_cons, String.toList_append, String.toList_append,
        List.append_assoc] at h
      rcases isInfix_append_cons (c := ' ') hs h with h | h
      · exact ⟨t, List.mem_cons_self .., h⟩
      · obtain ⟨x, hx, hsx⟩ := ih h
        exact ⟨x, List.mem_cons_of_mem t hx, hsx⟩

end Text
end SvgCompact
