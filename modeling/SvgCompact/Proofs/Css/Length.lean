import SvgCompact.Proofs.Css.Declarations
import SvgCompact.Proofs.Css.Gluing
import SvgCompact.Proofs.Element.Size
import SvgCompact.Proofs.Element.Style

/-!
Declarations that are read are no longer than their text.

A declaration is written with nothing but characters of the part that it was read from, and
parts are joined by as many semicolons as there were between them.  Lengths are those of
values in quotes, where some characters are escaped.
-/

namespace SvgCompact

open Markup (escapedSize escapedSize_append escapedSize_cons escapedSize_le_of_sublist
  length_le_escapedSize)

/-! ## Characters -/

theorem escapedSize_toLower_le (c : Char) : escapedSize [c.toLower] ≤ escapedSize [c] := by
  rcases Text.toLower_cases c with heq | ⟨hlow, hhigh, hlower⟩
  · rw [heq]
  · -- an upper case letter becomes one of lower case, a single byte
    have hsingle : escapedSize [c.toLower] = 1 := by
      have hsmall : c.toLower.toNat ∈ List.range' 97 26 := by
        rw [List.mem_range'_1, hlower]
        omega
      have hletters : ∀ n ∈ List.range' 97 26, escapedSize [Char.ofNat n] = 1 := by decide
      rw [← Char.ofNat_toNat c.toLower]
      exact hletters _ hsmall
    rw [hsingle]
    exact length_le_escapedSize [c]

theorem escapedSize_lower_le (s : List Char) : escapedSize (Text.lower s) ≤ escapedSize s := by
  induction s with
  | nil => exact Nat.le_refl 0
  | cons c cs ih =>
    rw [Text.lower, List.map_cons, escapedSize_cons, escapedSize_cons c]
    exact Nat.add_le_add (escapedSize_toLower_le c) ih

namespace Css

/-! ## One declaration -/

theorem escapedSize_propertyOf_le (name : List Char) :
    escapedSize (propertyOf name) ≤ escapedSize name := by
  rw [propertyOf]
  split
  · exact Nat.le_refl _
  · exact escapedSize_lower_le name

/-- A value is as long with its priority as it was before the priority was cut off. -/
theorem escapedSize_writeValue_le {s value : List Char} {priority : Priority}
    (h : splitPriority s = (value, priority)) :
    escapedSize (writeValue value priority) ≤ escapedSize s := by
  have hnormal (heq : splitPriority s = (s, .normal)) :
      escapedSize (writeValue value priority) ≤ escapedSize s := by
    obtain ⟨rfl, rfl⟩ := Prod.mk.inj (h.symm.trans heq)
    rw [writeValue_normal]
  cases hlast : Text.splitAtLast? (· == '!') s with
  | none => exact hnormal (by rw [splitPriority, hlast])
  | some parts =>
    obtain ⟨before, after⟩ := parts
    by_cases himportant : Text.sameLetters (Text.trim after) "important".toList = true
    · have heq : splitPriority s = (Text.trimEnd before, .important) := by
        simp only [splitPriority, hlast, himportant, if_true]
      obtain ⟨rfl, rfl⟩ := Prod.mk.inj (h.symm.trans heq)
      obtain ⟨c, -, rfl, -⟩ := Text.splitAtLast?_eq_some hlast
      have hletters : (Text.trim after).length = "important".toList.length := by
        simpa [Text.lower] using congrArg List.length (eq_of_beq himportant)
      have hlong : 10 ≤ escapedSize (c :: after) := by
        refine Nat.le_trans ?_ (length_le_escapedSize (c :: after))
        rw [List.length_cons]
        exact Nat.succ_le_succ (hletters.symm.le.trans (Text.isInfix_trimBy _ after).length_le)
      have hmark : escapedSize "!important".toList = 10 := by decide
      have hfront := escapedSize_le_of_sublist (Text.prefix_trimEndBy Text.isBlank before).sublist
      rw [writeValue_important, escapedSize_append, escapedSize_append, hmark]
      exact Nat.add_le_add hfront hlong
    · exact hnormal (by simp only [splitPriority, hlast, himportant, if_false, Bool.false_eq_true])

theorem escapedSize_write (x : Declaration) : escapedSize x.write =
    escapedSize x.property.toList + escapedSize (writeValue x.value.toList x.priority) + 1 := by
  have hcolon : escapedSize [':'] = 1 := by decide
  rw [write_eq, escapedSize_append, escapedSize_cons, hcolon]
  omega

theorem escapedSize_readDeclaration?_le {s : List Char} {x : Declaration}
    (h : readDeclaration? s = some x) : escapedSize x.write ≤ escapedSize s := by
  cases hsplit : Text.splitAt? (· == ':') s with
  | none =>
    rw [readDeclaration?, hsplit] at h
    cases h
  | some parts =>
    obtain ⟨before, after⟩ := parts
    obtain ⟨value, priority, hpriority⟩ :
        ∃ value priority, splitPriority (Text.trim after) = (value, priority) := ⟨_, _, rfl⟩
    rw [readDeclaration?_of_split hsplit, declaration?, hpriority] at h
    split at h
    · cases h
    cases h
    obtain ⟨c, hc, rfl, -⟩ := Text.splitAt?_eq_some_iff.1 hsplit
    obtain rfl : c = ':' := eq_of_beq hc
    have hname : escapedSize (propertyOf (Text.trim before)) ≤ escapedSize before :=
      (escapedSize_propertyOf_le _).trans
        (escapedSize_le_of_sublist (Text.isInfix_trimBy _ before).sublist)
    have hvalue : escapedSize (writeValue value priority) ≤ escapedSize after :=
      (escapedSize_writeValue_le hpriority).trans
        (escapedSize_le_of_sublist (Text.isInfix_trimBy _ after).sublist)
    have hcolon : escapedSize [':'] = 1 := by decide
    rw [escapedSize_write, String.toList_ofList, String.toList_ofList, escapedSize_append,
      escapedSize_cons, hcolon]
    dsimp only
    omega

theorem sublist_dropComments (region : Region) (s : List Char) :
    (dropComments region s).Sublist s := by
  induction region, s using dropComments.induct with
  | case1 => exact .refl _
  | case2 cs ih =>
    rw [dropComments]
    exact (ih.cons _).cons _
  | case3 c cs hnot ih =>
    rw [dropComments]
    · exact ih.cons_cons c
    · exact hnot
  | case4 quote c cs ih =>
    rw [dropComments]
    exact (ih.cons_cons c).cons_cons _
  | case5 quote c cs hnot ih =>
    rw [dropComments]
    · exact ih.cons_cons c
    · exact hnot
  | case6 cs ih =>
    rw [dropComments]
    exact (ih.cons _).cons _
  | case7 c cs hnot ih =>
    rw [dropComments]
    · exact ih.cons c
    · exact hnot

/-! ## Many declarations -/

/-- Length of a declaration with the semicolon after it. -/
def declarationSize (x : Declaration) : Nat := escapedSize x.write + 1

theorem escapedSize_intercalate {texts : List (List Char)} (hne : texts ≠ []) :
    escapedSize ([';'].intercalate texts) + 1 = (texts.map (escapedSize · + 1)).sum := by
  have hsemicolon : escapedSize [';'] = 1 := by decide
  induction texts with
  | nil => exact absurd rfl hne
  | cons t rest ih =>
    cases rest with
    | nil => simp
    | cons next rest =>
      rw [List.intercalate_cons_cons, escapedSize_append, escapedSize_append, hsemicolon,
        List.map_cons, List.sum_cons, ← ih (List.cons_ne_nil next rest)]
      omega

theorem escapedSize_writeDeclarations_add_one {ds : List Declaration} (hne : ds ≠ []) :
    escapedSize (writeDeclarations ds) + 1 = (ds.map declarationSize).sum := by
  rw [writeDeclarations, escapedSize_intercalate (by simpa using hne), List.map_map]
  rfl

theorem escapedSize_writeDeclarations (ds : List Declaration) :
    escapedSize (writeDeclarations ds) = (ds.map declarationSize).sum - 1 := by
  cases ds with
  | nil => rfl
  | cons x rest =>
    exact Nat.eq_sub_of_add_eq (escapedSize_writeDeclarations_add_one (List.cons_ne_nil x rest))

theorem escapedSize_textOf (cs : List Component) : escapedSize (Component.textOf cs) =
    (cs.map fun c => escapedSize c.text).sum := by
  induction cs with
  | nil =>
    rw [Component.textOf]
    rfl
  | cons c cs ih => rw [Component.textOf, escapedSize_append, ih, List.map_cons, List.sum_cons]

/-- Parts are shorter than the whole by the marks between them. -/
theorem sum_splitOnP_le {α : Type} {p : α → Bool} (size : α → Nat) {l : List α}
    (hp : ∀ a ∈ l, p a = true → 1 ≤ size a) :
    ((l.splitOnP p).map fun part => (part.map size).sum + 1).sum ≤ (l.map size).sum + 1 := by
  induction l with
  | nil => simp [List.splitOnP_nil]
  | cons a l ih =>
    have ih := ih fun b hb => hp b (List.mem_cons_of_mem a hb)
    rw [List.splitOnP_cons_eq_if_modifyHead, List.map_cons, List.sum_cons]
    split
    · next ha =>
      have hone := hp a (List.mem_cons_self ..) ha
      rw [List.map_cons, List.sum_cons]
      simp only [List.map_nil, List.sum_nil]
      omega
    · obtain ⟨first, rest, hsplit⟩ := List.exists_cons_of_ne_nil (List.splitOnP_ne_nil p l)
      rw [hsplit] at ih ⊢
      simp only [List.modifyHead_cons, List.map_cons, List.sum_cons] at ih ⊢
      omega

/-- The texts between the marks of a list of components. -/
theorem sum_splitOnP_textOf_le {p : Component → Bool} {cs : List Component}
    (hne : ∀ c ∈ cs, c.text ≠ []) :
    (((cs.splitOnP p).map Component.textOf).map (escapedSize · + 1)).sum ≤
      escapedSize (Component.textOf cs) + 1 := by
  have hsplit := sum_splitOnP_le (p := p) (l := cs) (fun c => escapedSize c.text) fun c hc _ =>
    Nat.le_trans (List.length_pos_of_ne_nil (hne c hc)) (length_le_escapedSize _)
  rw [List.map_map]
  simpa only [Function.comp_def, escapedSize_textOf] using hsplit

/-- The parts of a text between the semicolons that stand in no block. -/
def cuts (s : List Char) : List (List Char) :=
  ((components s).splitOnP Component.isSemicolon).map Component.textOf

/-- What a part between two semicolons is read as. -/
def readPart? (part : List Char) : Option Declaration :=
  readDeclaration? (uncommented part)

theorem readDeclarations_eq (s : List Char) :
    readDeclarations s = (cuts s).filterMap readPart? := by
  rw [readDeclarations, declarationsOf, cuts, List.filterMap_map]
  rfl

theorem sum_cuts_le (s : List Char) :
    ((cuts s).map (escapedSize · + 1)).sum ≤ escapedSize s + 1 := by
  have hsplit := sum_splitOnP_textOf_le (p := Component.isSemicolon)
    (text_ne_nil_of_mem_components s)
  rwa [textOf_components] at hsplit

theorem escapedSize_readPart?_le {part : List Char} {x : Declaration}
    (h : readPart? part = some x) : escapedSize x.write ≤ escapedSize (uncommented part) :=
  escapedSize_readDeclaration?_le h

theorem escapedSize_uncommented_le (part : List Char) :
    escapedSize (uncommented part) ≤ escapedSize part :=
  escapedSize_le_of_sublist (sublist_dropComments .outside part)

theorem sum_filterMap_readPart?_le (parts : List (List Char)) :
    ((parts.filterMap readPart?).map declarationSize).sum ≤
      (parts.map (escapedSize · + 1)).sum := by
  induction parts with
  | nil => exact Nat.le_refl 0
  | cons part parts ih =>
    rw [List.map_cons, List.sum_cons]
    cases hread : readPart? part with
    | none =>
      rw [List.filterMap_cons_none hread]
      exact ih.trans (Nat.le_add_left _ _)
    | some x =>
      have hlength := (escapedSize_readPart?_le hread).trans (escapedSize_uncommented_le part)
      rw [List.filterMap_cons_some hread, List.map_cons, List.sum_cons, declarationSize]
      omega

theorem sum_readDeclarations_le (s : List Char) :
    ((readDeclarations s).map declarationSize).sum ≤ escapedSize s + 1 := by
  rw [readDeclarations_eq]
  exact (sum_filterMap_readPart?_le _).trans (sum_cuts_le s)

end Css

/-! ## Styles -/

namespace Style

open Css (declarationSize)

theorem sum_place_le (x : Declaration) (l : List Declaration) :
    ((place x l).map declarationSize).sum ≤ (l.map declarationSize).sum + declarationSize x := by
  induction l with
  | nil => simp [place]
  | cons y rest ih =>
    rw [place]
    split
    · simp only [List.map_cons, List.sum_cons]
      omega
    · simp only [List.map_cons, List.sum_cons]
      omega

theorem sum_ofDeclarations_le (ds : List Declaration) :
    ((ofDeclarations ds).declarations.map declarationSize).sum ≤
      (ds.map declarationSize).sum := by
  have hfold : ∀ style : Style, ((ds.foldl cascade style).declarations.map declarationSize).sum ≤
      (style.declarations.map declarationSize).sum + (ds.map declarationSize).sum := by
    induction ds with
    | nil => exact fun _ => Nat.le_refl _
    | cons x rest ih =>
      intro style
      have hstep : ((style.cascade x).declarations.map declarationSize).sum ≤
          (style.declarations.map declarationSize).sum + declarationSize x := by
        have hset := sum_place_le x style.declarations
        rw [← declarations_set] at hset
        rw [cascade]
        split
        · split
          · exact Nat.le_add_right _ _
          · exact hset
        · exact hset
      rw [List.foldl_cons, List.map_cons, List.sum_cons]
      exact (ih _).trans (by omega)
  exact (hfold empty).trans (Nat.le_of_eq (Nat.zero_add _))

/-- A style that was read is no longer than its text, also with shorter values. -/
theorem escapedSize_write_mapValues_read_le {f : String → String → String}
    (hf : ∀ p v, escapedSize (f p v).toList ≤ escapedSize v.toList) (s : String) :
    escapedSize ((read s).mapValues f).write.toList ≤ escapedSize s.toList := by
  have hmap : (((read s).mapValues f).declarations.map declarationSize).sum ≤
      ((read s).declarations.map declarationSize).sum := by
    rw [mapValues, List.map_map]
    refine List.sum_le_sum fun x _ => ?_
    have hvalue := hf x.property x.value
    rw [Function.comp_apply, declarationSize, declarationSize, Css.escapedSize_write,
      Css.escapedSize_write, Css.writeValue, Css.writeValue, escapedSize_append, escapedSize_append]
    dsimp only
    omega
  have hread := (sum_ofDeclarations_le _).trans (Css.sum_readDeclarations_le s.toList)
  rw [write, String.toList_ofList, Css.escapedSize_writeDeclarations]
  exact Nat.sub_le_of_le_add (hmap.trans hread)

end Style
end SvgCompact
