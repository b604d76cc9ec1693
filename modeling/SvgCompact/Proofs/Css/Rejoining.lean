import SvgCompact.Proofs.Css.Length
import SvgCompact.Proofs.Stylesheet.Rereading

/-!
Styles that are written and read again.

The declarations of a style are joined by semicolons, and no declaration is longer than the
part of a text that it is read from.  So a text that is read as the style that wrote it has
no room to spare: it is cut between the declarations only, and none of them holds what is
taken for a comment.
-/

namespace SvgCompact

open Markup (escapedSize escapedSize_append length_le_escapedSize
  eq_of_sublist_of_escapedSize_le eq_of_append_eq_append)
open Stylesheet (HasNoComment IsPiece isSeparator_semicolon)

namespace Css

/-! ## Cuts -/

theorem cuts_nil : cuts [] = [[]] := by
  rw [cuts, components_nil, List.splitOnP_nil]
  rfl

/-- Parts as long as texts that are joined by semicolons are these texts: no mark between
them can be longer than a semicolon. -/
theorem map_textOf_splitOnP_eq {cs : List Component} (hne : ∀ c ∈ cs, c.text ≠ [])
    {texts : List (List Char)} (htext : Component.textOf cs = [';'].intercalate texts)
    (hsizes : ((cs.splitOnP Component.isSemicolon).map Component.textOf).map escapedSize =
      texts.map escapedSize) :
    (cs.splitOnP Component.isSemicolon).map Component.textOf = texts := by
  induction texts generalizing cs with
  | nil => simp [List.splitOnP_ne_nil] at hsizes
  | cons t rest ih =>
    rcases Text.splitOnP_cases Component.isSemicolon cs with
      ⟨-, heq⟩ | ⟨front, mark, behind, rfl, -, -, heq⟩
    · rw [heq] at hsizes ⊢
      obtain rfl : rest = [] := by simpa using congrArg List.length hsizes.symm
      rw [List.map_singleton, htext, List.intercalate_singleton]
    · rw [heq] at hsizes ⊢
      rw [List.map_cons, List.map_cons, List.map_cons, List.cons.injEq] at hsizes
      obtain ⟨hfirst, hrest⟩ := hsizes
      obtain ⟨next, others, rfl⟩ : ∃ next others, rest = next :: others := by
        refine List.exists_cons_of_ne_nil ?_
        rintro rfl
        simp [List.splitOnP_ne_nil] at hrest
      rw [Component.textOf_append, Component.textOf, List.intercalate_cons_cons,
        List.append_assoc] at htext
      obtain ⟨hfront, htail⟩ := eq_of_append_eq_append htext hfirst
      have hbehind : ∀ c ∈ behind, c.text ≠ [] := fun c hc => hne c (by simp [hc])
      -- what stands behind the mark is long enough to leave one character for it
      have hlong : escapedSize ([';'].intercalate (next :: others)) ≤
          escapedSize (Component.textOf behind) := by
        refine Nat.le_of_succ_le_succ ((escapedSize_intercalate (by simp)).le.trans ?_)
        rw [show (next :: others).map (escapedSize · + 1) =
          ((next :: others).map escapedSize).map (· + 1) by rw [List.map_map]; rfl, ← hrest,
          List.map_map]
        exact sum_splitOnP_textOf_le hbehind
      have hmark : escapedSize mark.text = escapedSize [';'] := by
        have hsemicolon : escapedSize [';'] = 1 := by decide
        have hone := (List.length_pos_of_ne_nil (hne mark (by simp))).trans_le
          (length_le_escapedSize _)
        have htotal := congrArg escapedSize htail
        rw [escapedSize_append, escapedSize_append] at htotal
        omega
      rw [List.map_cons, hfront,
        ih hbehind (eq_of_append_eq_append htail hmark).2 hrest]

/-! ## Parts without room to spare -/

/-- Parts that are as long as the declarations read from them are what these are written as,
part by part, and hold no comment. -/
theorem readPart?_of_sum_le {parts : List (List Char)}
    (hle : (parts.map (escapedSize · + 1)).sum ≤
      ((parts.filterMap readPart?).map declarationSize).sum) :
    parts.map escapedSize = ((parts.filterMap readPart?).map Declaration.write).map escapedSize ∧
      ∀ part ∈ parts, HasNoComment part := by
  induction parts with
  | nil => exact ⟨rfl, by simp⟩
  | cons part parts ih =>
    have hrest := sum_filterMap_readPart?_le parts
    rw [List.map_cons, List.sum_cons] at hle
    cases hread : readPart? part with
    | none =>
      rw [List.filterMap_cons_none hread] at hle
      omega
    | some x =>
      have hdropped := escapedSize_readPart?_le hread
      have hpart := escapedSize_uncommented_le part
      rw [List.filterMap_cons_some hread, List.map_cons, List.sum_cons, declarationSize] at hle
      obtain ⟨hsizes, hcomments⟩ := ih (by omega)
      have hwhole : uncommented part = part :=
        eq_of_sublist_of_escapedSize_le (sublist_dropComments .outside part) (by omega)
      rw [List.filterMap_cons_some hread, List.map_cons, List.map_cons, List.map_cons, hsizes]
      exact ⟨congrArg (· :: _) (by omega), List.forall_mem_cons.2 ⟨hwhole, hcomments⟩⟩

/-! ## Declarations that come apart -/

/-- Whether the text of declarations is cut between them and nowhere else, and none of them
holds what is taken for a comment. -/
structure ComesApart (ds : List Declaration) : Prop where
  cut : ds = [] ∨ cuts (writeDeclarations ds) = ds.map Declaration.write
  uncommented : ∀ d ∈ ds, HasNoComment d.write

theorem ComesApart.readDeclarations_eq {ds : List Declaration} (h : ComesApart ds)
    (hread : ∀ d ∈ ds, readDeclaration? d.write = some d) :
    readDeclarations (writeDeclarations ds) = ds := by
  rw [Css.readDeclarations_eq]
  rcases h.cut with rfl | hcut
  · rw [writeDeclarations, List.map_nil, List.intercalate_nil, cuts_nil]
    cbv
  · have hone (d : Declaration) (hd : d ∈ ds) : readPart? d.write = some d := by
      rw [readPart?, h.uncommented d hd, hread d hd]
    rw [hcut, List.filterMap_map]
    exact (List.filterMap_congr hone).trans List.filterMap_some

theorem comesApart_of_readDeclarations_eq {ds : List Declaration}
    (h : readDeclarations (writeDeclarations ds) = ds) : ComesApart ds := by
  by_cases hne : ds = []
  · subst hne
    exact ⟨.inl rfl, by simp⟩
  rw [Css.readDeclarations_eq] at h
  have hle : ((cuts (writeDeclarations ds)).map (escapedSize · + 1)).sum ≤
      (((cuts (writeDeclarations ds)).filterMap readPart?).map declarationSize).sum := by
    rw [h]
    exact (sum_cuts_le _).trans (escapedSize_writeDeclarations_add_one hne).le
  obtain ⟨hsizes, hcomments⟩ := readPart?_of_sum_le hle
  rw [h] at hsizes
  have hcut : cuts (writeDeclarations ds) = ds.map Declaration.write :=
    map_textOf_splitOnP_eq (text_ne_nil_of_mem_components _) (textOf_components _) hsizes
  rw [hcut] at hcomments
  exact ⟨.inr hcut, fun d hd => hcomments _ (List.mem_map_of_mem hd)⟩

/-- Declarations that are whole pieces come apart. -/
theorem comesApart_of_isPiece {ds : List Declaration}
    (hpieces : ∀ d ∈ ds, IsPiece Component.isSemicolon d.write)
    (hcomments : ∀ d ∈ ds, HasNoComment d.write) : ComesApart ds := by
  refine ⟨?_, hcomments⟩
  by_cases hne : ds = []
  · exact .inl hne
  have hsplit := isSeparator_semicolon.splitOnP_components rfl
    (List.forall_mem_map.2 hpieces) (by simpa using hne)
  refine .inr ?_
  rw [cuts, writeDeclarations, hsplit, List.map_map]
  refine (List.map_congr_left fun s _ => ?_).trans (List.map_id _)
  exact textOf_components s

end Css

/-! ## Styles -/

namespace Style

open Css

theorem readDeclaration?_of_mem_read {text : String} {d : Declaration}
    (h : d ∈ (read text).declarations) : readDeclaration? d.write = some d :=
  Rule.readDeclaration?_of_mem (mem_of_mem_ofDeclarations h)

/-- When the declarations read from what a style writes make up the style again, there are
no others among them. -/
theorem readDeclarations_of_read_write {style : Style} (hnodup : style.properties.Nodup)
    (hne : style.declarations ≠ []) (h : read style.write = style) :
    readDeclarations (writeDeclarations style.declarations) = style.declarations := by
  rw [write, read, String.toList_ofList] at h
  have hsize : ((readDeclarations (writeDeclarations style.declarations)).map
      declarationSize).sum ≤ (style.declarations.map declarationSize).sum :=
    (sum_readDeclarations_le _).trans (escapedSize_writeDeclarations_add_one hne).le
  have hsubset : style.declarations ⊆
      readDeclarations (writeDeclarations style.declarations) := by
    intro d hd
    rw [← h] at hd
    exact mem_of_mem_ofDeclarations hd
  have hperm := perm_of_subset_of_sum_le hnodup.of_map hsubset
    (fun d _ => Nat.le_add_left 1 (escapedSize d.write)) hsize
  have hdistinct := (hperm.map Declaration.property).nodup_iff.1 hnodup
  exact (ofDeclarations_of_nodup hdistinct).symm.trans (congrArg declarations h)

/-- A style that was read is read back from what it is written as exactly when its
declarations come apart, and they do when each of them is a whole piece without comment. -/
theorem read_write_iff (text : String) :
    (read (read text).write = read text ↔ ComesApart (read text).declarations) ∧
      ((∀ d ∈ (read text).declarations,
          IsPiece Component.isSemicolon d.write ∧ HasNoComment d.write) →
        read (read text).write = read text) := by
  have hnodup : (read text).properties.Nodup := nodup_properties_ofDeclarations _
  have hback (h : ComesApart (read text).declarations) :
      read (read text).write = read text := by
    have hread := h.readDeclarations_eq fun d hd => readDeclaration?_of_mem_read hd
    rw [write, read, String.toList_ofList, hread]
    exact congrArg Style.mk (ofDeclarations_of_nodup hnodup)
  refine ⟨⟨fun h => ?_, hback⟩, fun h => hback ?_⟩
  · by_cases hne : (read text).declarations = []
    · rw [hne]
      exact ⟨.inl rfl, by simp⟩
    · exact comesApart_of_readDeclarations_eq (readDeclarations_of_read_write hnodup hne h)
  · exact comesApart_of_isPiece (fun d hd => (h d hd).1) fun d hd => (h d hd).2

theorem read_quoted : read "a:b;c:'x;y'!important" =
    ⟨[⟨"a", "b", .normal⟩, ⟨"c", "'x;y'", .important⟩]⟩ := by
  cbv

theorem read_write_quoted :
    (∀ d ∈ (read "a:b;c:'x;y'!important").declarations,
        IsPiece Component.isSemicolon d.write ∧ HasNoComment d.write) ∧
      read (read "a:b;c:'x;y'!important").write = read "a:b;c:'x;y'!important" := by
  have hpieces : ∀ d ∈ (read "a:b;c:'x;y'!important").declarations,
      IsPiece Component.isSemicolon d.write ∧ HasNoComment d.write := by
    rw [read_quoted]
    refine List.forall_mem_cons.2 ⟨⟨Stylesheet.isPiece_iff.2 (by cbv), ?_⟩,
      List.forall_mem_singleton.2 ⟨Stylesheet.isPiece_iff.2 (by cbv), ?_⟩⟩ <;>
    · rw [HasNoComment]
      cbv
  exact ⟨hpieces, (read_write_iff _).2 hpieces⟩

/-- The blank that ends an escape is trimmed off, and the backslash takes the semicolon. -/
example : (read "a:b\\ ;c:d").write = "a:b\\;c:d" ∧
    read "a:b\\;c:d" = ⟨[⟨"a", "b\\;c:d", .normal⟩]⟩ := by
  constructor <;> cbv

end Style
end SvgCompact
