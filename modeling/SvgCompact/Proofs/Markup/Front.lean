import SvgCompact.Proofs.Markup.Tags

/-!
Which piece stands in front of a text that begins with a printed one.
-/

namespace SvgCompact
namespace Markup

theorem next_of_read {c : Char} {cs rest : List Char} {piece : Piece}
    (h : Piece.read c cs = .ok (piece, rest)) (hrest : rest <:+ cs) :
    Piece.next c cs = .ok (piece, rest) := by
  obtain ⟨front, rfl⟩ := hrest
  rw [Piece.next]
  rw [h]
  simp [Except.map]

theorem read_of_ne {c : Char} (h : c ≠ '<') (cs : List Char) : Piece.read c cs =
    .ok (.text (c :: cs.takeWhile (· != '<')), cs.dropWhile (· != '<')) := by
  unfold Piece.read
  rw [if_neg (by simpa using h)]

theorem next_of_ne {c : Char} (h : c ≠ '<') (cs : List Char) : Piece.next c cs =
    .ok (.text (c :: cs.takeWhile (· != '<')), cs.dropWhile (· != '<')) :=
  next_of_read (read_of_ne h cs) (List.dropWhile_suffix _)

/-! ## Sections -/

theorem next_comment {body : String} (hbody : IsWritable (.comment body)) (s : List Char) :
    Piece.next '<' ('!' :: '-' :: '-' :: body.toList ++ "-->".toList ++ s)
      = .ok (.comment body.toList, s) := by
  have hcut : Text.cut? "-->".toList (body.toList ++ "-->".toList ++ s) = some (body.toList, s) :=
    Text.cut?_append hbody s
  refine next_of_read ?_ (List.suffix_append _ s)
  simp only [Piece.read, beq_self_eq_true, if_true, List.cons_append, Piece.nextComment, hcut]

theorem next_cdata {body : String} (hbody : Text.IsBody "]]>".toList body.toList)
    (s : List Char) :
    Piece.next '<' ('!' :: ("[CDATA[".toList ++ body.toList ++ "]]>".toList) ++ s)
      = .ok (.cdata body.toList, s) := by
  have hcut : Text.cut? "]]>".toList (body.toList ++ "]]>".toList ++ s) = some (body.toList, s) :=
    Text.cut?_append hbody s
  have hafter := Text.after?_append "[CDATA[".toList (body.toList ++ "]]>".toList ++ s)
  refine next_of_read ?_ (List.suffix_append _ s)
  rw [List.append_assoc _ body.toList, List.cons_append, List.append_assoc]
  show Piece.nextCData ("[CDATA[".toList ++ (body.toList ++ "]]>".toList ++ s)) = _
  rw [Piece.nextCData, hafter]
  simp only [hcut]

/-! ## Tags -/

theorem read_tag {c : Char} (hc : isNameChar c = true) (cs : List Char) :
    Piece.read '<' (c :: cs) = Piece.nextTag (c :: cs) := by
  have hbang : c ≠ '!' := ne_of_isNameChar hc (by decide)
  have hquestion : c ≠ '?' := ne_of_isNameChar hc (by decide)
  unfold Piece.read
  simp only [beq_self_eq_true, if_true]
  split
  · next heq => exact absurd (List.cons.inj heq).1 hbang
  · next heq => exact absurd (List.cons.inj heq).1 hbang
  · next heq => exact absurd (List.cons.inj heq).1 hbang
  · next heq => exact absurd (List.cons.inj heq).1 hbang
  · next heq => exact absurd (List.cons.inj heq).1 hquestion
  · rfl

theorem nextTag_start {c : Char} (hc : isNameChar c = true) {cs s : List Char}
    (htag : IsInTag (c :: cs)) (hlast : (c :: cs).getLast? ≠ some '/') :
    Piece.nextTag (c :: cs ++ '>' :: s) = .ok (.start (c :: cs) false, s) := by
  have hslash : c ≠ '/' := ne_of_isNameChar hc (by decide)
  rw [Piece.nextTag]
  rw [htag.takeTag_eq]
  split
  · next h => cases h
  · next h =>
    cases h
    exact absurd rfl hslash
  · next h =>
    cases h
    rw [if_neg hlast]

theorem nextTag_empty {c : Char} (hc : isNameChar c = true) {cs s : List Char}
    (htag : IsInTag (c :: cs)) :
    Piece.nextTag (c :: cs ++ '/' :: '>' :: s) = .ok (.start (c :: cs) true, s) := by
  have hslash : c ≠ '/' := ne_of_isNameChar hc (by decide)
  have htake := (htag.append (.char (by decide : '/' ≠ '>' ∧ '/' ≠ '"' ∧ '/' ≠ '\''))).takeTag_eq s
  rw [List.append_assoc] at htake
  rw [Piece.nextTag]
  rw [List.singleton_append] at htake
  rw [htake]
  split
  · next h => cases h
  · next h =>
    cases h
    exact absurd rfl hslash
  · next h =>
    cases h
    rw [if_pos List.getLast?_concat, List.dropLast_concat]

/-- Nothing in a printed start tag is a slash at its end. -/
theorem getLast?_printHead {e : Element} (he : e.IsPlain) (options : PrintOptions) :
    (printHead options e).getLast? ≠ some '/' := by
  have hname : e.name.full.toList.getLast? ≠ some '/' := by
    intro hlast
    have hc := he.name.chars '/' (List.mem_of_getLast? hlast)
    exact ne_of_isNameChar hc (by decide : '/' ∈ _) rfl
  have hattributes :
      ((printedAttributes options e).flatMap printAttribute).getLast? ≠ some '/' := by
    induction printedAttributes options e with
    | nil => simp
    | cons a rest ih =>
      have ha : (printAttribute a).getLast? = some '"' := by
        rw [printAttribute, List.getLast?_concat]
      rw [List.flatMap_cons, List.getLast?_append, ha]
      cases hrest : (rest.flatMap printAttribute).getLast? with
      | none => simp
      | some c =>
        rw [hrest] at ih
        simpa using ih
  rw [printHead_eq, List.getLast?_append]
  cases hlast : ((printedAttributes options e).flatMap printAttribute).getLast? with
  | none => simpa using hname
  | some c =>
    rw [hlast] at hattributes
    simpa using hattributes

section Tags

variable {e : Element} (he : e.IsPlain) (options : PrintOptions) (s : List Char)
include he

omit s in
theorem exists_printHead_eq_cons :
    ∃ c cs, printHead options e = c :: cs ∧ isNameChar c = true := by
  obtain ⟨c, cs, hfull, hc⟩ := exists_full_eq_cons he.name.toIsWord
  rw [printHead_eq, hfull]
  exact ⟨c, _, rfl, hc⟩

theorem next_startTag : Piece.next '<' (printHead options e ++ '>' :: s) =
    .ok (.start (printHead options e) false, s) := by
  obtain ⟨c, cs, hhead, hc⟩ := exists_printHead_eq_cons he options
  have htag := isInTag_printHead he options
  have hlast := getLast?_printHead he options
  rw [hhead] at htag hlast ⊢
  have hread := (read_tag hc (cs ++ '>' :: s)).trans (nextTag_start hc htag hlast)
  exact next_of_read hread ⟨c :: cs ++ ['>'], by simp⟩

theorem next_emptyTag : Piece.next '<' (printHead options e ++ '/' :: '>' :: s) =
    .ok (.start (printHead options e) true, s) := by
  obtain ⟨c, cs, hhead, hc⟩ := exists_printHead_eq_cons he options
  have htag := isInTag_printHead he options
  rw [hhead] at htag ⊢
  have hread := (read_tag hc (cs ++ '/' :: '>' :: s)).trans (nextTag_empty hc htag)
  exact next_of_read hread ⟨c :: cs ++ ['/', '>'], by simp⟩

end Tags

theorem finishName_full {n : QName} (hn : n.IsWord) :
    finishName n.full.toList = n.full.toList := by
  have htrim : Text.trimEndBy Text.isMarkupBlank n.full.toList = n.full.toList := by
    rw [Text.trimEndBy]
    cases hreverse : n.full.toList.reverse with
    | nil => rw [List.dropWhile_nil, ← hreverse, List.reverse_reverse]
    | cons c cs =>
      have hc := hn.chars c (List.mem_reverse.1 (by rw [hreverse]; simp))
      rw [List.dropWhile_cons_of_neg (by simp [isMarkupBlank_of_isNameChar hc]), ← hreverse,
        List.reverse_reverse]
  rw [finishName]
  simp [htrim]

theorem next_endTag {n : QName} (hn : n.IsWord) (s : List Char) :
    Piece.next '<' ('/' :: n.full.toList ++ '>' :: s) = .ok (.finish n.full.toList, s) := by
  have htake := ((IsInTag.char (by decide : '/' ≠ '>' ∧ '/' ≠ '"' ∧ '/' ≠ '\'')).append
    (isInTag_full hn)).takeTag_eq s
  have hread : Piece.read '<' ('/' :: n.full.toList ++ '>' :: s)
      = .ok (.finish n.full.toList, s) := by
    show Piece.nextTag ('/' :: (n.full.toList ++ '>' :: s)) = _
    rw [List.singleton_append, List.cons_append] at htake
    rw [Piece.nextTag, htake]
    simp only [finishName_full hn]
  exact next_of_read hread ⟨'/' :: n.full.toList ++ ['>'], by simp⟩

end Markup
end SvgCompact
