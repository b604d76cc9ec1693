import SvgCompact.Proofs.Markup.Building

/-!
What was read can be written again.

The contents of a document that was read end, when they are printed, where they are
meant to end.  Left out is what is not true of all of them: names may hold characters
that end them, and a document type may be blank.
-/

namespace SvgCompact
namespace Markup

open Text (Avoids)
open Document (root)

/-- Whether the printed form of some content ends where it is meant to end.  Names
and character data are left out. -/
def IsWritable : Content → Prop
  | .comment s => Text.IsBody "-->".toList s.toList
  | .instruction target body =>
    Avoids '?' '>' ('?' :: target.toList ++ if body.isEmpty then [] else ' ' :: body.toList)
  | .doctype body =>
    IsBalanced 0 body.toList ∧ ∀ c, body.toList.head? = some c → Text.isBlank c = false
  | _ => True

theorem isWritable_doctype {body : List Char} (h : IsBalanced 0 body) :
    IsWritable (.doctype (String.ofList (Text.trim body))) := by
  obtain ⟨front, back, hs, hfront, hback⟩ := Text.trimBy_eq Text.isBlank body
  have hneutral : ∀ s : List Char, (∀ x ∈ s, Text.isBlank x = true) → IsNeutral s := by
    intro s hblank c hc
    have hc' := hblank c hc
    constructor
    · intro heq
      subst heq
      revert hc'
      decide
    · intro heq
      subst heq
      revert hc'
      decide
  rw [IsWritable, String.toList_ofList]
  refine ⟨?_, fun c hc => Text.not_of_head?_trimBy hc⟩
  rw [hs, List.append_assoc, isBalanced_append_iff (hneutral _ hfront)] at h
  exact isBalanced_of_append (hneutral _ hback) h

theorem isWritable_instructionOf {content : List Char} (h : Avoids '?' '>' ('?' :: content)) :
    IsWritable (instructionOf content) := by
  rw [instructionOf]
  split
  · next target body hsplit =>
    obtain ⟨c, -, rfl, -⟩ := Text.splitAt?_eq_some_iff.1 hsplit
    have htarget : Avoids '?' '>' ('?' :: target) :=
      h.of_isInfix (List.prefix_append ('?' :: target) (c :: body)).isInfix
    have hbody : Avoids '?' '>' (Text.trim body) :=
      h.of_isInfix ((Text.isInfix_trimBy _ _).trans
        ((List.suffix_append ('?' :: target ++ [c]) body).isInfix.trans (by simp)))
    rw [IsWritable, String.toList_ofList, String.toList_ofList]
    split
    · rwa [List.append_nil]
    · exact htarget.append (hbody.cons (by decide)) (by simp)
  · rw [IsWritable, String.toList_ofList]
    simpa using h

/-! ## The declaration -/

theorem isInfix_of_valueStep {size position : Nat} {key s rest : List Char} {a : RawAttribute}
    (h : valueStep size key position s = .found a rest) : a.value <:+: s ∧ rest <:+ s := by
  have hskip : skipBlanks s <:+ s := List.dropWhile_suffix _
  rw [valueStep] at h
  split at h
  · cases h
  · next quote cs hs =>
    rw [hs] at hskip
    split at h
    · split at h
      · next value after hsplit =>
        cases h
        obtain ⟨c, -, rfl, -⟩ := Text.splitAt?_eq_some_iff.1 hsplit
        constructor
        · refine List.IsInfix.trans ?_ hskip.isInfix
          exact ⟨[quote], c :: rest, by simp⟩
        · refine List.IsSuffix.trans ?_ hskip
          exact ⟨quote :: (value ++ [c]), by simp⟩
      · cases h
    · cases h

theorem isInfix_of_attributeStep {size : Nat} {known : List RawAttribute} {s rest : List Char}
    {a : RawAttribute} (h : attributeStep size known s = .found a rest) :
    a.value <:+: s ∧ rest <:+ s := by
  have hskip : skipBlanks s <:+ s := List.dropWhile_suffix _
  rw [attributeStep] at h
  split at h
  · cases h
  · next c cs hs =>
    rw [hs] at hskip
    simp only at h
    split at h
    · cases h
    · next e after hkey =>
      have hafter : e :: after <:+ (c :: cs).drop (keyLength (c :: cs)) :=
        hkey ▸ List.dropWhile_suffix _
      have hrest : after <:+ s :=
        (List.suffix_cons e after).trans (hafter.trans ((List.drop_suffix _ _).trans hskip))
      split at h
      · split at h
        · cases h
        · have hvalue := isInfix_of_valueStep h
          exact ⟨hvalue.1.trans hrest.isInfix, hvalue.2.trans hrest⟩
      · cases h

theorem isInfix_of_mem_attributesFrom {size : Nat} {unique : Bool} {known : List RawAttribute}
    {s : List Char} {a : RawAttribute} (h : .ok a ∈ attributesFrom size unique known s) :
    a.value <:+: s := by
  induction hn : s.length using Nat.strongRecOn generalizing s known with
  | ind n ih =>
    rw [attributesFrom] at h
    split at h
    · cases h
    · simp at h
    · next b rest hstep =>
      have hinfix := isInfix_of_attributeStep hstep
      rcases List.mem_cons.1 h with heq | hmem
      · cases heq
        exact hinfix.1
      · have hlt := length_of_attributeStep hstep
        exact (ih _ (hn ▸ hlt) hmem rfl).trans hinfix.2.isInfix

theorem mem_of_valueOf? {key : List Char} {l : List (Except (Nat × AttributeFault) RawAttribute)}
    {v : List Char} (h : valueOf? key l = some v) : ∃ a, .ok a ∈ l ∧ a.value = v := by
  induction l with
  | nil => cases h
  | cons x rest ih =>
    cases x with
    | error e => cases h
    | ok a =>
      rw [valueOf?] at h
      split at h
      · cases h
        exact ⟨a, by simp, rfl⟩
      · obtain ⟨b, hb, rfl⟩ := ih h
        exact ⟨b, by simp [hb], rfl⟩

def declarationPart (name : String) (value : Option (List Char)) : List Char :=
  match value with
  | some v => name.toList ++ '=' :: '"' :: v ++ ['"']
  | none => []

theorem declarationBody_eq (content : List Char) : declarationBody content =
    let attributes := attributesFrom (Text.byteSize content) false [] content
    declarationPart "version" (valueOf? "version".toList (attributes.take 1))
      ++ declarationPart " encoding" (valueOf? "encoding".toList attributes)
      ++ declarationPart " standalone" (valueOf? "standalone".toList attributes) := rfl

theorem avoids_declarationPart {name : String} {value : Option (List Char)}
    (hname : '?' ∉ name.toList) (hvalue : ∀ v, value = some v → Avoids '?' '>' v) :
    Avoids '?' '>' (declarationPart name value) := by
  unfold declarationPart
  split
  · next v =>
    have hv : Avoids '?' '>' ('=' :: '"' :: v ++ ['"']) :=
      (((hvalue v rfl).append (.singleton '"') (by simp)).cons (by decide)).cons (by decide)
    rw [List.append_assoc]
    exact (Text.avoids_of_notMem hname).append hv (by simp)
  · exact .nil

theorem head?_declarationPart {name : String} (hname : ∃ c, name.toList.head? = some c ∧ c ≠ '>')
    (value : Option (List Char)) : (declarationPart name value).head? ≠ some '>' := by
  obtain ⟨c, hc, hne⟩ := hname
  unfold declarationPart
  split
  · simp [List.head?_append, hc, hne]
  · simp

theorem avoids_declarationBody {content : List Char} (h : Avoids '?' '>' content) :
    Avoids '?' '>' (declarationBody content) := by
  rw [declarationBody_eq]
  generalize hattributes : attributesFrom (Text.byteSize content) false [] content = attributes
  have hvalue : ∀ key l, (∀ x ∈ l, x ∈ attributes) → ∀ v, valueOf? key l = some v →
      Avoids '?' '>' v := by
    intro key l hl v hv
    obtain ⟨a, ha, rfl⟩ := mem_of_valueOf? hv
    have hmem := hl _ ha
    rw [← hattributes] at hmem
    exact h.of_isInfix (isInfix_of_mem_attributesFrom hmem)
  refine ((avoids_declarationPart (by decide) (hvalue _ _ fun x => List.mem_of_mem_take)).append
    (avoids_declarationPart (by decide) (hvalue _ _ fun x => id)) ?_).append
    (avoids_declarationPart (by decide) (hvalue _ _ fun x => id)) ?_
  · exact head?_declarationPart ⟨' ', by decide⟩ _
  · exact head?_declarationPart ⟨' ', by decide⟩ _

theorem isWritable_of_adds {piece : Piece} {content : Content} (hp : piece.IsSound)
    (h : piece.Adds content) : IsWritable content := by
  cases h with
  | declaration content =>
    have hbody := avoids_declarationBody hp
    have hword : Avoids '?' '>' ('?' :: "xml".toList) :=
      .cons_cons (by decide) (Text.avoids_of_notMem (by decide))
    rw [IsWritable]
    split
    · rwa [List.append_nil]
    · refine hword.append (Text.Avoids.cons (by decide) ?_) (by simp)
      simpa using hbody
  | instruction content => exact isWritable_instructionOf hp
  | doctype body => exact isWritable_doctype hp
  | comment body =>
    have hbody : Text.IsBody "-->".toList body := hp
    simpa [IsWritable] using hbody
  | cdata body => trivial
  | text raw s => trivial
  | start content isEmpty h => trivial

/-! ## Documents -/

/-- What is true of all contents that are read. -/
def IsReadContent (content : Content) : Prop :=
  IsWritable content ∧ ∀ e, content = .element e → e.All QName.IsRead

theorem elementOf_eq_ok_iff {content : List Char} {e : Element} :
    Builder.elementOf content = .ok e ↔
      ∃ attributes, Builder.resolveAttributes (attributesOf content) = .ok attributes ∧
        e = Element.ofAttributes (QName.read (String.ofList (tagName content))) attributes := by
  rw [Builder.elementOf]
  cases Builder.resolveAttributes (attributesOf content) with
  | error fault => simp [bind, Except.bind]
  | ok attributes => simp [bind, Except.bind, eq_comm]

theorem isRead_of_resolveAttributes {l : List (Except (Nat × AttributeFault) RawAttribute)}
    {attributes : List Attribute} (h : Builder.resolveAttributes l = .ok attributes) :
    ∀ a ∈ attributes, a.name.IsRead := by
  induction l generalizing attributes with
  | nil =>
    cases h
    simp
  | cons x rest ih =>
    cases x with
    | error e => cases h
    | ok raw =>
      rw [Builder.resolveAttributes] at h
      cases hvalue : resolve raw.value with
      | error fault =>
        rw [hvalue] at h
        cases h
      | ok value =>
        cases hrest : Builder.resolveAttributes rest with
        | error fault =>
          rw [hvalue, hrest] at h
          cases h
        | ok others =>
          rw [hvalue, hrest] at h
          cases h
          intro a ha
          rcases List.mem_cons.1 ha with rfl | ha
          · exact QName.isRead_read _
          · exact ih hrest a ha

theorem isReadContent_of_adds {piece : Piece} {content : Content} (hp : piece.IsSound)
    (h : piece.Adds content) : IsReadContent content := by
  refine ⟨isWritable_of_adds hp h, fun e he => ?_⟩
  cases h with
  | instruction content =>
    obtain ⟨target, body, heq⟩ := instructionOf_eq content
    rw [heq] at he
    cases he
  | start content isEmpty helement =>
    cases he
    obtain ⟨attributes, hattributes, rfl⟩ := elementOf_eq_ok_iff.1 helement
    exact Element.all_ofAttributes (QName.isRead_read _) (isRead_of_resolveAttributes hattributes)
  | declaration content => cases he
  | doctype body => cases he
  | comment body => cases he
  | cdata body => cases he
  | text raw s => cases he

theorem readPieces_cons {offset : Nat} {b : Builder} {c : Char} {cs rest : List Char}
    {piece : Piece} (hnext : Piece.next c cs = .ok (piece, rest)) :
    readPieces offset b (c :: cs) =
      match b.add piece with
      | .error fault =>
        .error (blame offset (offset + Text.byteSize (c :: cs) - Text.byteSize rest) piece, fault)
      | .ok b => readPieces (offset + Text.byteSize (c :: cs) - Text.byteSize rest) b rest := by
  rw [readPieces]
  split
  · next hfault =>
    rw [hnext] at hfault
    cases hfault
  · next hpiece =>
    rw [hnext] at hpiece
    cases hpiece
    rfl

theorem isSound_readPieces {offset : Nat} {b b' : Builder} {s : List Char}
    (hb : b.IsSound IsReadContent) (h : readPieces offset b s = .ok b') :
    b'.IsSound IsReadContent := by
  induction hn : s.length using Nat.strongRecOn generalizing offset b s with
  | ind n ih =>
    unfold readPieces at h
    split at h
    · cases h
      exact hb
    · next c cs =>
      split at h
      · cases h
      · next piece rest hnext =>
        have hlt := length_of_next hnext
        simp only at h
        split at h
        · cases h
        · next b₁ hadd =>
          have hb₁ := hb.add (fun _ => isReadContent_of_adds (Piece.isSound_of_next hnext)) hadd
          refine ih rest.length ?_ hb₁ h rfl
          rw [← hn, List.length_cons]
          omega

/-- What is known of a document that was read. -/
theorem of_read {s : String} {d : Document} (h : read s = .ok d) :
    d.IsRooted ∧ (∀ j, IsReadContent (d.content j)) ∧
      ∃ r, d.isElement r = true ∧ d.parent r = some root
        ∧ ∀ c, d.parent c = some root → c = r ∨ (d.content c).isMisc = true := by
  unfold read at h
  simp only at h
  split at h
  · cases h
  · next b hb =>
    split at h
    · cases h
    · split at h
      · cases h
      · next hroot =>
        cases h
        have hempty : Builder.empty.IsSound IsReadContent :=
          .empty ⟨trivial, fun e he => by cases he⟩
        have hsound := isSound_readPieces hempty hb
        have htop := hsound.top
        have hhas : b.hasRoot = true := by simpa using hroot
        rw [hhas] at htop
        exact ⟨hsound.rooted, hsound.contents, htop⟩

theorem isSound_of_read {s : String} {d : Document} (hs : read s = .ok d) :
    d.IsSound QName.IsRead := by
  obtain ⟨hrooted, hcontents, -⟩ := of_read hs
  exact ⟨hrooted, fun j e he => (hcontents j).2 e (Content.eq_element_of_element? he)⟩

end Markup
end SvgCompact
